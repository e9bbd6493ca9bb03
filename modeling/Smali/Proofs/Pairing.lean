import Mathlib.Data.List.Basic
import Mathlib.Data.List.Forall2

/-! Two lists may be related member by member, and a list of pairs relates what it pairs. -/

namespace List

/-- What is found for a key is paired with it. -/
theorem mem_of_lookup {α β : Type} [BEq α] [LawfulBEq α] {key : α} {value : β}
    {pairs : List (α × β)} (found : pairs.lookup key = some value) : (key, value) ∈ pairs := by
  -- The first pair with the key is found.
  obtain ⟨front, back, whole, -⟩ := lookup_eq_some_iff.1 found
  simp [whole]

/-- A relation into images under a function is a relation into what they are images of. -/
theorem exists_forall₂_map {α β γ : Type} {relates : α → β → Prop} (chosen : α → γ → Prop)
    (image : γ → β) {left : List α} {right : List β} (related : Forall₂ relates left right)
    (choose : ∀ a b, relates a b → ∃ c, chosen a c ∧ b = image c) :
    ∃ middle, Forall₂ chosen left middle ∧ right = middle.map image := by
  -- The choices are made one by one.
  induction related with
  | nil => exact ⟨[], .nil, rfl⟩
  | cons first _ ih =>
    obtain ⟨c, here, rfl⟩ := choose _ _ first
    obtain ⟨middle, others, rfl⟩ := ih
    exact ⟨c :: middle, .cons here others, rfl⟩

/-- A list each of whose members is related to something is related to some list. -/
theorem exists_forall₂ {α β : Type} {relates : α → β → Prop} {left : List α}
    (each : ∀ a ∈ left, ∃ b, relates a b) : ∃ right, Forall₂ relates left right := by
  -- The choices are made one by one.
  induction left with
  | nil => exact ⟨[], .nil⟩
  | cons a rest ih =>
    obtain ⟨b, here⟩ := each a (by simp)
    obtain ⟨others, related⟩ := ih fun c member => each c (by simp [member])
    exact ⟨b :: others, .cons here related⟩

/-- Every right member of a relation between lists has a left member. -/
theorem exists_of_mem_right {α β : Type} {relates : α → β → Prop} {left : List α}
    {right : List β} (related : Forall₂ relates left right) {b : β} (member : b ∈ right) :
    ∃ a ∈ left, relates a b := by
  -- The members are looked through in order.
  induction related with
  | nil => simp at member
  | cons first _ ih =>
    rcases mem_cons.1 member with rfl | member
    · exact ⟨_, by simp, first⟩
    · obtain ⟨a, inside, here⟩ := ih member
      exact ⟨a, mem_cons_of_mem _ inside, here⟩

/-- Every left member of a relation between lists has a right member. -/
theorem exists_of_mem_left {α β : Type} {relates : α → β → Prop} {left : List α}
    {right : List β} (related : Forall₂ relates left right) {a : α} (member : a ∈ left) :
    ∃ b ∈ right, relates a b := by
  -- The relation is turned around.
  exact exists_of_mem_right related.flip member

/-- Something holds of a member exactly if something that agrees on related members holds of one. -/
theorem Forall₂.exists_iff {α β : Type} {relates : α → β → Prop} {Holds : α → Prop}
    {Holds' : β → Prop} {left : List α} {right : List β} (related : Forall₂ relates left right)
    (same : ∀ a b, relates a b → (Holds a ↔ Holds' b)) :
    (∃ a ∈ left, Holds a) ↔ ∃ b ∈ right, Holds' b := by
  -- The member that is related to it is taken.
  constructor
  · rintro ⟨a, member, holds⟩
    obtain ⟨b, inside, here⟩ := exists_of_mem_left related member
    exact ⟨b, inside, (same a b here).1 holds⟩
  · rintro ⟨b, member, holds⟩
    obtain ⟨a, inside, here⟩ := exists_of_mem_right related member
    exact ⟨a, inside, (same a b here).2 holds⟩

/-- Lists in which each place holds what is made of that place are related place by place. -/
theorem forall₂_of_getElem? {α : Type} {relates : α → α → Prop} {before after : List α}
    (made : Nat → α → α) (same : ∀ index : Nat, after[index]? = before[index]?.map (made index))
    (related : ∀ index, ∀ a ∈ before, relates a (made index a)) :
    Forall₂ relates before after := by
  -- Both lists have the same places.
  have lengths : before.length = after.length := by
    refine Nat.le_antisymm ?_ ?_
    · have none' := same after.length
      rw [getElem?_eq_none (Nat.le_refl _), eq_comm, Option.map_eq_none_iff] at none'
      exact getElem?_eq_none_iff.1 none'
    · refine getElem?_eq_none_iff.1 ?_
      rw [same, getElem?_eq_none (Nat.le_refl _), Option.map_none]
  refine forall₂_iff_get.2 ⟨lengths, fun index first second => ?_⟩
  have here := same index
  rw [getElem?_eq_getElem first, getElem?_eq_getElem second, Option.map_some,
    Option.some.injEq] at here
  rw [get_eq_getElem, get_eq_getElem, here]
  exact related index _ (getElem_mem first)

/-- Lists that are related through a third one are related. -/
theorem Forall₂.trans_of {α β γ : Type} {first : α → β → Prop} {second : β → γ → Prop}
    {both : α → γ → Prop} {left : List α} {middle : List β} {right : List γ}
    (related : Forall₂ first left middle)
    (compose : ∀ a b c, first a b → second b c → both a c)
    (related' : Forall₂ second middle right) :
    Forall₂ both left right := by
  -- The members are taken one by one.
  induction related generalizing right with
  | nil =>
    cases related'
    exact .nil
  | cons here _ ih =>
    cases related' with
    | cons here' others => exact .cons (compose _ _ _ here here') (ih others)

/-- What is found first in related lists by tests that agree is related. -/
theorem Forall₂.find? {α β : Type} {relates : α → β → Prop} {left : List α} {right : List β}
    (related : Forall₂ relates left right) (test : α → Bool) (test' : β → Bool)
    (agree : ∀ a b, relates a b → test a = test' b) :
    Option.Rel relates (left.find? test) (right.find? test') := by
  -- The same place passes in both lists.
  induction related with
  | nil => exact .none
  | @cons a b _ _ here _ ih =>
    rw [find?_cons, find?_cons, agree a b here]
    cases test' b with
    | true => exact .some here
    | false => exact ih

/-- Related lists that are cut where tests that agree pass first have related parts. -/
theorem Forall₂.split_first {α β : Type} {relates : α → β → Prop} {front back : List α}
    {front' back' : List β} {a : α} {b : β}
    (related : Forall₂ relates (front ++ a :: back) (front' ++ b :: back')) (test : α → Bool)
    (test' : β → Bool) (agree : ∀ a b, relates a b → test a = test' b)
    (before : ∀ c ∈ front, test c = false) (here : test a) (before' : ∀ c ∈ front', test' c = false)
    (here' : test' b) :
    Forall₂ relates front front' ∧ relates a b ∧ Forall₂ relates back back' := by
  -- Neither cut comes before the other.
  induction front generalizing front' with
  | nil =>
    cases front' with
    | nil =>
      cases related with
      | cons first others => exact ⟨.nil, first, others⟩
    | cons c rest' =>
      cases related with
      | cons first others =>
        -- The second list is cut too early.
        rw [agree _ _ first, before' c (by simp)] at here
        cases here
  | cons c rest ih =>
    cases front' with
    | nil =>
      cases related with
      | cons first others =>
        -- The first list is cut too early.
        rw [← agree _ _ first, before c (by simp)] at here'
        cases here'
    | cons d rest' =>
      cases related with
      | cons first others =>
        obtain ⟨fronts, middle, backs⟩ := ih others (fun e member => before e (by simp [member]))
          fun e member => before' e (by simp [member])
        exact ⟨.cons first fronts, middle, backs⟩

/-- What belongs to two lists one behind the other belongs to each of them in turn. -/
theorem Forall₂.exists_append {α β : Type} {relates : α → β → Prop} {front back : List α}
    {right : List β} (related : Forall₂ relates (front ++ back) right) :
    ∃ first second, right = first ++ second ∧ Forall₂ relates front first ∧
      Forall₂ relates back second := by
  -- The front is taken off one by one.
  induction front generalizing right with
  | nil => exact ⟨[], right, rfl, .nil, related⟩
  | cons a rest ih =>
    cases related with
    | @cons _ b _ others here related =>
      obtain ⟨first, second, rfl, before, behind⟩ := ih related
      exact ⟨b :: first, second, rfl, .cons here before, behind⟩

/-- A relation between lists may be replaced by one that holds of all related members. -/
theorem Forall₂.imp_mem {α β : Type} {relates relates' : α → β → Prop} {left : List α}
    {right : List β} (related : Forall₂ relates left right)
    (imp : ∀ a ∈ left, ∀ b ∈ right, relates a b → relates' a b) :
    Forall₂ relates' left right := by
  -- The members are taken one by one.
  induction related with
  | nil => exact .nil
  | cons here _ ih =>
    refine .cons (imp _ (by simp) _ (by simp) here) (ih fun a inside b inside' => ?_)
    exact imp a (mem_cons_of_mem _ inside) b (mem_cons_of_mem _ inside')

/-- What a relation makes of the left member alone holds of all pairs if it does of all left
members. -/
theorem Forall₂.forall₂_iff {α β : Type} {relates relates' : α → β → Prop} {Holds : α → Prop}
    {left : List α} {right : List β} (related : Forall₂ relates left right)
    (same : ∀ a b, relates a b → (relates' a b ↔ Holds a)) :
    Forall₂ relates' left right ↔ ∀ a ∈ left, Holds a := by
  -- The members are taken one by one.
  induction related with
  | nil => simp
  | cons here _ ih => rw [forall₂_cons, forall_mem_cons, same _ _ here, ih]

/-- Lists whose related members give the same give the same. -/
theorem Forall₂.map_eq {α β γ : Type} {relates : α → β → Prop} {left : List α} {right : List β}
    (related : Forall₂ relates left right) (first : α → γ) (second : β → γ)
    (same : ∀ a ∈ left, ∀ b ∈ right, relates a b → first a = second b) :
    left.map first = right.map second := by
  -- Lists are the same if their members are.
  rw [← forall₂_eq_eq_eq, forall₂_map_left_iff, forall₂_map_right_iff]
  exact related.imp_mem same

/-- A member that is related to its own kind alone is not found more often in the right list. -/
theorem Forall₂.count_le {α : Type} [BEq α] [LawfulBEq α] {relates : α → α → Prop}
    {left right : List α} (related : Forall₂ relates left right) {a : α}
    (only : ∀ b, relates b a → b = a) : right.count a ≤ left.count a := by
  -- Every place where it is found on the right is one on the left.
  induction related with
  | nil => exact Nat.le_refl _
  | @cons b c _ _ here _ ih =>
    rw [count_cons, count_cons]
    by_cases same : c = a
    · have left : b = a := only b (same ▸ here)
      simpa [same, left] using ih
    · simp only [beq_iff_eq, same, if_false]
      omega

/-- Tests that agree on related lists pass at the same positions. -/
theorem Forall₂.findIdxs {α β : Type} {relates : α → β → Prop} {left : List α} {right : List β}
    (related : Forall₂ relates left right) (test : α → Bool) (test' : β → Bool)
    (agree : ∀ a b, relates a b → test a = test' b) (start : Nat) :
    left.findIdxs test start = right.findIdxs test' start := by
  -- The positions are gone through in order.
  induction related generalizing start with
  | nil => rfl
  | @cons a b _ _ here _ ih => rw [findIdxs_cons, findIdxs_cons, agree a b here, ih]

/-- Two images of partners are the same exactly if the lists of these images are. -/
theorem forall₂_and_map {α β γ : Type} {first : α → β} {second : α → γ} {left right : List α} :
    Forall₂ (fun a b => first b = first a ∧ second b = second a) left right ↔
      right.map first = left.map first ∧ right.map second = left.map second := by
  -- The lists are taken member by member.
  induction left generalizing right with
  | nil => simp
  | cons a left ih =>
    cases right with
    | nil => simp
    | cons b right =>
      rw [forall₂_cons, ih, map_cons, map_cons, map_cons, map_cons, cons.injEq, cons.injEq]
      exact and_and_and_comm

/-- Related lists give pairs of a left member with an image of its partner, each beside a mark of
that partner. -/
theorem Forall₂.zip_map {α β γ δ : Type} {relates : α → β → Prop} {left : List α} {right : List β}
    (related : Forall₂ relates left right) {image : β → γ} {mark : β → δ}
    (Holds : α → γ → δ → Prop) (holds : ∀ a b, relates a b → Holds a (image b) (mark b)) :
    Forall₂ (fun pair mark => Holds pair.1 pair.2 mark) (left.zip (right.map image))
      (right.map mark) := by
  -- The members are taken one by one.
  induction related with
  | nil => exact .nil
  | cons here _ ih => exact .cons (holds _ _ here) ih

/-- A change at one position on the right keeps a relation that it keeps for each pair. -/
theorem Forall₂.modify_right {α β : Type} {relates : α → β → Prop} {left : List α} {right : List β}
    (related : Forall₂ relates left right) {change : β → β}
    (kept : ∀ a b, relates a b → relates a (change b)) (index : Nat) :
    Forall₂ relates left (right.modify index change) := by
  -- Every other position stays.
  induction related generalizing index with
  | nil => simp
  | cons here others ih =>
    cases index with
    | zero => exact .cons (kept _ _ here) others
    | succ index => exact .cons here (ih index)

/-- A change at one position is not seen by what it keeps. -/
theorem map_modify {α β : Type} {change : α → α} {image : α → β}
    (kept : ∀ a, image (change a) = image a) (list : List α) (index : Nat) :
    (list.modify index change).map image = list.map image := by
  -- Every other position stays.
  induction list generalizing index with
  | nil => rw [modify_nil]
  | cons a rest ih =>
    cases index with
    | zero => exact congrArg (· :: rest.map image) (kept a)
    | succ index => exact congrArg (image a :: ·) (ih index)

/-- A change at one position keeps what it keeps of each member. -/
theorem forall_mem_modify {α : Type} {change : α → α} {Holds : α → Prop}
    (kept : ∀ a, Holds a → Holds (change a)) {list : List α} (all : ∀ a ∈ list, Holds a)
    (index : Nat) : ∀ a ∈ list.modify index change, Holds a := by
  -- Every other position stays.
  induction list generalizing index with
  | nil => simp
  | cons a rest ih =>
    rw [forall_mem_cons] at all
    cases index with
    | zero => exact forall_mem_cons.2 ⟨kept a all.1, all.2⟩
    | succ index => exact forall_mem_cons.2 ⟨all.1, ih all.2 index⟩

end List
