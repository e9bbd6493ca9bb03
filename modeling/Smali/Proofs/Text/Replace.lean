import Smali.Proofs.Text.Splitting

/-! Replacing all occurrences goes through a text from left to right. -/

namespace Smali.Text

section Replace

variable {old new : Text}

/-- What an occurrence still covers is passed over. -/
theorem replaceFrom_covered (old new : Text) (covered : Nat) (text : Text) :
    replaceFrom old new [] covered text = replace old new (text.drop covered) := by
  -- Each covered character is dropped.
  induction text generalizing covered with
  | nil => cases covered <;> rfl
  | cons c rest ih =>
    cases covered with
    | zero => rfl
    | succ covered =>
      rw [replaceFrom, ih]
      rfl

/-- Nothing is replaced in the empty text. -/
@[simp] theorem replace_nil (old new : Text) : replace old new [] = [] := by
  -- There is no position to look at.
  rfl

/-- An occurrence at the start is replaced. -/
theorem replace_found (nonempty : old ≠ []) (rest : Text) :
    replace old new (old ++ rest) = new ++ replace old new rest := by
  -- The occurrence covers itself.
  obtain ⟨c, others, rfl⟩ := List.exists_cons_of_ne_nil nonempty
  have here : (c :: others).isPrefixOf (c :: (others ++ rest)) :=
    List.isPrefixOf_iff_prefix.2 ⟨rest, rfl⟩
  rw [replace, List.cons_append, replaceFrom, if_pos here, replaceFrom_done, replaceFrom_covered]
  simp

/-- A character at which no occurrence starts is kept. -/
theorem replace_other {c : Char} {rest : Text} (absent : ¬ old <+: c :: rest) :
    replace old new (c :: rest) = c :: replace old new rest := by
  -- The search goes on behind it.
  have here : old.isPrefixOf (c :: rest) = false := by
    rw [← Bool.not_eq_true, List.isPrefixOf_iff_prefix]
    exact absent
  rw [replace, replaceFrom, here, if_neg Bool.false_ne_true, replaceFrom_done]
  rfl

/-- What holds of the empty text, and stays when an occurrence or another character is put in front,
holds of every text. -/
theorem replace_induct {Holds : Text → Prop} (nonempty : old ≠ []) (nil : Holds [])
    (found : ∀ rest, Holds rest → Holds (old ++ rest))
    (other : ∀ c rest, ¬ old <+: c :: rest → Holds rest → Holds (c :: rest)) (text : Text) :
    Holds text := by
  -- Both ways of going on leave a shorter text.
  cases text with
  | nil => exact nil
  | cons c rest =>
    by_cases here : old <+: c :: rest
    · obtain ⟨behind, whole⟩ := here
      have positive := List.length_pos_iff.2 nonempty
      have shorter : behind.length < (c :: rest).length := by
        rw [← whole, List.length_append]
        omega
      rw [← whole]
      exact found behind (replace_induct nonempty nil found other behind)
    · exact other c rest here (replace_induct nonempty nil found other rest)
termination_by text.length
decreasing_by
  · exact shorter
  · exact Nat.lt_succ_self rest.length

/-- No occurrence begins in a front and goes on behind it. -/
def Apart (old front back : Text) : Prop :=
  -- An occurrence would be cut into two nonempty parts.
  ∀ first second, first ≠ [] → second ≠ [] → old = first ++ second →
    ¬ (first <:+ front ∧ second <+: back)

/-- Replacing goes on independently behind a front that no occurrence leaves. -/
theorem replace_append (nonempty : old ≠ []) {front back : Text} (apart : Apart old front back) :
    replace old new (front ++ back) = replace old new front ++ replace old new back := by
  -- An occurrence at the start of the whole text lies in the front.
  induction front using replace_induct nonempty with
  | nil => rfl
  | found rest ih =>
    have later : Apart old rest back := fun first second some some' whole both =>
      apart first second some some' whole ⟨both.1.trans (List.suffix_append old rest), both.2⟩
    rw [List.append_assoc, replace_found nonempty, replace_found nonempty, ih later,
      List.append_assoc]
  | other c rest absent ih =>
    have later : Apart old rest back := fun first second some some' whole both =>
      apart first second some some' whole ⟨both.1.trans (List.suffix_cons c rest), both.2⟩
    -- An occurrence that begins here lies in the front, or it goes over the border.
    have absent' : ¬ old <+: c :: (rest ++ back) := by
      intro here
      -- The front and the occurrence are beginnings of one text.
      have front := List.prefix_append (c :: rest) back
      rcases List.prefix_or_prefix_of_prefix here front with inside | ⟨second, whole⟩
      · exact absent inside
      · by_cases none' : second = []
        · exact absent (by simp [← whole, none'])
        · rw [← whole] at here
          exact apart (c :: rest) second (by simp) none' whole.symm
            ⟨List.suffix_refl _, (List.prefix_append_right_inj _).1 here⟩
    rw [List.cons_append, replace_other absent', replace_other absent, ih later, List.cons_append]

/-- An occurrence does not leave a front whose last character can only be its own last one. -/
theorem apart_of_last {front back : Text} {c : Char} (apart : c ∉ old.dropLast) :
    Apart old (front ++ [c]) back := by
  -- The part in the front would end with that character.
  rintro first second some some' rfl ⟨inside, -⟩
  obtain ⟨before, last, rfl⟩ := (List.eq_nil_or_concat first).resolve_left some
  obtain ⟨next, rest, rfl⟩ := List.exists_cons_of_ne_nil some'
  have same : last = c := by
    obtain ⟨others, whole⟩ := inside
    rw [List.concat_eq_append, ← List.append_assoc] at whole
    exact (List.append_inj' whole rfl).2 |> List.singleton_inj.1
  refine apart ?_
  rw [← same, List.dropLast_append_of_ne_nil (by simp)]
  simp

/-- An occurrence does not leave a front that is followed by a character which is not its own. -/
theorem apart_of_next {front back : Text} {c : Char} (apart : c ∉ old) :
    Apart old front (c :: back) := by
  -- The part behind the front would begin with that character.
  rintro first second some some' rfl ⟨-, behind⟩
  obtain ⟨next, rest, rfl⟩ := List.exists_cons_of_ne_nil some'
  obtain ⟨others, whole⟩ := behind
  rw [List.cons_append, List.cons.injEq] at whole
  exact apart (by simp [whole.1])

/-- A character that no occurrence has is kept, and parts what is replaced. -/
theorem replace_append_cons (nonempty : old ≠ []) {c : Char} (apart : c ∉ old)
    (front back : Text) :
    replace old new (front ++ c :: back) =
      replace old new front ++ c :: replace old new back := by
  -- No occurrence starts at it either.
  have absent : ¬ old <+: c :: back := by
    obtain ⟨first, rest, rfl⟩ := List.exists_cons_of_ne_nil nonempty
    rintro ⟨others, whole⟩
    rw [List.cons_append, List.cons.injEq] at whole
    exact apart (by simp [whole.1])
  rw [replace_append nonempty (apart_of_next apart), replace_other absent]

/-- Replacing a text by itself changes nothing. -/
theorem replace_same {same : Text} (nonempty : same ≠ []) (text : Text) :
    replace same same text = text := by
  -- Each occurrence is put back.
  induction text using replace_induct nonempty with
  | nil => exact replace_nil same same
  | found rest ih => rw [replace_found nonempty, ih]
  | other c rest absent ih => rw [replace_other absent, ih]

/-- A text that misses a character of an occurrence is kept. -/
theorem replace_eq_self {c : Char} (member : c ∈ old) {text : Text} (missing : c ∉ text) :
    replace old new text = text := by
  -- No occurrence starts anywhere.
  induction text with
  | nil => rfl
  | cons first rest ih =>
    have absent : ¬ old <+: first :: rest := fun inside => missing (inside.subset member)
    rw [replace_other absent, ih fun inside => missing (List.mem_cons_of_mem _ inside)]

/-- A text without an occurrence is kept. -/
theorem replace_absent {text : Text} (nonempty : old ≠ []) (absent : ¬ old <:+: text) :
    replace old new text = text := by
  -- No occurrence starts anywhere.
  induction text using replace_induct nonempty with
  | nil => rfl
  | found rest ih => exact absurd (List.prefix_append old rest).isInfix absent
  | other c rest here ih =>
    rw [replace_other here, ih fun later => absent (later.trans (List.suffix_cons c rest).isInfix)]

/-- A text with an occurrence gets what replaces it. -/
theorem infix_replace {text : Text} (nonempty : old ≠ []) (held : old <:+: text) :
    new <:+: replace old new text := by
  -- The first occurrence is replaced.
  induction text using replace_induct nonempty with
  | nil => exact absurd (List.infix_nil.1 held) nonempty
  | found rest ih =>
    rw [replace_found nonempty]
    exact (List.prefix_append new _).isInfix
  | other c rest absent ih =>
    rw [replace_other absent]
    exact (ih ((List.infix_cons_iff.1 held).resolve_left absent)).trans
      (List.suffix_cons c _).isInfix

/-- All characters come from the text or from what replaces the occurrences. -/
theorem mem_of_mem_replace {text : Text} (nonempty : old ≠ []) {c : Char}
    (member : c ∈ replace old new text) : c ∈ text ∨ c ∈ new := by
  -- Characters outside the occurrences are kept.
  induction text using replace_induct nonempty with
  | nil => cases member
  | found rest ih =>
    rw [replace_found nonempty, List.mem_append] at member
    rcases member with here | later
    · exact .inr here
    · exact (ih later).imp_left (List.mem_append_right old)
  | other d rest absent ih =>
    rw [replace_other absent, List.mem_cons] at member
    rcases member with rfl | later
    · exact .inl (by simp)
    · exact (ih later).imp_left (List.mem_cons_of_mem d)

end Replace

section SameHead

variable {old new : Text} {first : Char}

/-- The first character of a text stays if the occurrences keep theirs. -/
theorem head?_replace (head : old.head? = some first) (head' : new.head? = some first)
    (text : Text) : (replace old new text).head? = text.head? := by
  -- The text begins with an occurrence or with another character.
  have nonempty : old ≠ [] := by
    rintro rfl
    cases head
  induction text using replace_induct nonempty with
  | nil => rfl
  | found rest ih =>
    rw [replace_found nonempty, List.head?_append, List.head?_append, head, head']
    rfl
  | other c rest absent ih =>
    rw [replace_other absent]
    rfl

/-- A character that begins no occurrence is kept. -/
theorem replace_cons (head : old.head? = some first) {c : Char} (other : c ≠ first)
    (rest : Text) : replace old new (c :: rest) = c :: replace old new rest := by
  -- Every occurrence begins with the first character.
  refine replace_other fun beginning => other ?_
  obtain ⟨others, rfl⟩ := List.head?_eq_some_iff.1 head
  rw [List.cons_prefix_cons] at beginning
  exact beginning.1.symm

/-- What follows a beginning in which no occurrence starts becomes what follows it afterwards. -/
theorem afterPrefix?_replace (head : old.head? = some first) (head' : new.head? = some first)
    {beginning : Text} (absent : first ∉ beginning) (text : Text) :
    afterPrefix? beginning (replace old new text) =
      (afterPrefix? beginning text).map (replace old new) := by
  -- The beginning is compared character by character.
  induction beginning generalizing text with
  | nil => simp [afterPrefix?]
  | cons c rest ih =>
    cases text with
    | nil => simp [afterPrefix?]
    | cons d behind =>
      obtain ⟨others, same⟩ : ∃ others, replace old new (d :: behind) = d :: others :=
        List.head?_eq_some_iff.1 (head?_replace head head' (d :: behind))
      by_cases here : c = d
      · have other : d ≠ first := fun same => absent (by simp [here, same])
        rw [replace_cons head other, afterPrefix?_cons, afterPrefix?_cons, if_pos here,
          if_pos here]
        exact ih (fun member => absent (by simp [member])) behind
      · rw [same, afterPrefix?_cons, afterPrefix?_cons, if_neg here, if_neg here]
        rfl

/-- A beginning in which no occurrence starts stays, and does not come from anything else. -/
theorem prefix_replace (head : old.head? = some first) (head' : new.head? = some first)
    {beginning : Text} (absent : first ∉ beginning) (text : Text) :
    beginning <+: replace old new text ↔ beginning <+: text := by
  -- Something follows it in both cases or in neither.
  have follows (text : Text) : beginning <+: text ↔ (afterPrefix? beginning text).isSome := by
    rw [afterPrefix?, ← List.isPrefixOf_iff_prefix]
    split <;> simp_all
  rw [follows, follows, afterPrefix?_replace head head' absent, Option.isSome_map]

/-- A separator that neither occurrences nor what replaces them have to do with splits a text into
what its parts become. -/
theorem splitOnce_replace (head : old.head? = some first) (head' : new.head? = some first)
    {separator : Text} (absent : first ∉ separator) (passes : Passes separator old)
    (passes' : Passes separator new) (text : Text) :
    splitOnce separator (replace old new text) =
      (splitOnce separator text).map (Prod.map (replace old new) (replace old new)) := by
  -- The separator neither begins in an occurrence nor goes into one.
  have nonempty : old ≠ [] := by
    rintro rfl
    cases head
  induction text using replace_induct nonempty with
  | nil => cases separator <;> rfl
  -- The occurrence is passed by the search, as its replacement is.
  | found rest ih =>
    rw [replace_found nonempty, passes', passes, ih, Option.map_map, Option.map_map]
    refine congrArg (fun image => Option.map image (splitOnce separator rest)) ?_
    funext ⟨before, after⟩
    simp [replace_found nonempty]
  | other d rest absent' ih =>
    have kept := afterPrefix?_replace head head' absent (d :: rest)
    rw [replace_other absent'] at kept ⊢
    rw [splitOnce_cons, splitOnce_cons, kept, ih]
    cases afterPrefix? separator (d :: rest) with
    | some behind => rfl
    | none =>
      cases split : splitOnce separator rest with
      | none => rfl
      | some parts =>
        obtain ⟨before, after⟩ := parts
        -- No occurrence begins in the part before the separator either.
        have beginning : d :: before <+: d :: rest := by
          rw [eq_of_splitOnce split, List.append_assoc]
          exact List.prefix_append (d :: before) _
        have inside : ¬ old <+: d :: before := fun inside => absent' (inside.trans beginning)
        simp [replace_other inside]

end SameHead

end Smali.Text
