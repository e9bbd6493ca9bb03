import Mathlib.Data.List.Basic
import Smali.Proofs.Rename.Plain

/-! A plain descriptor occurs only at a semicolon, and the semicolons part what is replaced. -/

namespace Smali

namespace Descriptor.IsPlain

variable {descriptor front back : Text}

/-- A plain descriptor is what stands before its semicolon, and the semicolon. -/
theorem exists_front (plain : IsPlain descriptor) :
    ∃ front, descriptor = front ++ [';'] ∧ ';' ∉ front := by
  -- There is no other semicolon in it.
  have front := plain.semicolon_not_mem
  obtain ⟨name, rfl, -⟩ := plain
  exact ⟨'L' :: name, rfl, by rwa [List.dropLast_concat] at front⟩

/-- A text without a semicolon has no plain descriptor in it. -/
theorem not_infix (plain : IsPlain descriptor) (open' : ';' ∉ front) :
    ¬ descriptor <:+: front := by
  -- The text would hold the semicolon of the descriptor.
  intro inside
  exact open' (inside.subset (List.mem_of_getLast? plain.getLast?_eq))

/-- A text begins with a plain descriptor only if that ends with its first semicolon. -/
theorem prefix_semicolon (plain : IsPlain descriptor) (open' : ';' ∉ front) (back : Text) :
    descriptor <+: front ++ ';' :: back ↔ descriptor = front ++ [';'] := by
  -- The first semicolon of the text is that of the descriptor.
  obtain ⟨own, rfl, ownOpen⟩ := plain.exists_front
  constructor
  · rintro ⟨behind, whole⟩
    rw [List.append_assoc, List.singleton_append] at whole
    have places := congrArg (List.idxOf ';') whole
    rw [List.idxOf_append_of_notMem ownOpen, List.idxOf_append_of_notMem open',
      List.idxOf_cons_self, List.idxOf_cons_self] at places
    rw [List.append_inj_left whole places]
  · intro same
    exact ⟨back, by rw [same, List.append_assoc, List.singleton_append]⟩

/-- A plain descriptor in a text ends with the first semicolon or stands behind it. -/
theorem infix_semicolon (plain : IsPlain descriptor) (open' : ';' ∉ front) :
    descriptor <:+: front ++ ';' :: back ↔
      descriptor <:+ front ++ [';'] ∨ descriptor <:+: back := by
  -- It starts with the first character or behind it.
  induction front with
  | nil =>
    rw [List.nil_append, List.infix_cons_iff, List.nil_append, List.suffix_cons_iff,
      List.suffix_nil]
    have start := plain.prefix_semicolon (show ';' ∉ [] by simp) back
    simp only [List.nil_append] at start
    simp only [start, plain.ne_nil, or_false]
  | cons c rest ih =>
    have start := plain.prefix_semicolon open' back
    rw [List.mem_cons, not_or] at open'
    simp only [List.cons_append] at start ⊢
    rw [List.infix_cons_iff, start, ih open'.2, List.suffix_cons_iff, or_assoc]

/-- The same holds where the first semicolon is that of another plain descriptor. -/
theorem infix_append {between : Text} (plain : IsPlain descriptor) (other : IsPlain between)
    (open' : ';' ∉ front) : descriptor <:+: front ++ between ++ back ↔
      descriptor <:+ front ++ between ∨ descriptor <:+: back := by
  -- What stands before that semicolon holds no other one.
  obtain ⟨own, same, ownOpen⟩ := other.exists_front
  have clean : ';' ∉ front ++ own := by
    intro member
    exact (List.mem_append.1 member).elim open' ownOpen
  have whole : front ++ between = (front ++ own) ++ [';'] := by rw [same, List.append_assoc]
  have parted : front ++ between ++ back = (front ++ own) ++ ';' :: back := by
    rw [whole, List.append_assoc, List.singleton_append]
  rw [parted, plain.infix_semicolon clean, ← whole]

end Descriptor.IsPlain

open Descriptor (IsPlain)

namespace Renames

variable {old new : Text}

/-- The names can be taken back. -/
theorem symm (renames : Renames old new) : Renames new old :=
  -- Both descriptors are plain.
  ⟨renames.new, renames.old⟩

/-- A text is without semicolons, or its first semicolon ends the old descriptor, or it does not,
and what holds in each case of more than what is behind the semicolon holds of every text. -/
theorem semicolon_induct (renames : Renames old new) {Holds : Text → Prop}
    (open' : ∀ text, ';' ∉ text → Holds text)
    (ends : ∀ lead back, ';' ∉ lead → Holds back → Holds (lead ++ old ++ back))
    (other : ∀ front back, ';' ∉ front → ¬ old <:+ front ++ [';'] → Holds back →
      Holds (front ++ ';' :: back)) (text : Text) : Holds text := by
  -- What is behind the first semicolon is shorter.
  by_cases held : ';' ∈ text
  case neg => exact open' text held
  case pos =>
    obtain ⟨front, back, parted, first⟩ := List.eq_append_cons_of_mem held
    have shorter : back.length < text.length := by
      rw [parted, List.length_append, List.length_cons]
      omega
    have later := renames.semicolon_induct open' ends other back
    -- A descriptor has one semicolon alone, so that it begins in the front if it ends here.
    by_cases suffix' : old <:+ front ++ [';']
    · obtain ⟨lead, whole⟩ := suffix'
      have clean : ';' ∉ lead := by
        obtain ⟨own, same, -⟩ := renames.old.exists_front
        rw [same, ← List.append_assoc] at whole
        have parts : lead ++ own = front := List.append_inj_left' whole rfl
        exact fun member => first (by rw [← parts]; simp [member])
      have parted' : text = lead ++ old ++ back := by
        rw [whole, parted, List.append_assoc, List.singleton_append]
      rw [parted']
      exact ends lead back clean later
    · rw [parted]
      exact other front back first suffix' later
termination_by text.length

/-- The old descriptor is replaced at the first semicolon, if it ends there. -/
theorem replace_ends (renames : Renames old new) {lead : Text} (open' : ';' ∉ lead) (back : Text) :
    Text.replace old new (lead ++ old ++ back) = lead ++ new ++ Text.replace old new back := by
  -- It does not begin earlier, because there is no semicolon before.
  induction lead with
  | nil => exact Text.replace_found renames.old.ne_nil back
  | cons c rest ih =>
    have behind := ih fun member => open' (List.mem_cons_of_mem c member)
    have absent : ¬ old <+: c :: (rest ++ old ++ back) := by
      obtain ⟨own, same, ownOpen⟩ := renames.old.exists_front
      have clean : ';' ∉ (c :: rest) ++ own := by
        intro member
        exact (List.mem_append.1 member).elim open' ownOpen
      have parted : c :: (rest ++ old ++ back) = ((c :: rest) ++ own) ++ ';' :: back := by
        rw [same]
        simp only [List.cons_append, List.append_assoc, List.nil_append]
      -- Any occurrence ends at the first semicolon, but the one that begins here would be too long.
      rw [parted, renames.old.prefix_semicolon clean]
      intro whole
      have lengths := congrArg List.length whole
      rw [same] at lengths
      simp only [List.length_append, List.length_cons, List.length_nil] at lengths
      omega
    rw [List.cons_append, List.cons_append, Text.replace_other absent, behind]
    rfl

/-- A first semicolon at which the old descriptor does not end is kept with what stands before. -/
theorem replace_kept (renames : Renames old new) {front : Text} (open' : ';' ∉ front)
    (other : ¬ old <:+ front ++ [';']) (back : Text) :
    Text.replace old new (front ++ ';' :: back) = front ++ ';' :: Text.replace old new back := by
  -- No occurrence ends there, and none ends earlier.
  have absent : ¬ old <:+: front ++ [';'] := by
    rw [renames.old.infix_semicolon open']
    rintro (ends | inside)
    · exact other ends
    · exact renames.old.ne_nil (List.infix_nil.1 inside)
  rw [renames.replace_semicolon, Text.replace_absent renames.old.ne_nil absent,
    List.append_assoc, List.singleton_append]

/-- In a plain descriptor the old one can only be replaced at the end. -/
theorem replace_suffix (renames : Renames old new) {lead : Text} (plain : IsPlain (lead ++ old)) :
    Text.replace old new (lead ++ old) = lead ++ new := by
  -- There is no semicolon before that of the old descriptor.
  have open' : ';' ∉ lead := by
    intro member
    refine plain.semicolon_not_mem ?_
    rw [List.dropLast_append_of_ne_nil renames.old.ne_nil]
    exact List.mem_append_left _ member
  have whole := renames.replace_ends open' []
  rwa [List.append_nil, Text.replace_nil, List.append_nil] at whole

/-- A plain descriptor that does not end with the old one is kept. -/
theorem replace_plain (renames : Renames old new) {descriptor : Text} (plain : IsPlain descriptor)
    (other : ¬ old <:+ descriptor) : Text.replace old new descriptor = descriptor := by
  -- Its only semicolon is not that of the old descriptor.
  obtain ⟨front, rfl, open'⟩ := plain.exists_front
  exact renames.replace_kept open' other []

/-- The new descriptor is plain behind whatever the old one was plain behind. -/
theorem plain_behind (renames : Renames old new) {lead : Text} (plain : IsPlain (lead ++ old)) :
    IsPlain (lead ++ new) := by
  -- What stands before it belongs to the name then.
  cases lead with
  | nil => exact renames.new
  | cons c front =>
    obtain ⟨name, whole, -, solid⟩ := plain
    obtain ⟨ownName, rfl, -, -⟩ := renames.old
    obtain ⟨newName, rfl, -, solid'⟩ := renames.new
    obtain ⟨rfl, parts⟩ : c = 'L' ∧ front ++ 'L' :: ownName = name := by
      rw [← List.append_assoc] at whole
      exact List.cons.inj (List.append_inj_left' whole rfl)
    refine ⟨front ++ 'L' :: newName, by simp, by simp, fun d member => ?_⟩
    rcases List.mem_append.1 member with inside | inside
    · exact solid d (parts ▸ List.mem_append_left _ inside)
    · rcases List.mem_cons.1 inside with rfl | inside
      · exact ⟨by decide, by decide⟩
      · exact solid' d inside

/-- A plain descriptor becomes a plain one. -/
theorem isPlain_replace (renames : Renames old new) {descriptor : Text}
    (plain : IsPlain descriptor) : IsPlain (Text.replace old new descriptor) := by
  -- Only its end can be replaced.
  by_cases ends : old <:+ descriptor
  · obtain ⟨lead, rfl⟩ := ends
    rw [renames.replace_suffix plain]
    exact renames.plain_behind plain
  · rwa [renames.replace_plain plain ends]

/-- The old class is not left in a text, if neither descriptor ends the other. -/
theorem not_infix_replace (renames : Renames old new) (notOld : ¬ old <:+ new)
    (notNew : ¬ new <:+ old) (text : Text) : ¬ old <:+: Text.replace old new text := by
  -- The induction is on the semicolons, and an occurrence could only end with one of them.
  induction text using renames.semicolon_induct with
  | open' text clean =>
    have absent := renames.old.not_infix clean
    rwa [Text.replace_absent renames.old.ne_nil absent]
  | ends lead back clean ih =>
    rw [renames.replace_ends clean, renames.old.infix_append renames.new clean]
    rintro (ends | inside)
    · exact (List.suffix_or_suffix_of_suffix ends (List.suffix_append lead new)).elim notOld notNew
    · exact ih inside
  | other front back clean kept ih =>
    rw [renames.replace_kept clean kept, renames.old.infix_semicolon clean]
    exact not_or.2 ⟨kept, ih⟩

/-- The new class is then in exactly the texts that held one of both. -/
theorem infix_replace (renames : Renames old new) (text : Text) :
    new <:+: Text.replace old new text ↔ old <:+: text ∨ new <:+: text := by
  -- No occurrence of the new descriptor goes, and none comes where the old one was not.
  induction text using renames.semicolon_induct with
  | open' text clean =>
    have absent := renames.old.not_infix clean
    rw [Text.replace_absent renames.old.ne_nil absent]
    exact (or_iff_right absent).symm
  | ends lead back clean ih =>
    rw [renames.replace_ends clean]
    have after : new <:+: lead ++ new ++ Text.replace old new back := List.infix_append _ _ _
    have before : old <:+: lead ++ old ++ back := List.infix_append _ _ _
    exact iff_of_true after (.inl before)
  | other front back clean kept ih =>
    rw [renames.replace_kept clean kept, renames.new.infix_semicolon clean,
      renames.new.infix_semicolon clean, renames.old.infix_semicolon clean, ih]
    tauto

/-- The new class can become the old one again where it was not there before. -/
theorem replace_replace (renames : Renames old new) {text : Text} (absent : ¬ new <:+: text) :
    Text.replace new old (Text.replace old new text) = text := by
  -- Both go through the same semicolons, and the new descriptor ends only where the old one did.
  have back' : Renames new old := renames.symm
  induction text using renames.semicolon_induct with
  | open' text clean =>
    rw [Text.replace_absent renames.old.ne_nil (renames.old.not_infix clean),
      Text.replace_absent renames.new.ne_nil absent]
  | ends lead back clean ih =>
    have absent' : ¬ new <:+: back := fun inside =>
      absent (inside.trans (List.suffix_append _ _).isInfix)
    rw [renames.replace_ends clean, back'.replace_ends clean, ih absent']
  | other front back clean kept ih =>
    rw [renames.new.infix_semicolon clean, not_or] at absent
    rw [renames.replace_kept clean kept, back'.replace_kept clean absent.1, ih absent.2]

end Renames

end Smali
