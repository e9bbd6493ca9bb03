import Smali.Proofs.Attempt
import Smali.Proofs.Descriptor
import Smali.Proofs.Rename.Parts

/-! The types of a text become types one by one when one class is replaced by another. -/

namespace Smali

open Descriptor (isNameChar isPrimitive splitType splitTypes splitReturn)

namespace Descriptor

/-- The name in a plain descriptor can be the name in a class type. -/
theorem IsPlain.exists_name {descriptor : Text} (plain : IsPlain descriptor) :
    ∃ name, descriptor = 'L' :: name ++ [';'] ∧ name ≠ [] ∧ ∀ c ∈ name, isNameChar c := by
  -- A line feed is a mark.
  obtain ⟨name, rfl, nonempty, solid⟩ := plain
  refine ⟨name, rfl, nonempty, fun c member => ?_⟩
  obtain ⟨noMark, noEnd⟩ := solid c member
  have feed : c ≠ '\n' := fun same => absurd noMark (by rw [same]; decide)
  simp [isNameChar, noEnd, feed]

end Descriptor

namespace Renames

variable {old new : Text}

/-- A text up to its only semicolon ends with the old descriptor or stays. -/
theorem replace_closed (renames : Renames old new) {front : Text} (solid : ';' ∉ front) :
    Text.replace old new (front ++ [';']) = front ++ [';'] ∨
      ∃ kept, front ++ [';'] = kept ++ old ∧
        Text.replace old new (front ++ [';']) = kept ++ new := by
  -- An occurrence has its semicolon at the end.
  induction front with
  | nil => exact .inl (renames.replace_cons (by decide) [])
  | cons c rest ih =>
    by_cases here : old <+: c :: rest ++ [';']
    · obtain ⟨behind, whole⟩ := here
      -- Nothing stands behind the semicolon.
      have nothing : behind = [] := by
        by_contra some'
        obtain ⟨before, last, rfl⟩ := (List.eq_nil_or_concat behind).resolve_left some'
        rw [List.concat_eq_append, ← List.append_assoc] at whole
        have front := (List.append_inj' whole rfl).1
        refine solid ?_
        rw [← front]
        exact List.mem_append_left _ (List.mem_of_getLast? renames.old.getLast?_eq)
      refine .inr ⟨[], ?_, ?_⟩
      · rw [← whole, nothing, List.append_nil]
        rfl
      · rw [← whole, Text.replace_found renames.old.ne_nil, nothing]
        simp
    · -- The occurrence, if any, begins later.
      rw [List.cons_append] at here ⊢
      rw [Text.replace_other here]
      rcases ih fun member => solid (by simp [member]) with same | ⟨kept, whole, made⟩
      · exact .inl (by rw [same])
      · exact .inr ⟨c :: kept, by rw [whole]; rfl, by rw [made]; rfl⟩

/-- A class type becomes a class type. -/
theorem exists_replace_class (renames : Renames old new) {name : Text}
    (solid : ∀ c ∈ name, isNameChar c) :
    ∃ name', Text.replace old new ('L' :: name ++ [';']) = 'L' :: name' ++ [';'] ∧
      name'.isEmpty = name.isEmpty ∧ ∀ c ∈ name', isNameChar c := by
  -- The old descriptor can only be at its end.
  have noEnd : ';' ∉ 'L' :: name := by
    intro member
    rcases List.mem_cons.1 member with absurd' | member
    · exact absurd absurd' (by decide)
    · exact absurd (solid _ member) (by decide)
  rcases renames.replace_closed noEnd with same | ⟨kept, whole, made⟩
  · -- The name behind the last mark is the old one.
    exact ⟨name, same, rfl, solid⟩
  · obtain ⟨oldName, rfl, oldSome, -⟩ := renames.old.exists_name
    obtain ⟨newName, rfl, newSome, newSolid⟩ := renames.new.exists_name
    have parts : 'L' :: name = kept ++ 'L' :: oldName := by
      rw [← List.append_assoc] at whole
      exact (List.append_inj' whole rfl).1
    cases kept with
    | nil =>
      have names : name = oldName := by simpa using parts
      refine ⟨newName, by rw [made]; rfl, ?_, newSolid⟩
      rw [names, List.isEmpty_eq_false_iff.2 oldSome, List.isEmpty_eq_false_iff.2 newSome]
    -- The occurrence is in the middle of the name, which goes on with the new name.
    | cons c kept =>
      rw [List.cons_append, List.cons.injEq] at parts
      obtain ⟨rfl, rfl⟩ := parts
      refine ⟨kept ++ 'L' :: newName, by rw [made]; simp, ?_, fun c member => ?_⟩
      · cases kept <;> rfl
      · simp only [List.mem_append, List.mem_cons] at member
        rcases member with member | rfl | member
        · exact solid c (by simp [member])
        · decide
        · exact newSolid c member

/-- A class type at the start of a text becomes that of what the text becomes. -/
theorem splitType_replace_class (renames : Renames old new) (rest : Text) :
    splitType (Text.replace old new ('L' :: rest)) =
      (splitType ('L' :: rest)).map (Prod.map (Text.replace old new) (Text.replace old new)) := by
  -- The type goes up to its semicolon, if that comes before any mark.
  have whole := List.takeWhile_append_dropWhile (p := isNameChar) (l := rest)
  have solid : ∀ d ∈ rest.takeWhile isNameChar, isNameChar d := fun d =>
    List.all_eq_true.1 List.all_takeWhile d
  generalize rest.takeWhile isNameChar = name at whole solid
  -- Without its semicolon the name holds no descriptor.
  have kept : Text.replace old new ('L' :: name) = 'L' :: name := by
    refine Text.replace_eq_self (List.mem_of_getLast? renames.old.getLast?_eq) fun member => ?_
    rcases List.mem_cons.1 member with first | later
    · exact absurd first (by decide)
    · exact absurd (solid _ later) (by decide)
  have stopped := List.head?_dropWhile_not isNameChar rest
  cases behind : rest.dropWhile isNameChar with
  | nil =>
    have none' : splitType ('L' :: name) = none := by
      rw [← List.append_nil name]
      exact Descriptor.splitType_open solid (by simp)
    rw [← whole, behind, List.append_nil, kept, none']
    rfl
  | cons d behind' =>
    rw [behind] at whole stopped
    -- The run of name characters ends at a semicolon or at a line feed.
    have final : d = ';' ∨ d = '\n' := by
      simpa [isNameChar, ← or_iff_not_imp_left] using stopped
    rcases final with rfl | rfl
    · obtain ⟨name', made, sameEmpty, solid'⟩ := renames.exists_replace_class solid
      have parted : Text.replace old new ('L' :: rest) =
          'L' :: name' ++ ';' :: Text.replace old new behind' := by
        rw [← whole, ← List.cons_append, renames.replace_semicolon, made]
        simp
      rw [parted, Descriptor.splitType_class solid', ← whole, ← List.cons_append,
        Descriptor.splitType_class solid, sameEmpty]
      split
      · rfl
      · rw [Option.map_some, Prod.map_apply, made]
    · -- A line feed leaves the type open in both texts.
      have parted : Text.replace old new ('L' :: rest) =
          'L' :: name ++ '\n' :: Text.replace old new behind' := by
        rw [← whole, ← List.cons_append, renames.replace_mark (by decide), kept]
      rw [parted, Descriptor.splitType_open solid (by simp), ← whole, ← List.cons_append,
        Descriptor.splitType_open solid (by simp)]
      rfl

/-- A type at the start of a text becomes the type at the start of what the text becomes. -/
theorem splitType_replace (renames : Renames old new) (text : Text) :
    splitType (Text.replace old new text) =
      (splitType text).map (Prod.map (Text.replace old new) (Text.replace old new)) := by
  -- Brackets and primitive letters stay.
  induction text with
  | nil => rfl
  | cons c rest ih =>
    by_cases letter : c = 'L'
    · subst letter
      exact renames.splitType_replace_class rest
    · rw [renames.replace_cons letter, splitType, splitType]
      by_cases bracket : c = '['
      · rw [if_pos bracket, if_pos bracket, ih, Option.map_map, Option.map_map]
        refine congrArg (fun image => Option.map image (splitType rest)) ?_
        funext parts
        obtain ⟨element, behind⟩ := parts
        simp [renames.replace_cons letter]
      · rw [if_neg bracket, if_neg bracket, if_neg letter, if_neg letter]
        split
        · simp [renames.replace_cons letter]
        · rfl

/-- The types at the start of a text become those of what the text becomes, one for each. -/
theorem splitTypes_replace (renames : Renames old new) (text : Text) :
    splitTypes (Text.replace old new text) =
      ((splitTypes text).1.map (Text.replace old new),
        Text.replace old new (splitTypes text).2) := by
  -- The first type goes before those behind it.
  rw [Descriptor.splitTypes_eq, Descriptor.splitTypes_eq text, renames.splitType_replace]
  cases taken : splitType text with
  | none => rfl
  | some parts =>
    obtain ⟨first, behind⟩ := parts
    have shorter := Descriptor.splitType_length taken
    simp only [Option.map_some, Prod.map_apply, renames.splitTypes_replace behind, List.map_cons]
termination_by text.length

/-- A return type at the start of a text becomes the one of what the text becomes. -/
theorem splitReturn_replace (renames : Renames old new) (text : Text) :
    splitReturn (Text.replace old new text) =
      (splitReturn text).map (Prod.map (Text.replace old new) (Text.replace old new)) := by
  -- The letter for the absence of a value stays.
  cases text with
  | nil => rfl
  | cons c rest =>
    by_cases void : c = 'V'
    · subst void
      rw [renames.replace_cons (by decide)]
      simp [splitReturn, renames.replace_cons]
    · obtain ⟨others, same⟩ : ∃ others, Text.replace old new (c :: rest) = c :: others :=
        List.head?_eq_some_iff.1 (renames.head?_replace (c :: rest))
      have other (text : Text) : splitReturn (c :: text) = splitType (c :: text) := by
        unfold splitReturn
        split
        · next found => exact absurd (List.cons.inj found).1 void
        · rfl
      rw [same, other, other, ← same]
      exact renames.splitType_replace (c :: rest)

/-- A text is a type if and only if what it becomes is one. -/
theorem isType_replace (renames : Renames old new) (text : Text) :
    Descriptor.isType (Text.replace old new text) = Descriptor.isType text := by
  -- Nothing is left over in both cases.
  unfold Descriptor.isType
  rw [renames.splitType_replace]
  cases splitType text with
  | none => rfl
  | some parts =>
    obtain ⟨taken, behind⟩ := parts
    cases behind with
    | nil => rfl
    | cons c rest =>
      have some' : Text.replace old new (c :: rest) ≠ [] := by simp [renames.replace_eq_nil]
      obtain ⟨d, others, same⟩ := List.exists_cons_of_ne_nil some'
      simp [same]

/-- A run of parameters is taken apart alike, type by type. -/
theorem segment_replace (renames : Renames old new) (run : Text) :
    Alike (fun types renamed => renamed = types.map (Text.replace old new))
      (Descriptor.segment run) (Descriptor.segment (Text.replace old new run)) := by
  -- The whole run is used in both cases or in neither.
  unfold Descriptor.segment
  rw [renames.splitTypes_replace]
  obtain ⟨types, rest⟩ := splitTypes run
  cases rest with
  | nil => exact .done rfl
  | cons c others =>
    have some' : Text.replace old new (c :: others) ≠ [] := by simp [renames.replace_eq_nil]
    obtain ⟨d, others', same⟩ := List.exists_cons_of_ne_nil some'
    simp only [same]
    exact .refused _ _

end Renames

end Smali
