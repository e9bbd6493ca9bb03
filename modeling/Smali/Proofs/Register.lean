import Smali.Proofs.Text.Rewording
import Smali.Register

/-! Registers are read from the start of a text without looking at a hyphen that comes later. -/

namespace Smali

namespace Text

/-- A run that a hyphen ends is the same in front of the hyphen. -/
theorem takeWhile_hyphen {passes : Char → Bool} (stops : passes '-' = false) (text rest : Text) :
    (text ++ '-' :: rest).takeWhile passes = text.takeWhile passes := by
  -- The run cannot go on behind the text.
  induction text with
  | nil => simp [stops]
  | cons c text ih => by_cases here : passes c <;> simp [here, ih]

/-- What is behind a run that a hyphen ends has the hyphen in it. -/
theorem dropWhile_hyphen {passes : Char → Bool} (stops : passes '-' = false) (text rest : Text) :
    (text ++ '-' :: rest).dropWhile passes = text.dropWhile passes ++ '-' :: rest := by
  -- The run cannot go on behind the text.
  induction text with
  | nil => simp [stops]
  | cons c text ih => by_cases here : passes c <;> simp [here, ih]

/-- Spaces are skipped alike in front of a hyphen. -/
theorem skipSpaces_hyphen (text rest : Text) :
    skipSpaces (text ++ '-' :: rest) = skipSpaces text ++ '-' :: rest := by
  -- The hyphen is no space.
  exact dropWhile_hyphen (by decide) text rest

/-- Blanks are trimmed alike in front of a hyphen. -/
theorem trimStart_hyphen (text rest : Text) :
    trimStart (text ++ '-' :: rest) = trimStart text ++ '-' :: rest := by
  -- The hyphen is not blank.
  exact dropWhile_hyphen (by decide) text rest

/-- A part of a text is reached from its start without passing a sign. -/
def Reaches (text behind : Text) : Prop :=
  -- What is passed is without signs.
  ∃ front, Unsigned front ∧ text = front ++ behind

namespace Reaches

variable {text between behind : Text}

/-- Nothing needs to be passed. -/
theorem refl (text : Text) : Reaches text text := by
  -- The empty text is without signs.
  exact ⟨[], by decide, rfl⟩

/-- What is reached from a part that is reached is reached. -/
theorem trans (first : Reaches text between) (second : Reaches between behind) :
    Reaches text behind := by
  -- Both fronts are passed.
  obtain ⟨front, unsigned, rfl⟩ := first
  obtain ⟨front', unsigned', rfl⟩ := second
  exact ⟨front ++ front', unsigned.append unsigned', by rw [List.append_assoc]⟩

/-- A character that is no sign may be passed. -/
theorem cons {c : Char} (colon : c ≠ ':') (bracket : c ≠ '(') (text : Text) :
    Reaches (c :: text) text := by
  -- It is all that is passed.
  exact ⟨[c], by simp [Unsigned, Ne.symm colon, Ne.symm bracket], rfl⟩

/-- A run without signs may be passed. -/
theorem dropWhile {passes : Char → Bool} (colon : passes ':' = false)
    (bracket : passes '(' = false) (text : Text) : Reaches text (text.dropWhile passes) := by
  -- All characters of the run pass.
  refine ⟨text.takeWhile passes, ⟨fun member => ?_, fun member => ?_⟩,
    List.takeWhile_append_dropWhile.symm⟩
  · simpa [colon] using List.mem_takeWhile_imp member
  · simpa [bracket] using List.mem_takeWhile_imp member

/-- Spaces may be passed. -/
theorem skipSpaces (text : Text) : Reaches text (Text.skipSpaces text) := by
  -- No sign is a space.
  exact dropWhile (by decide) (by decide) text

end Reaches

end Text

open Text (Reaches)

namespace Register

/-- A register is read alike in front of a hyphen. -/
theorem split_hyphen (text rest : Text) : split (text ++ '-' :: rest) =
    (split text).map fun (register, behind) => (register, behind ++ '-' :: rest) := by
  -- The hyphen is neither a letter of registers nor a digit.
  cases text with
  | nil => rfl
  | cons c text =>
    simp only [List.cons_append, split,
      Text.takeWhile_hyphen (show Text.isDigit '-' = false by decide),
      Text.dropWhile_hyphen (show Text.isDigit '-' = false by decide)]
    split <;> rfl

/-- A comma is skipped alike in front of a hyphen. -/
theorem skipComma_hyphen (text rest : Text) :
    skipComma (text ++ '-' :: rest) = (skipComma text).map (· ++ '-' :: rest) := by
  -- The hyphen is neither a space nor a comma.
  unfold skipComma
  rw [Text.skipSpaces_hyphen]
  cases Text.skipSpaces text with
  | nil => rfl
  | cons c others =>
    by_cases comma : c = ','
    · subst comma
      simp [Text.skipSpaces_hyphen]
    · simp [comma]

/-- Further registers are those behind a comma, if there is one with a register behind it. -/
theorem splitMore_eq (text : Text) : splitMore text = match (skipComma text).bind split with
    | none => ([], text)
    | some (register, behind) => (register :: (splitMore behind).1, (splitMore behind).2) := by
  -- Both the comma and the register have to be there.
  conv => lhs; unfold splitMore
  split
  · next none' => simp [none']
  · next rest skipped =>
    rw [skipped, Option.bind_some]
    split
    · next none' => simp [none']
    · next register behind taken => simp [taken]

/-- A register behind a comma is read alike in front of a hyphen. -/
theorem skipComma_split_hyphen (text rest : Text) :
    (skipComma (text ++ '-' :: rest)).bind split =
      ((skipComma text).bind split).map fun (register, behind) =>
        (register, behind ++ '-' :: rest) := by
  -- The comma and the register are.
  rw [skipComma_hyphen]
  cases skipComma text with
  | none => rfl
  | some behind => exact split_hyphen behind rest

/-- Further registers are read alike in front of a hyphen. -/
theorem splitMore_hyphen (text rest : Text) : splitMore (text ++ '-' :: rest) =
    ((splitMore text).1, (splitMore text).2 ++ '-' :: rest) := by
  -- They are read one by one.
  rw [splitMore_eq, splitMore_eq text, skipComma_split_hyphen]
  cases skipped : skipComma text with
  | none => rfl
  | some behind =>
    rw [Option.bind_some]
    cases taken : split behind with
    | none => rfl
    | some parts =>
      obtain ⟨register, left⟩ := parts
      have shorter : left.length < text.length :=
        (split_length taken).trans (skipComma_length skipped)
      simp only [Option.map_some, splitMore_hyphen left rest]
termination_by text.length

/-- A list of registers is read alike in front of a hyphen. -/
theorem splitList_hyphen (text rest : Text) : splitList (text ++ '-' :: rest) =
    ((splitList text).1, (splitList text).2 ++ '-' :: rest) := by
  -- The first register is, and so are the others.
  unfold splitList
  rw [split_hyphen]
  cases split text with
  | none => rfl
  | some parts => simp only [Option.map_some, splitMore_hyphen]

/-- A range of registers is read alike in front of a hyphen. -/
theorem splitRange_hyphen (text rest : Text) : splitRange (text ++ '-' :: rest) =
    (splitRange text).map fun (registers, behind) => (registers, behind ++ '-' :: rest) := by
  -- The hyphen is no dot.
  -- Two dots before the hyphen are found with it and without it.
  have dots (text : Text) : Text.afterPrefix? "..".toList (text ++ '-' :: rest) =
      (Text.afterPrefix? "..".toList text).map (· ++ '-' :: rest) := by
    match text with
    | [] => rfl
    | [c] => by_cases dot : '.' = c <;> simp [Text.afterPrefix?, dot]
    | c :: d :: others =>
      by_cases dot : '.' = c <;> by_cases dot' : '.' = d <;>
        simp [Text.afterPrefix?, dot, dot']
  simp only [splitRange, split_hyphen, Option.bind_eq_bind]
  cases split text with
  | none => rfl
  | some parts =>
    obtain ⟨first, behind⟩ := parts
    -- What is skipped ends before the hyphen, so that the reading goes on alike.
    simp only [Option.map_some, Option.bind_some, Text.skipSpaces_hyphen, dots]
    cases Text.afterPrefix? "..".toList (Text.skipSpaces behind) with
    | none => rfl
    | some between =>
      simp only [Option.map_some, Option.bind_some, Text.skipSpaces_hyphen, split_hyphen]
      cases split (Text.skipSpaces between) <;> rfl

/-- Registers in braces are read alike in front of a hyphen. -/
theorem splitBraced_hyphen (text rest : Text) : splitBraced (text ++ '-' :: rest) =
    (splitBraced text).map fun (registers, behind) => (registers, behind ++ '-' :: rest) := by
  -- The hyphen is no brace.
  cases text with
  | nil => rfl
  | cons c text =>
    by_cases brace : c = '\x7b'
    case neg => simp [splitBraced, brace]
    case pos =>
      subst brace
      simp only [List.cons_append, splitBraced, Text.skipSpaces_hyphen, splitRange_hyphen,
        splitList_hyphen]
      -- The range or the list is read up to the hyphen at most.
      have both : ((splitRange (Text.skipSpaces text)).map fun (registers, behind) =>
            (registers, behind ++ '-' :: rest)).getD
          ((splitList (Text.skipSpaces text)).1,
            (splitList (Text.skipSpaces text)).2 ++ '-' :: rest) =
          let (registers, behind) :=
            (splitRange (Text.skipSpaces text)).getD (splitList (Text.skipSpaces text))
          (registers, behind ++ '-' :: rest) := by
        cases splitRange (Text.skipSpaces text) <;> rfl
      rw [both]
      simp only [Text.skipSpaces_hyphen]
      cases Text.skipSpaces
          ((splitRange (Text.skipSpaces text)).getD (splitList (Text.skipSpaces text))).2 with
      | nil => rfl
      | cons d others => by_cases brace : d = '\x7d' <;> simp [brace]

/-- A register is without signs. -/
theorem reaches_split {text register behind : Text}
    (taken : split text = some (register, behind)) : Reaches text behind := by
  -- Its letter and its digits are no signs.
  cases text with
  | nil => cases taken
  | cons c text =>
    simp only [split] at taken
    split at taken
    · next letter =>
      obtain ⟨-, rfl⟩ := Prod.mk.inj (Option.some.inj taken)
      have sign : c ≠ ':' ∧ c ≠ '(' := by rcases letter.1 with rfl | rfl <;> decide
      exact (Reaches.cons sign.1 sign.2 text).trans (.dropWhile (by decide) (by decide) text)
    · cases taken

/-- A comma with spaces around it is without signs. -/
theorem reaches_skipComma {text behind : Text} (skipped : skipComma text = some behind) :
    Reaches text behind := by
  -- The spaces and the comma are passed one after the other.
  unfold skipComma at skipped
  split at skipped
  · next rest found =>
    rw [← Option.some.inj skipped]
    have first := Reaches.skipSpaces text
    rw [found] at first
    exact (first.trans (.cons (by decide) (by decide) rest)).trans (.skipSpaces rest)
  · cases skipped

/-- Further registers are without signs. -/
theorem reaches_splitMore (text : Text) : Reaches text (splitMore text).2 := by
  -- They are read one by one.
  rw [splitMore_eq]
  cases skipped : skipComma text with
  | none => exact .refl text
  | some between =>
    rw [Option.bind_some]
    cases taken : split between with
    | none => exact .refl text
    | some parts =>
      obtain ⟨register, left⟩ := parts
      have shorter : left.length < text.length :=
        (split_length taken).trans (skipComma_length skipped)
      exact ((reaches_skipComma skipped).trans (reaches_split taken)).trans
        (reaches_splitMore left)
termination_by text.length

/-- A list of registers is without signs. -/
theorem reaches_splitList (text : Text) : Reaches text (splitList text).2 := by
  -- The first register comes before the others.
  unfold splitList
  cases taken : split text with
  | none => exact .refl text
  | some parts => exact (reaches_split taken).trans (reaches_splitMore parts.2)

/-- A range of registers is without signs. -/
theorem reaches_splitRange {text behind : Text} {registers : List Text}
    (taken : splitRange text = some (registers, behind)) : Reaches text behind := by
  -- The dots stand between the two registers.
  simp only [splitRange, Option.bind_eq_bind, Option.bind_eq_some_iff, Option.pure_def,
    Option.some.injEq, Prod.mk.injEq] at taken
  obtain ⟨⟨first, rest⟩, here, between, dots, ⟨last, behind'⟩, there, -, rfl⟩ := taken
  have passed : Reaches (Text.skipSpaces rest) between :=
    ⟨"..".toList, by decide, Text.afterPrefix?_eq_some.1 dots⟩
  exact (((reaches_split here).trans (.skipSpaces rest)).trans passed).trans
    ((Reaches.skipSpaces between).trans (reaches_split there))

/-- Registers in braces are without signs. -/
theorem reaches_splitBraced {text behind : Text} {registers : List Text}
    (taken : splitBraced text = some (registers, behind)) : Reaches text behind := by
  -- A range or a list stands between the braces.
  unfold splitBraced at taken
  split at taken
  · next rest =>
    -- Whichever of both is read, only registers and what stands between them are passed.
    have inside : Reaches (Text.skipSpaces rest)
        ((splitRange (Text.skipSpaces rest)).getD (splitList (Text.skipSpaces rest))).2 := by
      cases range : splitRange (Text.skipSpaces rest) with
      | none => exact reaches_splitList _
      | some parts => exact reaches_splitRange range
    dsimp only at taken
    split at taken
    · next found =>
      obtain ⟨-, rfl⟩ := Prod.mk.inj (Option.some.inj taken)
      have last := Reaches.skipSpaces
        ((splitRange (Text.skipSpaces rest)).getD (splitList (Text.skipSpaces rest))).2
      rw [found] at last
      exact (((Reaches.cons (by decide) (by decide) rest).trans (.skipSpaces rest)).trans
        (inside.trans last)).trans (.cons (by decide) (by decide) _)
    · cases taken
  · cases taken

end Register

end Smali
