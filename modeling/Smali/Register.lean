import Smali.Text.Blank
import Smali.Text.Digits

/-! Operands name registers, singly, in lists and in ranges. -/

namespace Smali.Register

/-- Takes a register from the start of a text, which is a letter and digits. -/
def split : Text → Option (Text × Text)
  -- Local registers and parameters have one letter each.
  | [] => none
  | c :: rest =>
    let digits := rest.takeWhile Text.isDigit
    if (c = 'v' ∨ c = 'p') ∧ !digits.isEmpty then
      some (c :: digits, rest.dropWhile Text.isDigit)
    else none

/-- Takes a comma with any spaces and tabs around it from the start of a text. -/
def skipComma (text : Text) : Option Text :=
  -- The comma itself has to be there.
  match Text.skipSpaces text with
  | ',' :: rest => some (Text.skipSpaces rest)
  | _ => none

/-- Leaving out spaces and tabs makes no text longer. -/
theorem skipSpaces_length (text : Text) : (Text.skipSpaces text).length ≤ text.length := by
  -- Dropping characters leaves a part of the text.
  exact (List.dropWhile_sublist _).length_le

/-- What is behind a comma is shorter than the text. -/
theorem skipComma_length {text behind : Text} (skipped : skipComma text = some behind) :
    behind.length < text.length := by
  -- At least the comma is left out.
  unfold skipComma at skipped
  split at skipped
  · next rest found =>
    simp only [Option.some.injEq] at skipped
    have outer := skipSpaces_length text
    have inner := skipSpaces_length rest
    rw [found, List.length_cons] at outer
    rw [← skipped]
    omega
  · simp at skipped

/-- What is behind a register is shorter than the text. -/
theorem split_length {text register behind : Text} (taken : split text = some (register, behind)) :
    behind.length < text.length := by
  -- At least the letter is taken.
  cases text with
  | nil => simp [split] at taken
  | cons c rest =>
    simp only [split] at taken
    split at taken
    · simp only [Option.some.injEq, Prod.mk.injEq] at taken
      have shorter := (List.dropWhile_sublist (l := rest) Text.isDigit).length_le
      rw [← taken.2, List.length_cons]
      omega
    · simp at taken

/-- Takes further registers, each behind a comma, from the start of a text. -/
def splitMore (text : Text) : List Text × Text :=
  -- A comma without a register behind it is not taken.
  match _skipped : skipComma text with
  | none => ([], text)
  | some rest =>
    match _taken : split rest with
    | none => ([], text)
    | some (register, behind) =>
      let (others, left) := splitMore behind
      (register :: others, left)
termination_by text.length
decreasing_by
  have := skipComma_length (by assumption)
  have := split_length (by assumption)
  omega

/-- Takes any number of registers with commas between them from the start of a text. -/
def splitList (text : Text) : List Text × Text :=
  -- The first register has no comma before it.
  match split text with
  | none => ([], text)
  | some (register, behind) =>
    let (others, left) := splitMore behind
    (register :: others, left)

/-- Takes the first and the last register of a range from the start of a text. -/
def splitRange (text : Text) : Option (List Text × Text) := do
  -- Two dots stand between the registers, with any spaces and tabs around them.
  let (first, rest) ← split text
  let rest ← Text.afterPrefix? "..".toList (Text.skipSpaces rest)
  let (last, behind) ← split (Text.skipSpaces rest)
  return ([first, last], behind)

/-- Takes registers in braces, a range or a list, from the start of a text. -/
def splitBraced : Text → Option (List Text × Text)
  -- A range is tried before a list.
  | '\x7b' :: rest =>
    let start := Text.skipSpaces rest
    let (registers, rest) := (splitRange start).getD (splitList start)
    match Text.skipSpaces rest with
    | '\x7d' :: behind => some (registers, behind)
    | _ => none
  | _ => none

end Smali.Register
