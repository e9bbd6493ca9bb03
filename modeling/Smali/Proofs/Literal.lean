import Smali.Literal
import Smali.Proofs.Text.Escape
import Smali.Proofs.Text.Rewording

/-! A literal that is written for a string or a number is read back to the end as it was meant. -/

namespace Smali

namespace Text

/-- A blank is no hexadecimal digit. -/
theorem isHexDigit_of_isBlank {c : Char} (blank : isBlank c) : isHexDigit c = false := by
  -- The code points of digits lie in none of the ranges of blanks.
  rw [← Bool.not_eq_true]
  intro digit
  simp only [isHexDigit, isDigit, Bool.or_eq_true, Bool.and_eq_true, decide_eq_true_eq,
    Char.le_def, UInt32.le_iff_toNat_le] at digit
  simp only [isBlank, blankRanges, List.any_cons, List.any_nil, Bool.or_false, Bool.or_eq_true,
    Bool.and_eq_true, decide_eq_true_eq] at blank
  have same : c.toNat = c.val.toNat := rfl
  have ends : '0'.val.toNat = 48 ∧ '9'.val.toNat = 57 ∧ 'A'.val.toNat = 65 ∧
    'F'.val.toNat = 70 ∧ 'a'.val.toNat = 97 ∧ 'f'.val.toNat = 102 := by decide
  omega

/-- A blank is no decimal digit. -/
theorem isDigit_of_isBlank {c : Char} (blank : isBlank c) : isDigit c = false := by
  -- Decimal digits are hexadecimal digits.
  have other := isHexDigit_of_isBlank blank
  simp only [isHexDigit, Bool.or_eq_false_iff] at other
  exact other.1.1

/-- A decimal digit is a hexadecimal digit. -/
theorem isHexDigit_of_isDigit {c : Char} (digit : isDigit c) : isHexDigit c := by
  -- It is one without a letter.
  simp only [isHexDigit, digit, Bool.true_or]

/-- Digits are not blank. -/
theorem solid_of_isHexDigit {digits : Text} (all : ∀ c ∈ digits, isHexDigit c) : Solid digits := by
  -- A blank is none of them.
  intro c member
  rw [← Bool.not_eq_true]
  intro blank
  have digit := all c member
  rw [isHexDigit_of_isBlank blank] at digit
  cases digit

/-- The digit of a small number is a hexadecimal digit, and it has the value of that number. -/
theorem digitValue_digitChar {number : Nat} (small : number < 16) :
    isHexDigit (Nat.digitChar number) ∧ isBlank (Nat.digitChar number) = false ∧
      digitValue (Nat.digitChar number) = number := by
  -- There are sixteen digits.
  have each : ∀ small < 16, isHexDigit (Nat.digitChar small) ∧
      isBlank (Nat.digitChar small) = false ∧ digitValue (Nat.digitChar small) = small := by
    decide
  exact each number small

/-- A further digit moves the number before it one place up. -/
theorem numberOf_concat (base : Nat) (front : Text) (c : Char) :
    numberOf base (front ++ [c]) = numberOf base front * base + digitValue c := by
  -- The digits are gathered from the front.
  simp [numberOf]

section Digits

variable {base : Nat} (least : 1 < base) (most : base ≤ 16)

include least most

/-- The digits of a number stand for that number. -/
theorem numberOf_toDigits (number : Nat) : numberOf base (Nat.toDigits base number) = number := by
  -- The last digit goes behind those of what is left.
  induction number using Nat.strongRecOn with
  | ind number ih =>
    rw [Nat.toDigits_eq_if least]
    split
    · next small =>
      have last := (digitValue_digitChar (Nat.lt_of_lt_of_le small most)).2.2
      simpa [numberOf] using last
    · next large =>
      have shorter : number / base < number := Nat.div_lt_self (by omega) least
      have below : number % base < base := Nat.mod_lt number (by omega)
      have last := (digitValue_digitChar (Nat.lt_of_lt_of_le below most)).2.2
      rw [numberOf_concat, ih (number / base) shorter, last]
      exact Nat.div_add_mod' number base

/-- The digits of a number are hexadecimal digits, and no digit is blank. -/
theorem isHexDigit_of_mem_toDigits {number : Nat} {c : Char}
    (member : c ∈ Nat.toDigits base number) : isHexDigit c ∧ isBlank c = false := by
  -- The last digit goes behind those of what is left.
  induction number using Nat.strongRecOn with
  | ind number ih =>
    have digit {small : Nat} (below : small < base) :=
      digitValue_digitChar (Nat.lt_of_lt_of_le below most)
    rw [Nat.toDigits_eq_if least] at member
    split at member
    · next small =>
      rw [List.mem_singleton.1 member]
      exact ⟨(digit small).1, (digit small).2.1⟩
    · next large =>
      have below : number % base < base := Nat.mod_lt number (by omega)
      rcases List.mem_append.1 member with member | member
      · exact ih (number / base) (Nat.div_lt_self (by omega) least) member
      · rw [List.mem_singleton.1 member]
        exact ⟨(digit below).1, (digit below).2.1⟩

end Digits

end Text

namespace Literal

/-- What follows the mark of a hexadecimal number stands behind it. -/
theorem afterHexMark?_eq_some {text digits : Text} :
    afterHexMark? text = some digits ↔
      text = '0' :: 'x' :: digits ∨ text = '0' :: 'X' :: digits := by
  -- The letter has either case.
  constructor
  · intro marked
    unfold afterHexMark? at marked
    split at marked
    · cases marked
      exact .inl rfl
    · cases marked
      exact .inr rfl
    · cases marked
  · rintro (rfl | rfl) <;> rfl

/-- Decimal digits hold no mark of a hexadecimal number. -/
theorem afterHexMark?_of_digits {word behind : Text} (nonempty : word ≠ [])
    (all : ∀ c ∈ word, Text.isDigit c)
    (unmarked : ∀ c, behind.head? = some c → c ≠ 'x' ∧ c ≠ 'X') :
    afterHexMark? (word ++ behind) = none := by
  -- The letter would be the second digit or stand behind the digits.
  obtain ⟨c, rest, rfl⟩ := List.exists_cons_of_ne_nil nonempty
  have second {mark : Char} {digits : Text} (letter : mark = 'x' ∨ mark = 'X') :
      rest ++ behind ≠ mark :: digits := by
    intro same
    cases rest with
    | nil =>
      have other := unmarked mark (by rw [← List.nil_append behind, same]; rfl)
      exact letter.elim other.1 other.2
    | cons d others =>
      have digit := all mark (by rw [← (List.cons.inj same).1]; simp)
      rcases letter with rfl | rfl <;> cases digit
  rw [Option.eq_none_iff_forall_ne_some]
  intro digits found
  rcases afterHexMark?_eq_some.1 found with same | same
  · exact second (.inl rfl) (List.cons.inj same).2
  · exact second (.inr rfl) (List.cons.inj same).2

/-- Digits are read as a number up to the first character that is none, if the number stays below
the bound. -/
theorem splitNumber_append (base bound : Nat) {isDigit : Char → Bool}
    {digits behind : Text} (nonempty : digits ≠ []) (all : ∀ c ∈ digits, isDigit c)
    (stops : ∀ c, behind.head? = some c → isDigit c = false) :
    splitNumber base bound isDigit (digits ++ behind) =
      if Text.numberOf base digits < bound then some (Text.numberOf base digits, behind)
      else none := by
  -- The digits make up a run.
  obtain ⟨run, rest⟩ := Text.takeWhile_run all stops
  have some' : digits.isEmpty = false := by simpa using nonempty
  simp only [splitNumber, run, rest, some', Bool.false_or, decide_eq_true_eq]
  by_cases fits : Text.numberOf base digits < bound
  · rw [if_neg (Nat.not_le.2 fits), if_pos fits]
  · rw [if_pos (Nat.not_lt.1 fits), if_neg fits]

/-- An integer that begins with no sign is its magnitude. -/
theorem splitInteger_unsigned {text : Text} (unsigned : ∀ rest, text ≠ '-' :: rest) :
    splitInteger text = (splitMagnitude text).map fun (number, behind) =>
      (Int64.ofNat number, skipWidth behind) := by
  -- No sign is taken off.
  unfold splitInteger
  split
  · next rest => exact absurd rfl (unsigned rest)
  · rfl

/-- The inside of a string literal as it may be written. -/
inductive Written : Text → Prop where
  /-- Nothing is written for the empty string. -/
  | nil : Written []
  /-- A character that neither closes the literal nor begins an escape stands for itself. -/
  | plain {c : Char} {rest : Text} (quote : c ≠ '"') (backslash : c ≠ '\\')
      (others : Written rest) : Written (c :: rest)
  /-- A backslash has a character of an escape behind it. -/
  | escaped {c : Char} {rest : Text} (letter : isEscapable c) (others : Written rest) :
      Written ('\\' :: c :: rest)

namespace Written

/-- Two insides one behind the other are written like one. -/
theorem append {front back : Text} (first : Written front) (second : Written back) :
    Written (front ++ back) := by
  -- No form of a character looks at what follows.
  induction first with
  | nil => exact second
  | plain quote backslash _ ih => exact .plain quote backslash ih
  | escaped letter _ ih => exact .escaped letter ih

/-- Characters that need no escape are written as they are. -/
theorem of_plain {text : Text} (plain : ∀ c ∈ text, c ≠ '"' ∧ c ≠ '\\') : Written text := by
  -- Each of them stands for itself.
  induction text with
  | nil => exact .nil
  | cons c rest ih =>
    obtain ⟨quote, backslash⟩ := plain c (by simp)
    exact .plain quote backslash (ih fun d member => plain d (by simp [member]))

/-- A written inside is read up to the first quote behind it. -/
theorem splitInside {inside : Text} (written : Written inside) (behind : Text) :
    Literal.splitInside (inside ++ '"' :: behind) = some (inside, behind) := by
  -- The reader takes one form of a character after the other.
  induction written with
  | nil => rfl
  | plain quote backslash _ ih =>
    rw [List.cons_append, Literal.splitInside.eq_5 _ _ quote backslash, ih]
    rfl
  | escaped letter _ ih => simp [Literal.splitInside, letter, ih]

end Written

/-- One character is escaped in a form that may stand inside a string literal. -/
theorem written_escapeChar (c : Char) : Written (Text.escapeChar c) := by
  -- Units are written by a letter and four digits, and none of these is special.
  unfold Text.escapeChar
  split
  · next letter short =>
    have known : isEscapable letter := by
      unfold Text.escapeLetter? at short
      split at short <;> cases short <;> decide
    exact .escaped known .nil
  · next unnamed =>
    split
    · -- A printable character without a letter of its own is no special one.
      have quote : c ≠ '"' := fun same => by subst same; cases unnamed
      have backslash : c ≠ '\\' := fun same => by subst same; cases unnamed
      exact .plain quote backslash .nil
    · -- Any other character is written by its units.
      have digit : ∀ number < 16,
          Text.hexDigit number ≠ '"' ∧ Text.hexDigit number ≠ '\\' := by decide
      have unit (word : UInt16) : Written (Text.unitEscape word) := by
        refine .escaped (by decide) (.of_plain fun d member => ?_)
        simp only [Text.fourHexDigits, List.mem_cons, List.not_mem_nil, or_false] at member
        rcases member with rfl | rfl | rfl | rfl <;>
          exact digit _ (Nat.mod_lt _ (by decide))
      induction Text.unitsOf c with
      | nil => exact .nil
      | cons word words ih =>
        rw [List.flatMap_cons]
        exact (unit word).append ih

/-- An escaped text may stand inside a string literal. -/
theorem written_escape (text : Text) : Written (Text.escape text) := by
  -- Its characters are escaped one by one.
  induction text with
  | nil => exact .nil
  | cons c rest ih =>
    rw [Text.escape, List.flatMap_cons]
    exact (written_escapeChar c).append ih

/-- The literal of an escaped text is read to the end. -/
theorem splitString_escape (text behind : Text) :
    splitString ('"' :: Text.escape text ++ '"' :: behind) =
      some (Text.escape text, behind) := by
  -- No gap stands before the quote.
  exact (written_escape text).splitInside behind

end Literal

end Smali
