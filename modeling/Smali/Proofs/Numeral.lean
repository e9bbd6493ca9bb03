import Smali.Proofs.Literal
import Mathlib.Data.List.Induction
import Mathlib.Data.Nat.Digits.Defs

/-! A numeral is read to its end as the integer that it stands for, if its digits stay below the
bound of its base. -/

namespace Smali

namespace Text

/-- Digits stand for the number that their values make up in the base, the last the least. -/
theorem numberOf_eq_ofDigits (base : Nat) (digits : Text) :
    numberOf base digits = Nat.ofDigits base (digits.reverse.map digitValue) := by
  -- A further digit moves those before it one place up.
  induction digits using List.reverseRecOn with
  | nil => rfl
  | append_singleton front c ih =>
    rw [numberOf_concat, ih, List.reverse_append, List.reverse_singleton, List.singleton_append,
      List.map_cons, Nat.ofDigits_cons, Nat.mul_comm, Nat.add_comm]

/-- The sixteen hexadecimal digits of a word of 64 bits. -/
def sixteenHexDigits (word : UInt64) : Text :=
  -- Leading zeros are kept.
  [0x1000000000000, 0x100000000, 0x10000, 1].flatMap fun weight =>
    fourHexDigits (word.toNat / weight % 0x10000)

/-- A word has sixteen digits. -/
theorem length_sixteenHexDigits (word : UInt64) : (sixteenHexDigits word).length = 16 := by
  -- There are four groups of four.
  rfl

/-- Four more digits move the number before them four places up. -/
theorem numberOf_append_four (front : Text) {number : Nat} (small : number < 65536) :
    numberOf 16 (front ++ fourHexDigits number) = numberOf 16 front * 65536 + number := by
  -- The places of the four digits are those of the number alone.
  have alone := numberOf_fourHexDigits small
  simp only [numberOf, fourHexDigits, List.foldl_append, List.foldl_cons, List.foldl_nil] at alone ⊢
  omega

/-- The digits of a word stand for it. -/
theorem numberOf_sixteenHexDigits (word : UInt64) :
    numberOf 16 (sixteenHexDigits word) = word.toNat := by
  -- Each group is a remainder, so that the word is put together from the groups.
  have bound := word.toNat_lt
  have group (number : Nat) : number % 0x10000 < 65536 := Nat.mod_lt number (by decide)
  have parts : sixteenHexDigits word =
      fourHexDigits (word.toNat / 0x1000000000000 % 0x10000) ++
        fourHexDigits (word.toNat / 0x100000000 % 0x10000) ++
        fourHexDigits (word.toNat / 0x10000 % 0x10000) ++
        fourHexDigits (word.toNat / 1 % 0x10000) := rfl
  rw [parts, numberOf_append_four _ (group _), numberOf_append_four _ (group _),
    numberOf_append_four _ (group _), numberOf_fourHexDigits (group _)]
  omega

/-- The digits of a word are hexadecimal digits. -/
theorem isHexDigit_of_mem_sixteenHexDigits {word : UInt64} {c : Char}
    (member : c ∈ sixteenHexDigits word) : isHexDigit c := by
  -- Each group is made of four of them.
  obtain ⟨weight, -, inside⟩ := List.mem_flatMap.1 member
  have digit (number : Nat) : isHexDigit (hexDigit (number % 16)) :=
    (digitValue_hexDigit (Nat.mod_lt number (by decide))).1
  simp only [fourHexDigits, List.mem_cons, List.not_mem_nil, or_false] at inside
  rcases inside with rfl | rfl | rfl | rfl <;> exact digit _

end Text

namespace Literal

/-- The base in which an integer is written. -/
inductive Base where
  /-- Digits up to nine stand alone. -/
  | decimal
  /-- A mark comes before the digits, with a small or a capital letter. -/
  | hexadecimal (capital : Bool)
  deriving DecidableEq, Repr

namespace Base

/-- What comes before the digits. -/
def mark : Base → Text
  -- Only hexadecimal digits are marked.
  | decimal => []
  | hexadecimal capital => ['0', if capital then 'X' else 'x']

/-- The number of different digits. -/
def radix : Base → Nat
  -- The letter of the mark does not count.
  | decimal => 10
  | hexadecimal _ => 16

/-- A character is a digit in the base. -/
def isDigit : Base → Char → Bool
  -- Hexadecimal digits may be small or capital letters.
  | decimal => Text.isDigit
  | hexadecimal _ => Text.isHexDigit

/-- The least magnitude that is not read. -/
def bound : Base → Nat
  -- Decimal digits may not fill the bit of the sign.
  | decimal => 0x8000000000000000
  | hexadecimal _ => 0x10000000000000000

/-- There are two digits at least and sixteen at most. -/
theorem radix_bounds (base : Base) : 1 < base.radix ∧ base.radix ≤ 16 := by
  -- There are two bases.
  cases base with
  | decimal => decide
  | hexadecimal capital => exact (by decide : 1 < 16 ∧ 16 ≤ 16)

/-- A digit is a hexadecimal digit. -/
theorem isHexDigit_of_isDigit {base : Base} {c : Char} (digit : base.isDigit c) :
    Text.isHexDigit c := by
  -- Decimal digits are among them.
  cases base with
  | decimal => exact Text.isHexDigit_of_isDigit digit
  | hexadecimal capital => exact digit

/-- The digits that a number is written with are digits of the base. -/
theorem isDigit_of_mem_toDigits {base : Base} {number : Nat} {c : Char}
    (member : c ∈ Nat.toDigits base.radix number) : base.isDigit c := by
  -- All hexadecimal digits may occur, or else only the ten decimal ones.
  cases base with
  | decimal =>
    have digit : c.isDigit := Nat.isDigit_of_mem_toDigits (by decide) (Nat.le_refl 10) member
    exact digit
  | hexadecimal capital =>
    exact (Text.isHexDigit_of_mem_toDigits (by decide) (Nat.le_refl 16) member).1

end Base

/-- A letter for the width is neither a digit nor a blank, nor the letter of a mark. -/
theorem isWidth_apart {c : Char} (width : isWidth c) :
    Text.isHexDigit c = false ∧ Text.isBlank c = false ∧ c ≠ 'x' ∧ c ≠ 'X' := by
  -- All the letters are looked at.
  have all : ∀ d ∈ "Lts".toList,
      Text.isHexDigit d = false ∧ Text.isBlank d = false ∧ d ≠ 'x' ∧ d ≠ 'X' := by decide
  exact all c (List.contains_iff_mem.1 width)

/-- An integer as it may be written. -/
structure Numeral where
  /-- A minus sign comes first. -/
  negative : Bool
  /-- The base of the digits. -/
  base : Base
  /-- The digits. -/
  digits : Text
  /-- The letter for the width, where there is one. -/
  width : Option Char
  /-- There is a digit. -/
  nonempty : digits ≠ []
  /-- They are digits of the base. -/
  digital : ∀ c ∈ digits, base.isDigit c
  /-- The letter is one of those for a width. -/
  known : ∀ c ∈ width, isWidth c

namespace Numeral

/-- What is written behind the sign. -/
def unsigned (numeral : Numeral) : Text :=
  -- The letter for the width comes last.
  numeral.base.mark ++ (numeral.digits ++ numeral.width.toList)

/-- The numeral as it is written. -/
def text (numeral : Numeral) : Text :=
  -- Only a minus sign may be written.
  if numeral.negative then '-' :: numeral.unsigned else numeral.unsigned

/-- The number that the digits stand for. -/
def magnitude (numeral : Numeral) : Nat :=
  -- The last digit is the least significant, and leading zeros do not count.
  Nat.ofDigits numeral.base.radix (numeral.digits.reverse.map Text.digitValue)

/-- The integer that the numeral stands for. -/
def value (numeral : Numeral) : Int :=
  -- The sign is that of the whole.
  if numeral.negative then -(numeral.magnitude : Int) else numeral.magnitude

/-- The integer written with the fewest digits, behind a minus sign if it is negative. -/
def ofInt (base : Base) (value : Int) : Numeral where
  -- No width is given.
  negative := decide (value < 0)
  base := base
  digits := Nat.toDigits base.radix value.natAbs
  width := none
  nonempty := Nat.toDigits_ne_nil
  digital _ member := Base.isDigit_of_mem_toDigits member
  known := by simp

/-- The word written with all its digits. -/
def ofWord (capital : Bool) (word : UInt64) : Numeral where
  -- There is no sign.
  negative := false
  base := .hexadecimal capital
  digits := Text.sixteenHexDigits word
  width := none
  nonempty := by rw [← List.length_pos_iff, Text.length_sixteenHexDigits]; decide
  digital _ member := Text.isHexDigit_of_mem_sixteenHexDigits member
  known := by simp

/-- The magnitude is the number that is read from the digits. -/
theorem magnitude_eq (numeral : Numeral) :
    numeral.magnitude = Text.numberOf numeral.base.radix numeral.digits :=
  -- Digits are read by their values.
  (Text.numberOf_eq_ofDigits _ _).symm

/-- The digits of an integer stand for its magnitude. -/
theorem magnitude_ofInt (base : Base) (value : Int) :
    (ofInt base value).magnitude = value.natAbs := by
  -- They are the digits of that number in the base.
  rw [magnitude_eq]
  exact Text.numberOf_toDigits base.radix_bounds.1 base.radix_bounds.2 value.natAbs

/-- An integer stands for itself. -/
theorem value_ofInt (base : Base) (value : Int) : (ofInt base value).value = value := by
  -- The sign is given back to the magnitude.
  rw [Numeral.value, magnitude_ofInt]
  by_cases negative : value < 0
  · rw [if_pos (show (ofInt base value).negative by simpa [ofInt] using negative)]
    omega
  · rw [if_neg (show ¬ (ofInt base value).negative by simpa [ofInt] using negative)]
    omega

/-- A number without a sign is written in hexadecimal as such. -/
theorem text_ofInt (number : Nat) :
    (ofInt (.hexadecimal false) number).text = Text.hexadecimal number := by
  -- No sign is written, and the mark has a small letter.
  rw [text, if_neg (show ¬ (ofInt (.hexadecimal false) number).negative by simp [ofInt]), unsigned]
  exact congrArg ('0' :: 'x' :: ·) (List.append_nil _)

/-- The digits of a word stand for the number that it is without a sign. -/
theorem magnitude_ofWord (capital : Bool) (word : UInt64) :
    (ofWord capital word).magnitude = word.toNat := by
  -- All of them are read.
  rw [magnitude_eq]
  exact Text.numberOf_sixteenHexDigits word

/-- A word stands for the number that it is without a sign. -/
theorem value_ofWord (capital : Bool) (word : UInt64) :
    (ofWord capital word).value = word.toNat := by
  -- No sign is written.
  exact congrArg Nat.cast (magnitude_ofWord capital word)

/-- A numeral stands for its magnitude or for the negative of that. -/
theorem value_eq_or (numeral : Numeral) :
    numeral.value = numeral.magnitude ∨ numeral.value = -numeral.magnitude := by
  -- A minus sign may be written or not.
  unfold value
  split
  · exact .inr rfl
  · exact .inl rfl

section Reading

variable (numeral : Numeral)

/-- The letter for the width begins nothing that is read as a digit or a mark. -/
theorem apart_of_width {c : Char} (first : numeral.width.toList.head? = some c) :
    Text.isHexDigit c = false ∧ Text.isBlank c = false ∧ c ≠ 'x' ∧ c ≠ 'X' := by
  -- It is the only character there.
  have letter : numeral.width = some c := by
    cases same : numeral.width with
    | none => rw [same] at first; cases first
    | some d => rw [same] at first; exact first
  exact isWidth_apart (numeral.known c letter)

/-- Nothing is left behind the letter for the width. -/
theorem skipWidth_width : skipWidth numeral.width.toList = [] := by
  -- The letter is left out where there is one.
  obtain ⟨negative, base, digits, width, nonempty, digital, known⟩ := numeral
  cases width with
  | none => rfl
  | some c => exact if_pos (known c (Option.mem_some_self c))

/-- The digits are read up to the letter for the width if they stay below the bound of the base. -/
theorem splitMagnitude_unsigned : splitMagnitude numeral.unsigned =
    if numeral.magnitude < numeral.base.bound then
      some (numeral.magnitude, numeral.width.toList) else none := by
  -- The mark tells the base.
  have apart := fun c => numeral.apart_of_width (c := c)
  rw [magnitude_eq]
  obtain ⟨negative, base, digits, width, nonempty, digital, known⟩ := numeral
  cases base with
  | decimal =>
    -- The digits are not followed by a mark, whatever their width says.
    have unmarked : afterHexMark? (digits ++ width.toList) = none :=
      afterHexMark?_of_digits nonempty digital fun c first => (apart c first).2.2
    have taken := splitNumber_append 10 0x8000000000000000 nonempty digital
      fun c first => by
        have other := (apart c first).1
        simp only [Text.isHexDigit, Bool.or_eq_false_iff] at other
        exact other.1.1
    rw [splitMagnitude, unsigned, Base.mark, List.nil_append, unmarked]
    exact taken
  | hexadecimal capital =>
    -- The mark is that of a hexadecimal number in either case.
    have marked : afterHexMark? ((Base.hexadecimal capital).mark ++ (digits ++ width.toList)) =
        some (digits ++ width.toList) := by
      cases capital <;> rfl
    have taken := splitNumber_append 16 0x10000000000000000 nonempty digital
      fun c first => (apart c first).1
    rw [splitMagnitude, unsigned, marked]
    exact taken

/-- No sign stands in what is written behind it. -/
theorem unsigned_ne_sign (rest : Text) : numeral.unsigned ≠ '-' :: rest := by
  -- A mark or a digit comes first.
  obtain ⟨negative, base, digits, width, nonempty, digital, known⟩ := numeral
  intro same
  cases base with
  | decimal =>
    obtain ⟨c, others, rfl⟩ := List.exists_cons_of_ne_nil nonempty
    have digit := digital c (by simp)
    rw [(List.cons.inj same).1] at digit
    cases digit
  | hexadecimal capital => cases (List.cons.inj same).1

/-- A numeral is read to its end if its digits stay below the bound of the base. -/
theorem splitInteger_text : splitInteger numeral.text =
    if numeral.magnitude < numeral.base.bound then
      some (Int64.ofInt numeral.value, []) else none := by
  -- The sign is taken off first and applied to what is read.
  have taken := numeral.splitMagnitude_unsigned
  have skipped := numeral.skipWidth_width
  unfold text value
  by_cases negative : numeral.negative
  · rw [if_pos negative, if_pos negative, splitInteger, taken]
    split
    · simp only [Option.map_some, skipped, Int64.ofInt_neg, Int64.ofInt_eq_ofNat]
    · rfl
  · rw [if_neg negative, if_neg negative, splitInteger_unsigned numeral.unsigned_ne_sign, taken]
    split
    · simp only [Option.map_some, skipped, Int64.ofInt_eq_ofNat]
    · rfl

/-- A numeral is written without blanks. -/
theorem solid_text : Text.Solid numeral.text := by
  -- Signs, marks, digits and letters are no blanks.
  have digits : Text.Solid numeral.digits :=
    Text.solid_of_isHexDigit fun c member => Base.isHexDigit_of_isDigit (numeral.digital c member)
  have width : Text.Solid numeral.width.toList := fun c member =>
    (isWidth_apart (numeral.known c (by simpa using member))).2.1
  have mark : Text.Solid numeral.base.mark := by
    cases numeral.base with
    | decimal => decide
    | hexadecimal capital => cases capital <;> decide
  have unsigned : Text.Solid numeral.unsigned := fun c member => by
    rcases List.mem_append.1 member with member | member
    · exact mark c member
    · rcases List.mem_append.1 member with member | member
      · exact digits c member
      · exact width c member
  unfold text
  split
  · exact List.forall_mem_cons.2 ⟨by decide, unsigned⟩
  · exact unsigned

/-- Something is written for a numeral. -/
theorem text_ne_nil : numeral.text ≠ [] := by
  -- There is a digit.
  have unsigned : numeral.unsigned ≠ [] := by simp [unsigned, numeral.nonempty]
  unfold text
  split
  · exact List.cons_ne_nil _ _
  · exact unsigned

end Reading

end Numeral

end Literal

end Smali
