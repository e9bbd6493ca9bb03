import Smali.Text.Escape

/-! Escapes are read back as the text that was escaped, and they are printable. -/

namespace Smali.Text

/-- The digit for a number below sixteen is hexadecimal and stands for that number. -/
theorem digitValue_hexDigit {number : Nat} (small : number < 16) :
    isHexDigit (hexDigit number) ∧ digitValue (hexDigit number) = number := by
  -- There are sixteen digits.
  have every : ∀ number < 16,
      isHexDigit (hexDigit number) ∧ digitValue (hexDigit number) = number := by decide
  exact every number small

/-- Four digits are read as the number that they were written for. -/
theorem numberOf_fourHexDigits {number : Nat} (small : number < 65536) :
    numberOf 16 (fourHexDigits number) = number := by
  -- The places are those of base sixteen.
  have digit : ∀ place, digitValue (hexDigit (place % 16)) = place % 16 := fun place =>
    (digitValue_hexDigit (Nat.mod_lt place (by decide))).2
  simp only [numberOf, fourHexDigits, List.foldl_cons, List.foldl_nil, digit]
  omega

/-- The escape of a unit is read as that unit. -/
theorem unescapedUnits_unitEscape (unit : UInt16) (rest : Text) :
    unescapedUnits (unitEscape unit ++ rest) = unit :: unescapedUnits rest := by
  -- Its four characters are all digits.
  have digit : ∀ place, isHexDigit (hexDigit (place % 16)) := fun place =>
    (digitValue_hexDigit (Nat.mod_lt place (by decide))).1
  have number := numberOf_fourHexDigits unit.toNat_lt
  simp only [fourHexDigits] at number
  simp only [unitEscape, fourHexDigits, List.cons_append, List.nil_append, unescapedUnits, digit,
    Bool.and_self, if_true, number]
  simp

/-- The escapes of units are read as these units. -/
theorem unescapedUnits_flatMap (units : List UInt16) (rest : Text) :
    unescapedUnits (units.flatMap unitEscape ++ rest) = units ++ unescapedUnits rest := by
  -- They are read one by one.
  induction units with
  | nil => rfl
  | cons unit others ih =>
    rw [List.flatMap_cons, List.append_assoc, unescapedUnits_unitEscape, ih]
    rfl

/-- A character other than the backslash stands for itself. -/
theorem unescapedUnits_cons {c : Char} (plain : c ≠ '\\') (rest : Text) :
    unescapedUnits (c :: rest) = unitsOf c ++ unescapedUnits rest := by
  -- Only a backslash opens an escape.
  rw [unescapedUnits.eq_def]
  split <;> simp_all

/-- A short escape is read as the character that it was chosen for. -/
theorem unescapedUnits_letter {c letter : Char} (short : escapeLetter? c = some letter)
    (rest : Text) : unescapedUnits ('\\' :: letter :: rest) = unitsOf c ++ unescapedUnits rest := by
  -- No short escape has the letter of the long ones.
  unfold escapeLetter? at short
  split at short <;> cases short <;> simp [unescapedUnits, escapedChar?]

/-- An escaped character is read as its units. -/
theorem unescapedUnits_escapeChar (c : Char) (rest : Text) :
    unescapedUnits (escapeChar c ++ rest) = unitsOf c ++ unescapedUnits rest := by
  -- The three forms of an escape are read in their own ways.
  unfold escapeChar
  split
  · next letter short => exact unescapedUnits_letter short rest
  · next long =>
    split
    · refine unescapedUnits_cons (fun same => ?_) rest
      subst same
      exact absurd long (by decide)
    · exact unescapedUnits_flatMap (unitsOf c) rest

/-- An escaped text is read as its units. -/
theorem unescapedUnits_escape (text : Text) : unescapedUnits (escape text) = units text := by
  -- Characters are read one by one.
  induction text with
  | nil => rfl
  | cons c rest ih =>
    rw [escape, List.flatMap_cons, unescapedUnits_escapeChar, units, List.flatMap_cons]
    exact congrArg (unitsOf c ++ ·) ih

/-- The first character is read from its units. -/
theorem ofUnits_unitsOf (c : Char) (rest : List UInt16) :
    ofUnits (unitsOf c ++ rest) = c :: ofUnits rest := by
  -- No character has the code point of a half.
  have valid : c.toNat < 0xD800 ∨ 0xDFFF < c.toNat ∧ c.toNat < 0x110000 := c.valid
  unfold unitsOf
  split
  · next small =>
    -- A small character is one unit.
    have unit : c.toNat.toUInt16.toNat = c.toNat := by
      rw [Nat.toUInt16_eq, UInt16.toNat_ofNat']
      omega
    have high : isHighHalf c.toNat.toUInt16 = false := by
      simp only [isHighHalf, unit, Bool.and_eq_false_iff, decide_eq_false_iff_not]
      omega
    have low : isLowHalf c.toNat.toUInt16 = false := by
      simp only [isLowHalf, unit, Bool.and_eq_false_iff, decide_eq_false_iff_not]
      omega
    have alone : charOfUnit c.toNat.toUInt16 = c := by
      simp only [charOfUnit, high, low, Bool.or_self, Bool.false_eq_true, if_false, unit]
      exact Char.ofNat_toNat c
    cases rest with
    | nil => simp [ofUnits, alone]
    | cons next rest => simp [ofUnits, high, alone]
  · next large =>
    -- Ten bits of a large character are in each of its units.
    have first : (0xD800 + (c.toNat - 0x10000) / 0x400).toUInt16.toNat =
        0xD800 + (c.toNat - 0x10000) / 0x400 := by
      rw [Nat.toUInt16_eq, UInt16.toNat_ofNat']
      omega
    have second : (0xDC00 + (c.toNat - 0x10000) % 0x400).toUInt16.toNat =
        0xDC00 + (c.toNat - 0x10000) % 0x400 := by
      rw [Nat.toUInt16_eq, UInt16.toNat_ofNat']
      omega
    have high : isHighHalf (0xD800 + (c.toNat - 0x10000) / 0x400).toUInt16 = true := by
      simp only [isHighHalf, first, Bool.and_eq_true, decide_eq_true_eq]
      omega
    have low : isLowHalf (0xDC00 + (c.toNat - 0x10000) % 0x400).toUInt16 = true := by
      simp only [isLowHalf, second, Bool.and_eq_true, decide_eq_true_eq]
      omega
    -- Both halves together give the code point again.
    have point : 0x10000 + (0xD800 + (c.toNat - 0x10000) / 0x400 - 0xD800) * 0x400 +
        (0xDC00 + (c.toNat - 0x10000) % 0x400 - 0xDC00) = c.toNat := by
      omega
    simp only [List.cons_append, List.nil_append, ofUnits, high, low, Bool.and_self, if_true,
      charOfPair, first, second, point]
    rw [Char.ofNat_toNat]

/-- The units of a text are read as that text. -/
theorem ofUnits_units (text : Text) : ofUnits (units text) = text := by
  -- Characters are read one by one.
  induction text with
  | nil => rfl
  | cons c rest ih =>
    rw [units, List.flatMap_cons, ofUnits_unitsOf]
    exact congrArg (c :: ·) ih

/-- An escaped text is read as the text itself. -/
theorem unescape_escape (text : Text) : unescape (escape text) = text := by
  -- The units in between are those of the text.
  rw [unescape, unescapedUnits_escape, ofUnits_units]

/-- An escaped text is printable. -/
theorem printable_escape {text : Text} {c : Char} (member : c ∈ escape text) :
    ' ' ≤ c ∧ c ≤ '~' := by
  -- Each form of an escape is printable.
  obtain ⟨source, -, inside⟩ := List.mem_flatMap.1 member
  unfold escapeChar at inside
  split at inside
  · next letter short =>
    have named : ' ' ≤ letter ∧ letter ≤ '~' := by
      unfold escapeLetter? at short
      split at short <;> cases short <;> decide
    rcases List.mem_cons.1 inside with rfl | inside
    · decide
    · rw [List.mem_singleton.1 inside]
      exact named
  · split at inside
    · next plain => exact List.mem_singleton.1 inside ▸ plain
    · -- A unit is written by digits only.
      have digits : ∀ number < 16, ' ' ≤ hexDigit number ∧ hexDigit number ≤ '~' := by decide
      obtain ⟨unit, -, inside⟩ := List.mem_flatMap.1 inside
      have digit : ∀ place, ' ' ≤ hexDigit (place % 16) ∧ hexDigit (place % 16) ≤ '~' :=
        fun place => digits _ (Nat.mod_lt place (by decide))
      simp only [unitEscape, fourHexDigits, List.mem_cons, List.not_mem_nil, or_false] at inside
      rcases inside with rfl | rfl | rfl | rfl | rfl | rfl
      · decide
      · decide
      · exact digit _
      · exact digit _
      · exact digit _
      · exact digit _

end Smali.Text
