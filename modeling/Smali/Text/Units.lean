import Smali.Text.Basic

/-! Characters are spelled in UTF-16 units, and units that spell none are read as a substitute. -/

namespace Smali.Text

/-- The units that spell one character. -/
def unitsOf (c : Char) : List UInt16 :=
  -- A code point beyond the first plane is split into two halves of ten bits.
  if c.toNat < 0x10000 then [c.toNat.toUInt16]
  else
    let offset := c.toNat - 0x10000
    [(0xD800 + offset / 0x400).toUInt16, (0xDC00 + offset % 0x400).toUInt16]

/-- The units that spell a text. -/
def units (text : Text) : List UInt16 :=
  -- Characters are spelled one after the other.
  text.flatMap unitsOf

/-- A unit that can only be the first half of a pair. -/
def isHighHalf (unit : UInt16) : Bool :=
  -- The first halves fill one block.
  0xD800 ≤ unit.toNat && unit.toNat < 0xDC00

/-- A unit that can only be the second half of a pair. -/
def isLowHalf (unit : UInt16) : Bool :=
  -- The second halves fill the block behind the first halves.
  0xDC00 ≤ unit.toNat && unit.toNat < 0xE000

/-- The character that stands for a unit which spells none. -/
def replacementChar : Char :=
  -- This is the code point set aside for that purpose.
  '\ufffd'

/-- The character that a unit spells by itself. -/
def charOfUnit (unit : UInt16) : Char :=
  -- A half of a pair spells nothing alone.
  if isHighHalf unit || isLowHalf unit then replacementChar else Char.ofNat unit.toNat

/-- The character that a pair of halves spells. -/
def charOfPair (high low : UInt16) : Char :=
  -- Each half holds ten bits of the offset from the second plane.
  Char.ofNat (0x10000 + (high.toNat - 0xD800) * 0x400 + (low.toNat - 0xDC00))

/-- Reads units as text, putting the replacement character for each half without its partner. -/
def ofUnits : List UInt16 → Text
  -- A first half takes the next unit only if that is a second half.
  | [] => []
  | [unit] => [charOfUnit unit]
  | unit :: next :: rest =>
    if isHighHalf unit && isLowHalf next then charOfPair unit next :: ofUnits rest
    else charOfUnit unit :: ofUnits (next :: rest)

end Smali.Text
