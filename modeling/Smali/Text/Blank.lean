import Smali.Text.Basic

/-! Blank characters are those with the Unicode property White_Space. -/

namespace Smali.Text

/-- The ranges of code points with the property White_Space, both ends included. -/
def blankRanges : List (Nat × Nat) :=
  -- The controls and the space come first, then the wider spaces in order.
  [(0x9, 0xD), (0x20, 0x20), (0x85, 0x85), (0xA0, 0xA0), (0x1680, 0x1680), (0x2000, 0x200A),
    (0x2028, 0x2029), (0x202F, 0x202F), (0x205F, 0x205F), (0x3000, 0x3000)]

/-- A character is blank when its code point lies in one of the ranges. -/
def isBlank (c : Char) : Bool :=
  -- The ranges are few, so they are tried one by one.
  blankRanges.any fun (low, high) => low ≤ c.toNat && c.toNat ≤ high

/-- Removes the blanks at the start. -/
def trimStart (text : Text) : Text :=
  -- Blanks are dropped up to the first other character.
  text.dropWhile isBlank

/-- Removes the blanks at the end. -/
def trimEnd (text : Text) : Text :=
  -- The end of the text is the start of its reverse.
  (text.reverse.dropWhile isBlank).reverse

/-- Removes the blanks at both ends. -/
def trim (text : Text) : Text :=
  -- The two ends do not interfere.
  trimEnd (trimStart text)

/-- The words of a text, which are its longest runs without blanks. -/
def words (text : Text) : List Text :=
  -- Neighbouring blanks enclose an empty piece, which is no word.
  (text.splitOnP isBlank).filter fun word => !word.isEmpty

/-- A character that separates operands, a space or a tab. -/
def isSpace (c : Char) : Bool :=
  -- No other blank counts here.
  c == ' ' || c == '\t'

/-- Removes the spaces and tabs at the start. -/
def skipSpaces (text : Text) : Text :=
  -- Other blanks stay.
  text.dropWhile isSpace

end Smali.Text
