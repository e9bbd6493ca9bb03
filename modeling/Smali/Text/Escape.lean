import Smali.Text.Digits
import Smali.Text.Units

/-! String literals hold printable ASCII, and every other character is written by an escape. -/

namespace Smali.Text

/-- The letter that names a character in a short escape. -/
def escapeLetter? (c : Char) : Option Char :=
  -- Five controls have letters, and quotes and the backslash stand for themselves.
  match c with
  | '\n' => some 'n'
  | '\r' => some 'r'
  | '\t' => some 't'
  | '\x08' => some 'b'
  | '\x0c' => some 'f'
  | '"' => some '"'
  | '\'' => some '\''
  | '\\' => some '\\'
  | _ => none

/-- The character that a short escape with a given letter names. -/
def escapedChar? (letter : Char) : Option Char :=
  -- Each letter is read back as the character it was chosen for.
  match letter with
  | 'n' => some '\n'
  | 'r' => some '\r'
  | 't' => some '\t'
  | 'b' => some '\x08'
  | 'f' => some '\x0c'
  | '"' => some '"'
  | '\'' => some '\''
  | '\\' => some '\\'
  | _ => none

/-- The escape that names one UTF-16 unit. -/
def unitEscape (unit : UInt16) : Text :=
  -- Four digits are always written.
  '\\' :: 'u' :: fourHexDigits unit.toNat

/-- One character as it is written inside a string literal. -/
def escapeChar (c : Char) : Text :=
  -- A short escape goes first, then printable ASCII, then the units of anything else.
  match escapeLetter? c with
  | some letter => ['\\', letter]
  | none => if ' ' ≤ c ∧ c ≤ '~' then [c] else (unitsOf c).flatMap unitEscape

/-- A text as it is written inside a string literal. -/
def escape (text : Text) : Text :=
  -- Characters are written independently of each other.
  text.flatMap escapeChar

/-- The units that the inside of a string literal stands for. -/
def unescapedUnits : Text → List UInt16
  -- An escape that is not complete or not known stands for its own characters.
  | '\\' :: 'u' :: a :: b :: c :: d :: rest =>
    if isHexDigit a && isHexDigit b && isHexDigit c && isHexDigit d then
      (numberOf 16 [a, b, c, d]).toUInt16 :: unescapedUnits rest
    else unitsOf '\\' ++ unitsOf 'u' ++ unescapedUnits (a :: b :: c :: d :: rest)
  | '\\' :: c :: rest =>
    match escapedChar? c with
    | some named => unitsOf named ++ unescapedUnits rest
    | none => unitsOf '\\' ++ unitsOf c ++ unescapedUnits rest
  | c :: rest => unitsOf c ++ unescapedUnits rest
  | [] => []

/-- Reads the inside of a string literal. -/
def unescape (text : Text) : Text :=
  -- Unit escapes may name halves, so the pairs are put together at the end.
  ofUnits (unescapedUnits text)

end Smali.Text
