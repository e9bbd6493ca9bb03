import Smali.Text.Blank
import Smali.Text.Digits

/-! Literals are integers of 64 bits and quoted strings. -/

namespace Smali.Literal

/-- A letter that may follow an integer to say how wide it is. -/
def isWidth (c : Char) : Bool :=
  -- The letters stand for long, byte and short.
  "Lts".toList.contains c

/-- Leaves out the letter for the width, where there is one. -/
def skipWidth : Text → Text
  -- At most one letter goes.
  | [] => []
  | c :: rest => if isWidth c then rest else c :: rest

/-- What follows the mark of a hexadecimal number. -/
def afterHexMark? : Text → Option Text
  -- The letter has either case.
  | '0' :: 'x' :: rest | '0' :: 'X' :: rest => some rest
  | _ => none

/-- Takes digits from the start of a text and reads them as a number below a bound. -/
def splitNumber (base bound : Nat) (isDigit : Char → Bool) (text : Text) : Option (Nat × Text) :=
  -- There has to be a digit, and the bound may not be reached.
  let digits := text.takeWhile isDigit
  let number := Text.numberOf base digits
  if digits.isEmpty || bound ≤ number then none else some (number, text.dropWhile isDigit)

/-- Takes the digits of an integer without its sign from the start of a text. -/
def splitMagnitude (text : Text) : Option (Nat × Text) :=
  -- Hexadecimal digits may fill all bits of a word, decimal digits all but the sign.
  match afterHexMark? text with
  | some digits => splitNumber 16 0x10000000000000000 Text.isHexDigit digits
  | none => splitNumber 10 0x8000000000000000 Text.isDigit text

/-- Takes an integer from the start of a text; it wraps round at 64 bits. -/
def splitInteger (text : Text) : Option (Int64 × Text) :=
  -- The sign comes first and is applied last.
  match text with
  | '-' :: rest =>
    (splitMagnitude rest).map fun (number, behind) => (-Int64.ofNat number, skipWidth behind)
  | _ => (splitMagnitude text).map fun (number, behind) => (Int64.ofNat number, skipWidth behind)

/-- A character that may follow a backslash in a string literal. -/
def isEscapable (c : Char) : Bool :=
  -- Quotes, the backslash and the letters of the known escapes may.
  "'\"tbnrfu\\".toList.contains c

/-- Takes the inside of a string literal and its closing quote from the start of a text. -/
def splitInside : Text → Option (Text × Text)
  -- A backslash takes the next character with it, so that a quote behind it does not close.
  | [] => none
  | '"' :: behind => some ([], behind)
  | '\\' :: rest =>
    match rest with
    | [] => none
    | c :: rest' =>
      if isEscapable c then
        (splitInside rest').map fun (inside, behind) => ('\\' :: c :: inside, behind)
      else none
  | c :: rest => (splitInside rest).map fun (inside, behind) => (c :: inside, behind)

/-- A character that may stand before a string literal. -/
def isGap (c : Char) : Bool :=
  -- Spaces, tabs and line breaks may, and no other blank.
  c == ' ' || c == '\t' || c == '\r' || c == '\n'

/-- Takes a string literal from the start of a text and gives its inside as it is written. -/
def splitString (text : Text) : Option (Text × Text) :=
  -- The opening quote has to be there.
  match text.dropWhile isGap with
  | '"' :: rest => splitInside rest
  | _ => none

end Smali.Literal
