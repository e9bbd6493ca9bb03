import Smali.Text.Basic

/-! Numbers are written in decimal or hexadecimal digits, and digits are read back as a number. -/

namespace Smali.Text

/-- The value of a hexadecimal digit of either case, and zero for any other character. -/
def digitValue (c : Char) : Nat :=
  -- The three runs of digits are each in order.
  if '0' ≤ c ∧ c ≤ '9' then c.toNat - '0'.toNat
  else if 'a' ≤ c ∧ c ≤ 'f' then c.toNat - 'a'.toNat + 10
  else if 'A' ≤ c ∧ c ≤ 'F' then c.toNat - 'A'.toNat + 10
  else 0

/-- A character is a decimal digit. -/
def isDigit (c : Char) : Bool :=
  -- Only the ten ASCII digits count.
  '0' ≤ c && c ≤ '9'

/-- A character is a hexadecimal digit of either case. -/
def isHexDigit (c : Char) : Bool :=
  -- Only ASCII digits and letters count.
  isDigit c || ('a' ≤ c && c ≤ 'f') || ('A' ≤ c && c ≤ 'F')

/-- The number that a run of digits stands for, the most significant digit first. -/
def numberOf (base : Nat) (digits : Text) : Nat :=
  -- Each further digit moves what came before one place up.
  digits.foldl (fun number c => number * base + digitValue c) 0

/-- The decimal digits of a number. -/
def decimal (number : Nat) : Text :=
  -- Zero has one digit.
  Nat.toDigits 10 number

/-- A number in hexadecimal, after the mark for that base. -/
def hexadecimal (number : Nat) : Text :=
  -- Letters are lower case and no leading zero is written.
  '0' :: 'x' :: Nat.toDigits 16 number

/-- The digit that stands for a number below sixteen. -/
def hexDigit (number : Nat) : Char :=
  -- The digits are listed in order of their value.
  "0123456789abcdef".toList.getD number '0'

/-- The four hexadecimal digits of a number below 65536. -/
def fourHexDigits (number : Nat) : Text :=
  -- Leading zeros are kept.
  [hexDigit (number / 4096 % 16), hexDigit (number / 256 % 16), hexDigit (number / 16 % 16),
    hexDigit (number % 16)]

end Smali.Text
