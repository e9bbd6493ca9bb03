import Smali.Field
import Smali.Method

/-! A list of strings is built by a block of instructions before the first return of a body. -/

namespace Smali.ArrayBlock

/-- The number of registers that the block uses. -/
def registerCount : Nat :=
  -- One holds the array, one an index and one an element.
  3

/-- The opcode that puts a number into a register. -/
def constOpcode (number : Nat) : Text :=
  -- The short form holds a signed number of 16 bits.
  if number ≤ 0x7fff then "const/16".toList else "const".toList

/-- A line that puts a number into a register. -/
def constLine (indent register : Text) (number : Nat) : Text :=
  -- The number is written in hexadecimal.
  indent ++ constOpcode number ++ ' ' :: register ++ ", ".toList ++
    Text.hexadecimal number ++ ['\n']

/-- The lines that store one element of the array. -/
def elementLines (indent : Text) (index : Nat) (value : Text) : Text :=
  -- An empty line sets the element apart.
  '\n' :: constLine indent "v1".toList index ++
    indent ++ "const-string v2, \"".toList ++ Text.escape value ++ "\"\n".toList ++
    indent ++ "aput-object v2, v0, v1\n".toList

/-- The lines that build an array of strings and store it in a static field. -/
def lines (indent : Text) (values : List Text) (field : Text) : Text :=
  -- The array is made first, then filled in order, then stored.
  constLine indent "v0".toList values.length ++
    indent ++ "new-array v0, v0, ".toList ++ stringArray ++ '\n' ::
    (values.zipIdx.flatMap fun (value, index) => elementLines indent index value) ++
    '\n' :: indent ++ "sput-object v0, ".toList ++ field ++ "\n\n".toList

/-- The directives that give the number of registers of a body. -/
def countDirectives : List Text :=
  -- The first leaves the parameters out of the count.
  [".locals".toList, ".registers".toList]

/-- The directive for the number of registers that a line opens with. -/
def countDirective? (line : Line) : Option Text :=
  -- A line opens with one of them at most.
  countDirectives.find? fun directive => line.opensWith directive

/-- A register count that a line gives behind a directive, unless it gives anything else. -/
def count? (directive : Text) (line : Line) : Option Nat :=
  -- The count fills the rest of the line and is not negative.
  match Literal.splitInteger (Text.trim (line.trimmed.drop directive.length)) with
  | some (value, []) =>
    if value.toInt < 0 || 0x100000000 ≤ value.toInt then none else some value.toInt.toNat
  | _ => none

/-- A line with a register count of at least a given number, or the line as it is. -/
def raiseCount (least : Nat) (line : Line) : Text :=
  -- Blanks around the directive and the count stay.
  match countDirective? line with
  | none => line.piece
  | some directive =>
    match count? directive line with
    | none => line.piece
    | some count =>
      if count < least then
        line.indent ++ directive ++ ' ' :: Text.decimal least ++ line.trail ++ line.ending
      else line.piece

/-- A body whose first register count is at least a given number. -/
def ensureRegisters (least : Nat) (body : Text) : Text :=
  -- Later counts and a body without one are left alone.
  let isOther := fun line => (countDirective? line).isNone
  match (Text.lines body).dropWhile isOther with
  | [] => body
  | line :: after =>
    ((Text.lines body).takeWhile isOther).flatMap Line.piece ++ raiseCount least line ++
      after.flatMap Line.piece

/-- The line holds no return instruction. -/
def isNoReturn (line : Line) : Bool :=
  -- The line is decoded on its own.
  !(Instruction.decode line.content).isReturn

/-- A body that builds an array of strings for a field before its first return. -/
def inject (body : Text) (values : List Text) (field : Text) : Except Error Text :=
  -- The block takes over the indentation of the return.
  match (Text.lines body).dropWhile isNoReturn with
  | [] => refuse (.noReturn field)
  | line :: after =>
    .ok (ensureRegisters registerCount
      (((Text.lines body).takeWhile isNoReturn).flatMap Line.piece ++
        lines line.indent values field ++ (line :: after).flatMap Line.piece))

end Smali.ArrayBlock
