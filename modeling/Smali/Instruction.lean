import Smali.Literal
import Smali.Reference
import Smali.Register
import Smali.Text.Escape

/-! Each line of a method body is decoded on its own into the instruction that it holds. -/

namespace Smali

/-- The direction of a field access. -/
inductive AccessKind where
  /-- The field is read. -/
  | get
  /-- The field is written. -/
  | put
  deriving DecidableEq, Repr

/-- How an instruction accesses a field. -/
structure FieldAccess where
  /-- Whether the field is read or written. -/
  kind : AccessKind
  /-- Whether the field belongs to the class and not to an object. -/
  isStatic : Bool
  deriving DecidableEq, Repr

/-- What one line of a method body holds. -/
inductive Instruction where
  /-- Nothing but blanks. -/
  | blank
  /-- A comment alone. -/
  | comment (text : Text)
  /-- A label that jumps may name. -/
  | label (text : Text)
  /-- A directive such as a register count. -/
  | directive (text : Text)
  /-- An access to a field. -/
  | fieldAccess (opcode : Text) (access : FieldAccess) (registers : List Text) (field : FieldRef)
  /-- A call of a method; a range is given by its first and its last register. -/
  | invoke (opcode : Text) (registers : List Text) (method : MethodRef)
  /-- A string put into a register. -/
  | constString (register value : Text)
  /-- An integer put into a register. -/
  | const (opcode register : Text) (value : Int64)
  /-- The result of a call moved to a register. -/
  | moveResult (opcode register : Text)
  /-- The end of the method, with the register that holds its result. -/
  | returns (opcode : Text) (register : Option Text)
  /-- Any other line. -/
  | other (text : Text)
  deriving DecidableEq, Repr

namespace Instruction

/-- The endings of field opcodes, one for each width and sort of value. -/
def valueSuffixes : List String :=
  -- The first stands for plain words.
  ["", "-wide", "-object", "-boolean", "-byte", "-char", "-short"]

/-- The opcodes that access fields. -/
def fieldOpcodes : List (Text × FieldAccess) :=
  -- A letter for static or not, a verb and an ending make up each of them.
  [('s', true), ('i', false)].flatMap fun (letter, isStatic) =>
    [("get", AccessKind.get), ("put", AccessKind.put)].flatMap fun (verb, kind) =>
      valueSuffixes.map fun suffix => (letter :: verb.toList ++ suffix.toList, ⟨kind, isStatic⟩)

/-- The opcodes that put an integer into a register. -/
def constOpcodes : List Text :=
  -- Narrow forms come before wide ones.
  ["const", "const/4", "const/16", "const/high16", "const-wide", "const-wide/16", "const-wide/32",
    "const-wide/high16"].map String.toList

/-- The opcodes that put a string into a register. -/
def stringOpcodes : List Text :=
  -- The second form reaches further into the string table.
  ["const-string", "const-string/jumbo"].map String.toList

/-- Reads the operands of a field access. -/
def ofFieldOperands? (opcode : Text) (access : FieldAccess) (operands : Text) :
    Option Instruction := do
  -- The field follows the registers behind a comma.
  let (registers, rest) := Register.splitList operands
  let rest ← Register.skipComma rest
  let (field, _) ← FieldRef.split rest
  return .fieldAccess opcode access registers field

/-- Reads the operands of a call. -/
def ofInvokeOperands? (opcode operands : Text) : Option Instruction := do
  -- The method follows the braces behind a comma.
  let (registers, rest) ← Register.splitBraced operands
  let rest ← Register.skipComma rest
  let (method, _) ← MethodRef.split rest
  return .invoke opcode registers method

/-- Reads the operands of an instruction that puts a string into a register. -/
def ofStringOperands? (operands : Text) : Option Instruction := do
  -- The literal follows the register behind a comma.
  let (register, rest) ← Register.split operands
  let rest ← Register.skipComma rest
  let (inside, _) ← Literal.splitString rest
  return .constString register (Text.unescape inside)

/-- Reads the operands of an instruction that puts an integer into a register. -/
def ofConstOperands? (opcode operands : Text) : Option Instruction := do
  -- The literal follows the register behind a comma.
  let (register, rest) ← Register.split operands
  let rest ← Register.skipComma rest
  let (value, _) ← Literal.splitInteger rest
  return .const opcode register value

/-- Reads the operands that an opcode asks for. -/
def ofOperands? (opcode operands : Text) : Option Instruction :=
  -- The opcode alone decides which form the operands must have.
  match fieldOpcodes.lookup opcode with
  | some access => ofFieldOperands? opcode access operands
  | none =>
    if "invoke-".toList.isPrefixOf opcode then ofInvokeOperands? opcode operands
    else if stringOpcodes.contains opcode then ofStringOperands? operands
    else if constOpcodes.contains opcode then ofConstOperands? opcode operands
    else if "move-result".toList.isPrefixOf opcode then
      (Register.split operands).map fun (register, _) => .moveResult opcode register
    else if opcode = "return-void".toList then some (.returns opcode none)
    else if "return".toList.isPrefixOf opcode then
      (Register.split operands).map fun (register, _) => .returns opcode (some register)
    else none

/-- Reads a line that opens with an opcode. -/
def ofOpcode (line : Text) : Instruction :=
  -- The opcode ends at the first blank, and operands that do not read leave the line as it is.
  let opcode := line.takeWhile fun c => !Text.isBlank c
  let operands := Text.trimStart (line.dropWhile fun c => !Text.isBlank c)
  (ofOperands? opcode operands).getD (.other line)

/-- Decodes one line of a method body. -/
def decode (line : Text) : Instruction :=
  -- The first character tells comments, labels and directives from instructions.
  match Text.trim line with
  | [] => .blank
  | '#' :: rest => .comment (Text.trim rest)
  | ':' :: rest => .label (':' :: rest)
  | '.' :: rest => .directive ('.' :: rest)
  | c :: rest => ofOpcode (c :: rest)

/-- The instruction writes the field with a given reference. -/
def assigns (reference : Text) : Instruction → Bool
  -- The references are compared as they are written.
  | fieldAccess _ access _ field => access.kind == .put && field.display == reference
  | _ => false

/-- The instruction ends the method. -/
def isReturn : Instruction → Bool
  -- With or without a result is the same here.
  | returns _ _ => true
  | _ => false

end Instruction

end Smali
