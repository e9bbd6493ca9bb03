import Smali.Field
import Smali.Header
import Smali.Method

/-! A class text is kept whole, beside the class, the fields and the methods that it declares. -/

namespace Smali

/-- A field declaration that cannot be read and was left out. -/
structure Diagnostic where
  /-- The number of the line, where the first line has number one. -/
  line : Nat
  /-- The line without blanks at its ends. -/
  text : Text
  /-- Why it cannot be read. -/
  error : Error
  deriving DecidableEq, Repr

/-- What is wrong with a line, for a reader. -/
def Diagnostic.display (diagnostic : Diagnostic) : Text :=
  -- The line itself comes last.
  "line ".toList ++ Text.decimal diagnostic.line ++ ": ".toList ++ diagnostic.error.display ++
    " (".toList ++ Text.quoted diagnostic.text ++ ")".toList

/-- The text of one class and what it declares. -/
structure ClassText where
  /-- The whole text. -/
  text : Text
  /-- The class. -/
  descriptor : Text
  /-- The modifier words of the class in order. -/
  modifiers : List Text
  /-- The superclass. -/
  superclass : Text
  /-- The fields in the order of their declarations. -/
  fields : List Field
  /-- The methods in the order of their headers. -/
  methods : List Method
  /-- The field declarations that were left out. -/
  diagnostics : List Diagnostic
  deriving DecidableEq, Repr

namespace ClassText

/-- A method whose header has been read and whose terminator is still to come. -/
structure OpenMethod where
  /-- The header line. -/
  header : Line
  /-- The pieces of the body that have been read, the last first. -/
  pieces : List Text

/-- What has been read of the members of a class, the last first. -/
structure Reading where
  /-- The method that the next line belongs to. -/
  opened : Option OpenMethod := none
  /-- The fields that have been read. -/
  fields : List Field := []
  /-- The methods that have been read. -/
  methods : List Method := []
  /-- The field declarations that have been left out. -/
  diagnostics : List Diagnostic := []

/-- Reads a line that stands outside every method. -/
def readOutside (owner : Text) (reading : Reading) (line : Line) : Except Error Reading :=
  -- Lines that declare no member are passed over.
  if line.opensWith ".method".toList then .ok { reading with opened := some ⟨line, []⟩ }
  else if line.opensWith ".end method".toList then
    refuse (.terminatorAlone (line.number + 1) owner)
  else if line.opensWith ".field".toList then
    match Field.parse owner line.content with
    | .ok field => .ok { reading with fields := field :: reading.fields }
    | .error error =>
      .ok { reading with
        diagnostics := ⟨line.number + 1, line.trimmed, error⟩ :: reading.diagnostics }
  else .ok reading

/-- Reads a line that stands behind the header of a method. -/
def readInside (owner : Text) (reading : Reading) (method : OpenMethod) (line : Line) :
    Except Error Reading :=
  -- All lines before the terminator make up the body.
  if line.opensWith ".method".toList then
    refuse (.methodInsideMethod (method.header.number + 1) method.header.trimmed (line.number + 1))
  else if line.opensWith ".end method".toList then
    match concerning owner
      (Method.parse owner method.header.content method.pieces.reverse.flatten) with
    | .ok complete => .ok { reading with opened := none, methods := complete :: reading.methods }
    | .error error => .error error
  else .ok { reading with opened := some { method with pieces := line.piece :: method.pieces } }

/-- Reads lines one by one. -/
def readLines (owner : Text) (reading : Reading) : List Line → Except Error Reading
  -- The first line that cannot be read ends the reading.
  | [] => .ok reading
  | line :: rest =>
    let next := match reading.opened with
      | none => readOutside owner reading line
      | some method => readInside owner reading method line
    match next with
    | .ok reading => readLines owner reading rest
    | .error error => .error error

/-- Reads the members of a class from the lines of its text. -/
def readMembers (owner : Text) (lines : List Line) : Except Error Reading :=
  -- Every method has to be closed before the text ends.
  match readLines owner {} lines with
  | .error error => .error error
  | .ok reading =>
    match reading.opened with
    | some method =>
      refuse (.methodNotClosed (method.header.number + 1) method.header.trimmed owner)
    | none => .ok reading

/-- Reads the class header from the first line that opens with its directive. -/
def readHeader (lines : List Line) : Except Error ClassHeader :=
  -- Later lines with the directive are passed over.
  match lines.find? fun line => line.opensWith ".class".toList with
  | some line => Header.parseClass line.content
  | none => refuse .noClassHeader

/-- Reads the superclass from the first line that opens with its directive. -/
def readSuper (owner : Text) (lines : List Line) : Except Error Text :=
  -- Later lines with the directive are passed over.
  match lines.find? fun line => line.opensWith ".super".toList with
  | some line => concerning owner (Header.parseSuper line.content)
  | none => refuse (.noSuperLine owner)

/-- Reads a class from its text. -/
def parse (text : Text) : Except Error ClassText := do
  -- The header comes first because the members are named after the class.
  let lines := Text.lines text
  let header ← readHeader lines
  let superclass ← readSuper header.descriptor lines
  let reading ← readMembers header.descriptor lines
  return {
    text := text
    descriptor := header.descriptor
    modifiers := header.modifiers
    superclass := superclass
    fields := reading.fields.reverse
    methods := reading.methods.reverse
    diagnostics := reading.diagnostics.reverse }

/-- The dotted name of the class. -/
def dottedName (source : ClassText) : Text :=
  -- The descriptor stands in where there is no dotted name.
  match Descriptor.toDotted source.descriptor with
  | .ok name => name
  | .error _ => source.descriptor

/-- The access flags that the modifier words of the class name. -/
def flags (source : ClassText) : AccessFlags :=
  -- Unknown words name none.
  AccessFlags.ofModifiers source.modifiers

/-- A change of a member is still to be written into the text. -/
def isDirty (source : ClassText) : Bool :=
  -- One member suffices.
  source.fields.any (·.dirty) || source.methods.any (·.dirty)

end ClassText

end Smali
