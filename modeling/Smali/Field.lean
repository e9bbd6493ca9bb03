import Smali.AccessFlags
import Smali.Reference
import Smali.Text.Escape

/-! A field is a view on its declaration line, with changes that are still to be written. -/

namespace Smali

/-- The value that a declaration gives to its field. -/
inductive FieldValue where
  /-- A string, held without its escapes. -/
  | str (text : Text)
  /-- Any other literal, as it is written. -/
  | raw (text : Text)
  deriving DecidableEq, Repr

namespace FieldValue

/-- Reads the literal of a declaration. -/
def ofLiteral (literal : Text) : FieldValue :=
  -- Quotes at both ends make a string of it.
  if 2 ≤ literal.length && ['"'].isPrefixOf literal && Text.endsWith '"' literal then
    .str (Text.unescape (literal.drop 1).dropLast)
  else .raw literal

/-- The value itself. -/
def content : FieldValue → Text
  -- Strings are given without their escapes.
  | str text | raw text => text

/-- The value as a declaration writes it. -/
def display : FieldValue → Text
  -- Only strings are quoted.
  | str text => '"' :: Text.escape text ++ ['"']
  | raw text => text

end FieldValue

/-- A value that is still to be written into the class text. -/
inductive PendingValue where
  /-- The value has not changed. -/
  | unchanged
  /-- A string that the declaration can hold. -/
  | scalar (text : Text)
  /-- A list of strings that the static initializer has to build. -/
  | composite (values : List Text)
  deriving DecidableEq, Repr

/-- A field of a class. -/
structure Field where
  /-- The class that the field belongs to. -/
  owner : Text
  /-- The modifier words in order. -/
  modifiers : List Text
  /-- The name. -/
  name : Text
  /-- The type. -/
  type : Text
  /-- The value that the declaration gives. -/
  value : Option FieldValue
  /-- The declaration as it stands in the class text, without blanks at its ends. -/
  declaration : Text
  /-- The reference that the instructions of the class text use. -/
  declaredReference : Text
  /-- The declaration as it was before the last value was given. -/
  previous : Option Text
  /-- The value that is still to be written. -/
  pending : PendingValue
  /-- Something is still to be written. -/
  dirty : Bool
  deriving DecidableEq, Repr

/-- The type of a list of strings. -/
def stringArray : Text :=
  -- It is an array of the class of strings.
  "[Ljava/lang/String;".toList

namespace Field

/-- What follows the directive of a field declaration and the spaces behind it. -/
def afterDirective? (declaration : Text) : Option Text :=
  -- One space or tab is needed.
  match Text.afterPrefix? ".field".toList declaration with
  | some (c :: rest) => if Text.isSpace c then some (Text.skipSpaces rest) else none
  | _ => none

/-- Parts a declaration without its directive into words and the literal behind the equals sign. -/
def partLiteral (body : Text) : List Text × Option Text :=
  -- The equals sign stands between single spaces.
  match Text.splitOnce " = ".toList body with
  | some (words, literal) => (Text.words words, some (Text.trim literal))
  | none => (Text.words body, none)

/-- Reads a field of a class from its declaration line. -/
def parse (owner line : Text) : Except Error Field :=
  -- The last word before the equals sign holds the name and the type.
  let declaration := Text.trim line
  match afterDirective? declaration with
  | none => refuse (.notFieldLine declaration)
  | some body =>
    let (words, literal) := partLiteral body
    match words.reverse with
    | [] => refuse (.noNameAndType declaration)
    | last :: modifiers =>
      match Text.splitOnce [':'] last with
      | none => refuse (.noColon declaration)
      | some (name, type) =>
        if name.isEmpty || !Descriptor.isType type then refuse (.notNameAndType last)
        else .ok {
          owner := owner
          modifiers := modifiers.reverse
          name := name
          type := type
          value := literal.map FieldValue.ofLiteral
          declaration := declaration
          declaredReference := (FieldRef.mk owner name type).display
          previous := none
          pending := .unchanged
          dirty := false }

/-- The access flags that the modifier words name. -/
def flags (field : Field) : AccessFlags :=
  -- Unknown words name none.
  AccessFlags.ofModifiers field.modifiers

/-- The field belongs to the class and not to an object. -/
def isStatic (field : Field) : Bool :=
  -- A modifier word says so.
  field.flags.contains AccessFlags.staticFlag

/-- The field may not be changed. -/
def isFinal (field : Field) : Bool :=
  -- A modifier word says so.
  field.flags.contains AccessFlags.finalFlag

/-- The reference made of the present name and type. -/
def fieldRef (field : Field) : FieldRef :=
  -- The class never changes.
  ⟨field.owner, field.name, field.type⟩

/-- The name and the type as references write them. -/
def member (field : Field) : Text :=
  -- The reference without its class is meant.
  field.fieldRef.member

/-- The present reference as it is written. -/
def reference (field : Field) : Text :=
  -- The present name and type count, not the declared ones.
  field.fieldRef.display

/-- The declaration that the present state of the field asks for. -/
def declarationText (field : Field) : Text :=
  -- Single spaces stand between all words.
  let value := match field.value with
    | some value => [['='], value.display]
    | none => []
  [' '].intercalate (".field".toList :: field.modifiers ++ field.member :: value)

/-- Adds a modifier word at the end, or removes it wherever it stands. -/
def setModifier (word : Text) (wanted : Bool) (field : Field) : Field :=
  -- A word that is already as wanted changes nothing.
  let present := field.modifiers.contains word
  if wanted && !present then
    { field with modifiers := field.modifiers ++ [word], dirty := true }
  else if !wanted && present then
    { field with modifiers := field.modifiers.filter (· != word), dirty := true }
  else field

/-- Makes the field belong to the class or to objects. -/
def setStatic (wanted : Bool) (field : Field) : Field :=
  -- One modifier word decides.
  field.setModifier "static".toList wanted

/-- Makes the field constant or not. -/
def setFinal (wanted : Bool) (field : Field) : Field :=
  -- One modifier word decides.
  field.setModifier "final".toList wanted

/-- Gives the field another name. -/
def setName (name : Text) (field : Field) : Field :=
  -- The declared reference stays until the change is written.
  { field with name := name, dirty := true }

/-- Gives the field another type. -/
def setType (type : Text) (field : Field) : Field :=
  -- The declared reference stays until the change is written.
  { field with type := type, dirty := true }

/-- Gives the field a string as its value, which only a static field can have. -/
def setValue (value : Text) (field : Field) : Field :=
  -- The field becomes static unless it is so already.
  { field with
    previous := some field.declarationText
    value := some (.str value)
    pending := .scalar value
    modifiers := if field.isStatic then field.modifiers else field.modifiers ++ ["static".toList]
    dirty := true }

/-- Gives the field a list of strings as its value. -/
def setStringArray (values : List Text) (field : Field) : Except Error Field :=
  -- Only a field of that type can hold it.
  if field.type = stringArray then
    .ok { field with pending := .composite values, dirty := true }
  else refuse (.notListField field.reference stringArray)

/-- The modifier words of the declaration in the class text. -/
def declaredModifiers (field : Field) : List Text :=
  -- They stand between the directive and the last word before the equals sign.
  let words := match Text.splitOnce " = ".toList field.declaration with
    | some (words, _) => words
    | none => field.declaration
  ((Text.words words).drop 1).dropLast

/-- The declaration line has to be written again. -/
def rewritesDeclaration (field : Field) : Bool :=
  -- It holds the value, the name, the type and the modifiers, but no list.
  let valueChanged := match field.pending with
    | .scalar _ => true
    | _ => false
  field.dirty && (valueChanged || field.reference != field.declaredReference ||
    field.declaredModifiers != field.modifiers)

/-- The field once its changes have been written, with the declaration that was written, if any. -/
def settled (written : Option Text) (field : Field) : Field :=
  -- From now on the class text uses the present reference.
  { field with
    declaration := written.getD field.declaration
    declaredReference := field.reference
    previous := none
    pending := .unchanged
    dirty := false }

end Field

end Smali
