import Smali.AccessFlags
import Smali.Instruction
import Smali.Text.Comment
import Smali.Text.Line

/-! A method is a view on its header line and on the body that follows it. -/

namespace Smali

/-- A method of a class. -/
structure Method where
  /-- The class that the method belongs to. -/
  owner : Text
  /-- The modifier words in order. -/
  modifiers : List Text
  /-- The name. -/
  name : Text
  /-- The parameter types as they are written between the parentheses. -/
  parameterRun : Text
  /-- The parameter types one by one. -/
  parameters : List Text
  /-- The return type. -/
  returnType : Text
  /-- The text between the header line and the terminator line. -/
  body : Text
  /-- The body is still to be written. -/
  dirty : Bool
  deriving DecidableEq, Repr

/-- The name and the types of the static initializer of a class. -/
def staticInitializer : Text :=
  -- It takes nothing and gives nothing back.
  "<clinit>()V".toList

namespace Method

/-- Parts a signature into the name, the parameter run and the return type. -/
def partSignature (word : Text) : Option (Text × Text × Text) := do
  -- The first parenthesis ends the name, and the return type has to use up the word.
  let (name, rest) ← Text.splitOnce ['('] word
  let (parameterRun, rest) ← Text.splitOnce [')'] rest
  match Descriptor.splitReturn rest with
  | some (returnType, []) => some (name, parameterRun, returnType)
  | _ => none

/-- Reads a method of a class from its header line and its body. -/
def parse (owner line body : Text) : Except Error Method := do
  -- The last word of the header, without a comment, is the signature.
  let header := Text.codePart (Text.trim line)
  match Text.afterPrefix? ".method".toList header with
  | none => refuse (.notMethodLine header)
  | some rest =>
    match (Text.words rest).reverse with
    | [] => refuse (.noSignature header)
    | word :: modifiers =>
      match partSignature word with
      | none => refuse (.notSignature word)
      | some (name, parameterRun, returnType) =>
        if name.isEmpty then refuse (.emptyMethodName header)
        else
          let parameters ← concerning ("method ".toList ++ name) (Descriptor.segment parameterRun)
          return {
            owner := owner
            modifiers := modifiers.reverse
            name := name
            parameterRun := parameterRun
            parameters := parameters
            returnType := returnType
            body := body
            dirty := false }

/-- The access flags that the modifier words name. -/
def flags (method : Method) : AccessFlags :=
  -- Unknown words name none.
  AccessFlags.ofModifiers method.modifiers

/-- The parameters in parentheses and the return type. -/
def prototype (method : Method) : Text :=
  -- The parentheses stand also without parameters.
  '(' :: method.parameterRun ++ ')' :: method.returnType

/-- The reference to the method. -/
def methodRef (method : Method) : MethodRef :=
  -- Nothing of it can be changed.
  ⟨method.owner, method.name, method.prototype⟩

/-- The name with the parameters and the return type, which is the last word of the header. -/
def signature (method : Method) : Text :=
  -- The reference without its class is meant.
  method.methodRef.member

/-- The reference as it is written. -/
def reference (method : Method) : Text :=
  -- The class stands before the arrow.
  method.methodRef.display

/-- The method is the static initializer. -/
def isStaticInitializer (method : Method) : Bool :=
  -- Modifiers do not count.
  method.signature == staticInitializer

/-- Puts a text in the place of the body. -/
def setBody (body : Text) (method : Method) : Method :=
  -- The text is taken as it is.
  { method with body := body, dirty := true }

/-- Says whether the body is still to be written. -/
def setDirty (dirty : Bool) (method : Method) : Method :=
  -- The body stays.
  { method with dirty := dirty }

/-- The header line that the method asks for. -/
def declaration (method : Method) : Text :=
  -- Single spaces stand between all words.
  [' '].intercalate (".method".toList :: method.modifiers ++ [method.signature])

/-- The instructions of the body, one for each line. -/
def instructions (method : Method) : List Instruction :=
  -- No line depends on another.
  (Text.lines method.body).map fun line => Instruction.decode line.content

/-- The method as a class text holds it. -/
def toText (method : Method) : Text :=
  -- The body brings its own line breaks.
  method.declaration ++ '\n' :: method.body ++ ".end method\n".toList

end Method

end Smali
