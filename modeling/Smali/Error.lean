import Smali.Text.Digits

/-! Errors are causes of the domain, and each cause has one kind, one severity and one wording. -/

namespace Smali

/-- The kinds into which causes fall. -/
inductive ErrorKind where
  /-- The class header is missing or not of the right form, or its class is taken. -/
  | malformedHeader
  /-- The superclass line is missing or not of the right form. -/
  | missingSuper
  /-- A text is used as a class descriptor and is none. -/
  | notAClassDescriptor
  /-- A method header or its parameters cannot be read. -/
  | malformedSignature
  /-- A field declaration cannot be read. -/
  | malformedField
  /-- Method headers and terminators do not alternate. -/
  | unterminatedMethod
  /-- A list value has no static initializer to be built in. -/
  | noStaticInitializer
  /-- The place that an edit needs is not in the text. -/
  | anchorNotFound
  /-- Two edits share a byte. -/
  | overlappingEdit
  /-- A list value is given to a field of another type. -/
  | typeMismatch
  /-- A text is no reference, or a renaming between two references is refused. -/
  | invalidReference
  /-- The file system refuses. -/
  | io
  deriving DecidableEq, Repr

/-- How far an error reaches. -/
inductive Severity where
  /-- The whole class text is unusable. -/
  | fatal
  /-- One declaration was left out. -/
  | recoverable
  /-- Changes could not be written, and nothing was altered. -/
  | patch
  deriving DecidableEq, Repr

/-- An error of a kind reaches as far as what it concerns. -/
def ErrorKind.severity : ErrorKind → Severity
  -- Only fields are optional, and only anchors and edits concern writing changes.
  | .malformedField => .recoverable
  | .anchorNotFound | .overlappingEdit => .patch
  | _ => .fatal

/-- The reasons for which the file system refuses. -/
inductive FileFailure where
  /-- Nothing has that path. -/
  | notFound
  /-- Something has that path already. -/
  | alreadyExists
  /-- A directory was needed. -/
  | notDirectory
  /-- A file was needed. -/
  | isDirectory
  /-- A path or one of its names is longer than the system allows. -/
  | nameTooLong
  /-- A path holds the character zero. -/
  | zeroInName
  /-- The bytes of a file are no text. -/
  | invalidText
  deriving DecidableEq, Repr

/-- The file system's wording for a reason. -/
def FileFailure.message (failure : FileFailure) : Text :=
  -- Reasons of the system itself carry its number.
  String.toList <| match failure with
    | .notFound => "No such file or directory (os error 2)"
    | .alreadyExists => "File exists (os error 17)"
    | .notDirectory => "Not a directory (os error 20)"
    | .isDirectory => "Is a directory (os error 21)"
    | .nameTooLong => "File name too long (os error 36)"
    | .zeroInName => "file name contained an unexpected NUL byte"
    | .invalidText => "stream did not contain valid UTF-8"

/-- Why something was refused. -/
inductive Cause where
  /-- A line has not the form of a class header. -/
  | notClassHeader (line : Text)
  /-- The last word of a class header is no class descriptor. -/
  | headerDescriptor (descriptor : Text)
  /-- No line opens with the class directive. -/
  | noClassHeader
  /-- A class was loaded before from a path. -/
  | classTaken (owner path : Text)
  /-- A line has not the form of a superclass line. -/
  | notSuperLine (line : Text)
  /-- No line of a class opens with the superclass directive. -/
  | noSuperLine (owner : Text)
  /-- A text without the form of a class descriptor has no dotted name. -/
  | noDottedName (descriptor : Text)
  /-- A text without the form of a class descriptor has no place in a directory. -/
  | noClassPath (descriptor : Text)
  /-- A run of characters is no sequence of types. -/
  | notParameters (run : Text)
  /-- A line does not open with the method directive. -/
  | notMethodLine (line : Text)
  /-- A method header names no method. -/
  | noSignature (line : Text)
  /-- The last word of a method header is no name with parameters and a return type. -/
  | notSignature (word : Text)
  /-- A method header has a signature without a name. -/
  | emptyMethodName (line : Text)
  /-- A line does not open with the field directive. -/
  | notFieldLine (line : Text)
  /-- A field declaration names no field. -/
  | noNameAndType (declaration : Text)
  /-- The last word of a field declaration has no colon. -/
  | noColon (declaration : Text)
  /-- The last word of a field declaration is no name with a type. -/
  | notNameAndType (word : Text)
  /-- A method header stands inside another method. -/
  | methodInsideMethod (line : Nat) (header : Text) (next : Nat)
  /-- A terminator stands outside every method. -/
  | terminatorAlone (line : Nat) (owner : Text)
  /-- The text ends inside a method. -/
  | methodNotClosed (line : Nat) (header owner : Text)
  /-- A list value needs a static initializer that the class does not have. -/
  | noInitializer (field initializer : Text)
  /-- The static initializer has no return to build a list value before. -/
  | noReturn (field : Text)
  /-- A declaration is not in the text. -/
  | declarationGone (declaration : Text)
  /-- A method is not in the text. -/
  | methodGone (signature : Text)
  /-- An edit covers no byte. -/
  | emptyEdit (span : Span)
  /-- An edit does not lie in the text between characters. -/
  | editOutside (span : Span)
  /-- An edit shares a byte with an earlier one. -/
  | editOverlaps (span : Span)
  /-- A list value needs a field of another type. -/
  | notListField (field wanted : Text)
  /-- A text with an arrow is neither a field nor a method reference. -/
  | notMemberReference (text : Text)
  /-- A text without an arrow is no class descriptor. -/
  | notClassReference (text : Text)
  /-- A renaming goes from one sort of reference to another. -/
  | sortsDiffer (old new : Text)
  /-- A renaming ends at a class that is there already. -/
  | classExists (old new : Text)
  /-- A renaming moves a member to another class. -/
  | classesDiffer (old new : Text)
  /-- A renaming ends at a member that is there already. -/
  | memberExists (old new : Text)
  /-- The file system refuses. -/
  | file (failure : FileFailure)
  /-- A class has nowhere to be saved. -/
  | noPath (owner : Text)
  /-- A caller reports a cause of a kind in words of its own. -/
  | reported (kind : ErrorKind) (words : Text)
  deriving DecidableEq, Repr

namespace Cause

/-- The kind of a cause. -/
def kind : Cause → ErrorKind
  -- Causes are grouped by what they concern.
  | notClassHeader _ | headerDescriptor _ | noClassHeader | classTaken _ _ => .malformedHeader
  | notSuperLine _ | noSuperLine _ => .missingSuper
  | noDottedName _ | noClassPath _ => .notAClassDescriptor
  | notParameters _ | notMethodLine _ | noSignature _ | notSignature _ | emptyMethodName _ =>
    .malformedSignature
  | notFieldLine _ | noNameAndType _ | noColon _ | notNameAndType _ => .malformedField
  | methodInsideMethod _ _ _ | terminatorAlone _ _ | methodNotClosed _ _ _ => .unterminatedMethod
  | noInitializer _ _ => .noStaticInitializer
  | noReturn _ | declarationGone _ | methodGone _ | emptyEdit _ | editOutside _ => .anchorNotFound
  | editOverlaps _ => .overlappingEdit
  | notListField _ _ => .typeMismatch
  | notMemberReference _ | notClassReference _ | sortsDiffer _ _ | classExists _ _
  | classesDiffer _ _ | memberExists _ _ => .invalidReference
  | file _ | noPath _ => .io
  | reported kind _ => kind

/-- A span as messages write it. -/
def spanText (span : Span) : Text :=
  -- Two dots stand between the offsets.
  Text.decimal span.start ++ "..".toList ++ Text.decimal span.stop

/-- The wording of a cause. -/
def message : Cause → Text
  -- Texts taken from the input stand between grave accents, except names and references.
  | notClassHeader line => "not a class header: ".toList ++ Text.quoted line
  | headerDescriptor descriptor =>
    "class descriptor ".toList ++ Text.quoted descriptor ++ " must look like Lpkg/Name;".toList
  | noClassHeader => "no .class line".toList
  | classTaken owner path =>
    "class ".toList ++ owner ++ " is already defined in ".toList ++ path
  | notSuperLine line => "not a super line: ".toList ++ Text.quoted line
  | noSuperLine owner => "no .super line in ".toList ++ owner
  | noDottedName descriptor =>
    descriptor ++ " is not a class that conforms to the smali grammar".toList
  | noClassPath descriptor => "cannot derive a path from ".toList ++ descriptor
  | notParameters run => "cannot segment parameters ".toList ++ Text.quoted run
  | notMethodLine line => "not a method declaration: ".toList ++ Text.quoted line
  | noSignature line => "missing signature in ".toList ++ Text.quoted line
  | notSignature word =>
    "cannot split ".toList ++ Text.quoted word ++ " into name(params)return".toList
  | emptyMethodName line => "empty method name in ".toList ++ Text.quoted line
  | notFieldLine line => "not a field declaration: ".toList ++ Text.quoted line
  | noNameAndType declaration => "missing name:type in ".toList ++ Text.quoted declaration
  | noColon declaration =>
    "missing ':' between name and type in ".toList ++ Text.quoted declaration
  | notNameAndType word =>
    "cannot split ".toList ++ Text.quoted word ++ " into name and type".toList
  | methodInsideMethod line header next =>
    "line ".toList ++ Text.decimal line ++ " ".toList ++ Text.quoted header ++
      " has no .end method before line ".toList ++ Text.decimal next
  | terminatorAlone line owner =>
    "line ".toList ++ Text.decimal line ++ ": .end method without .method in ".toList ++ owner
  | methodNotClosed line header owner =>
    "line ".toList ++ Text.decimal line ++ " ".toList ++ Text.quoted header ++
      " has no .end method in ".toList ++ owner
  | noInitializer field initializer =>
    field ++ " needs ".toList ++ initializer ++ " to hold its value".toList
  | noReturn field => "no return instruction to insert ".toList ++ field ++ " before".toList
  | declarationGone declaration =>
    "declaration ".toList ++ Text.quoted declaration ++ " is no longer in the text".toList
  | methodGone signature => "method ".toList ++ signature ++ " is no longer in the text".toList
  | emptyEdit span => "empty edit at offset ".toList ++ Text.decimal span.start
  | editOutside span => "edit ".toList ++ spanText span ++ " falls outside the buffer".toList
  | editOverlaps span => "edit ".toList ++ spanText span ++ " overlaps an earlier edit".toList
  | notListField field wanted =>
    field ++ " is not a ".toList ++ wanted ++ " field".toList
  | notMemberReference text =>
    Text.quoted text ++ " is neither a field nor a method reference".toList
  | notClassReference text => Text.quoted text ++ " is not a class descriptor".toList
  | sortsDiffer old new =>
    "cannot rename ".toList ++ old ++ " to ".toList ++ new ++
      ", they are not the same kind".toList
  | classExists old new =>
    "cannot rename ".toList ++ old ++ " to ".toList ++ new ++ ", the class already exists".toList
  | classesDiffer old new =>
    "cannot move ".toList ++ old ++ " to another class as ".toList ++ new
  | memberExists old new =>
    "cannot rename ".toList ++ old ++ " to ".toList ++ new ++ ", the member already exists".toList
  | file failure => failure.message
  | noPath owner => "unable to save, no path set for class ".toList ++ owner
  | reported _ words => words

end Cause

/-- A cause together with what it concerns, the nearest first. -/
structure Error where
  /-- What went wrong. -/
  cause : Cause
  /-- What it concerns, from the inside out. -/
  contexts : List Text := []
  deriving DecidableEq, Repr

namespace Error

/-- Adds what encloses everything named so far. -/
def within (context : Text) (error : Error) : Error :=
  -- Outer contexts come later.
  { error with contexts := error.contexts ++ [context] }

/-- The kind of an error is the kind of its cause. -/
def kind (error : Error) : ErrorKind :=
  -- Contexts do not change the kind.
  error.cause.kind

/-- The severity of an error is the severity of its kind. -/
def severity (error : Error) : Severity :=
  -- Contexts do not change the severity.
  error.kind.severity

/-- The wording of an error without its contexts. -/
def message (error : Error) : Text :=
  -- Only the cause speaks.
  error.cause.message

/-- The wording of an error with its contexts. -/
def display (error : Error) : Text :=
  -- The first context follows one connecting word and each further one another.
  match error.contexts with
  | [] => error.message
  | nearest :: outer =>
    error.message ++ " for ".toList ++ nearest ++
      (outer.map fun context => " of ".toList ++ context).flatten

end Error

/-- Refuses for a cause that needs no context yet. -/
def refuse {α : Type} (cause : Cause) : Except Error α :=
  -- Contexts are added on the way out.
  .error ⟨cause, []⟩

/-- Names what an attempt concerns, should it have failed. -/
def concerning {α : Type} (context : Text) (attempt : Except Error α) : Except Error α :=
  -- A success passes unchanged.
  attempt.mapError (Error.within context)

end Smali
