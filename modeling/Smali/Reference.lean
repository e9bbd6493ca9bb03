import Smali.Descriptor
import Smali.Text.Blank

/-! References name a class, or a field or method together with the class that it belongs to. -/

namespace Smali

/-- A reference to a field. -/
structure FieldRef where
  /-- The class that the field belongs to. -/
  owner : Text
  /-- The name of the field. -/
  name : Text
  /-- The type of the field. -/
  descriptor : Text
  deriving DecidableEq, Repr

/-- A reference to a method. -/
structure MethodRef where
  /-- The class that the method belongs to. -/
  owner : Text
  /-- The name of the method. -/
  name : Text
  /-- The parameters in parentheses and the return type. -/
  descriptor : Text
  deriving DecidableEq, Repr

/-- Anything that can be renamed. -/
inductive Reference where
  /-- A class. -/
  | ofClass (descriptor : Text)
  /-- A field. -/
  | ofField (field : FieldRef)
  /-- A method. -/
  | ofMethod (method : MethodRef)
  deriving DecidableEq, Repr

/-- The arrow between a class and its member. -/
def arrow : Text :=
  -- Neither a class nor a member needs it inside.
  "->".toList

/-- A character that may stand in the name of a member. -/
def isMemberChar (c : Char) : Bool :=
  -- A name ends before its type, its parameters or a blank.
  c != ':' && c != '(' && !Text.isBlank c

namespace FieldRef

/-- The name and the type of the field. -/
def member (field : FieldRef) : Text :=
  -- A colon stands between them.
  field.name ++ ':' :: field.descriptor

/-- The whole reference as it is written. -/
def display (field : FieldRef) : Text :=
  -- The arrow stands between the class and the member.
  field.owner ++ arrow ++ field.member

/-- Takes a field reference from the start of a text. -/
def split (text : Text) : Option (FieldRef × Text) :=
  -- The class is all that stands before the first arrow.
  match Text.splitOnce arrow text with
  | none => none
  | some (owner, rest) =>
    match rest.dropWhile isMemberChar with
    | ':' :: rest' =>
      (Descriptor.splitType rest').map fun (descriptor, behind) =>
        (⟨Text.trim owner, rest.takeWhile isMemberChar, descriptor⟩, behind)
    | _ => none

end FieldRef

namespace MethodRef

/-- The name, the parameters and the return type of the method. -/
def member (method : MethodRef) : Text :=
  -- The parentheses keep them apart.
  method.name ++ method.descriptor

/-- The whole reference as it is written. -/
def display (method : MethodRef) : Text :=
  -- The arrow stands between the class and the member.
  method.owner ++ arrow ++ method.member

/-- Takes parameters in parentheses and a return type from the start of a text. -/
def splitPrototype : Text → Option (Text × Text)
  -- The types between the parentheses are written without separators.
  | '(' :: rest =>
    match Descriptor.splitTypes rest with
    | (parameters, ')' :: rest') =>
      (Descriptor.splitReturn rest').map fun (returned, behind) =>
        ('(' :: parameters.flatten ++ ')' :: returned, behind)
    | _ => none
  | _ => none

/-- Takes a method reference from the start of a text. -/
def split (text : Text) : Option (MethodRef × Text) :=
  -- The class is all that stands before the first arrow.
  match Text.splitOnce arrow text with
  | none => none
  | some (owner, rest) =>
    (splitPrototype (rest.dropWhile isMemberChar)).map fun (descriptor, behind) =>
      (⟨Text.trim owner, rest.takeWhile isMemberChar, descriptor⟩, behind)

end MethodRef

namespace Reference

/-- Reads a reference, where an arrow decides between a member and a class. -/
def parse (text : Text) : Except Error Reference :=
  -- A member reference has to use the whole text, and a method is tried before a field.
  let text := Text.trim text
  if Text.contains arrow text then
    match MethodRef.split text with
    | some (method, []) => .ok (.ofMethod method)
    | _ =>
      match FieldRef.split text with
      | some (field, []) => .ok (.ofField field)
      | _ => refuse (.notMemberReference text)
  else if Descriptor.isClass text then .ok (.ofClass text)
  else refuse (.notClassReference text)

/-- The class that is named or that the member belongs to. -/
def owner : Reference → Text
  -- Every reference has one.
  | ofClass descriptor => descriptor
  | ofField field => field.owner
  | ofMethod method => method.owner

/-- What stands behind the arrow, for a member. -/
def member? : Reference → Option Text
  -- A class has no arrow.
  | ofClass _ => none
  | ofField field => some field.member
  | ofMethod method => some method.member

/-- The member behind a space, as it stands in its declaration. -/
def anchored? (reference : Reference) : Option Text :=
  -- The space keeps it from matching the end of a longer name.
  reference.member?.map fun member => ' ' :: member

/-- The reference names a member and not a class. -/
def isMember (reference : Reference) : Bool :=
  -- Only members have something behind the arrow.
  reference.member?.isSome

/-- Two references are of the same sort. -/
def sameSort : Reference → Reference → Bool
  -- Classes, fields and methods are the sorts.
  | ofClass _, ofClass _ | ofField _, ofField _ | ofMethod _, ofMethod _ => true
  | _, _ => false

/-- The reference as it is written. -/
def display : Reference → Text
  -- Each sort has its own form.
  | ofClass descriptor => descriptor
  | ofField field => field.display
  | ofMethod method => method.display

end Reference

end Smali
