import Smali.ClassText.Basic

/-! Members of a class are found, and changed, by references with or without the class. -/

namespace Smali.ClassText

/-- The member that a reference names, unless it names one of another class. -/
def memberPart? (owner reference : Text) : Option Text :=
  -- A reference without an arrow names a member of any class.
  match Text.splitOnce arrow reference with
  | some (named, member) => if named = owner then some member else none
  | none => some reference

/-- The position of the first field with a reference, with or without the class. -/
def fieldIndex? (reference : Text) (source : ClassText) : Option Nat :=
  -- The present names and types count.
  (memberPart? source.descriptor reference).bind fun member =>
    source.fields.findIdx? fun field => field.member == member

/-- The first field with a reference, with or without the class. -/
def field? (reference : Text) (source : ClassText) : Option Field :=
  -- The position tells which one.
  (source.fieldIndex? reference).bind fun index => source.fields[index]?

/-- Changes the first field with a reference, where there is one. -/
def modifyField (reference : Text) (change : Field → Field) (source : ClassText) : ClassText :=
  -- The other fields stay in their places.
  match source.fieldIndex? reference with
  | some index => { source with fields := source.fields.modify index change }
  | none => source

/-- The position of the first method with a reference, with or without the class. -/
def methodIndex? (reference : Text) (source : ClassText) : Option Nat :=
  -- Overloads differ in their signatures.
  (memberPart? source.descriptor reference).bind fun member =>
    source.methods.findIdx? fun method => method.signature == member

/-- The first method with a reference, with or without the class. -/
def method? (reference : Text) (source : ClassText) : Option Method :=
  -- The position tells which one.
  (source.methodIndex? reference).bind fun index => source.methods[index]?

/-- Changes the first method with a reference, where there is one. -/
def modifyMethod (reference : Text) (change : Method → Method) (source : ClassText) : ClassText :=
  -- The other methods stay in their places.
  match source.methodIndex? reference with
  | some index => { source with methods := source.methods.modify index change }
  | none => source

end Smali.ClassText
