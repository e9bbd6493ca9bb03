import Smali.ClassText.Basic
import Smali.Method.ArrayBlock
import Smali.Method.Assignments
import Smali.Text.Edit

/-! Changes of members are written into the class text all at once or not at all. -/

namespace Smali.ClassText

/-- A method together with the body that it is about to get, if that is another one. -/
structure Draft where
  /-- The method before the change. -/
  method : Method
  /-- The body that writing the changes of fields gives it. -/
  rewritten : Option Text
  deriving DecidableEq, Repr

namespace Draft

/-- The body that the method is about to have. -/
def body (draft : Draft) : Text :=
  -- Changes of fields build on the body that was set.
  draft.rewritten.getD draft.method.body

/-- The method's block in the text has to be written again. -/
def isWritten (draft : Draft) : Bool :=
  -- Either a field changed the body or somebody set it.
  draft.rewritten.isSome || draft.method.dirty

/-- The method with its changes written. -/
def settled (draft : Draft) : Method :=
  -- Nothing is left to be written.
  { draft.method with body := draft.body, dirty := false }

/-- The draft without the instructions that write a field. -/
def withoutAssignments (field : Text) (draft : Draft) : Draft :=
  -- A body that never writes the field is not touched.
  match Method.withoutAssignments field draft.body with
  | some body => { draft with rewritten := some body }
  | none => draft

end Draft

/-- The changes that have been planned so far. -/
structure Plan where
  /-- What happens to the text. -/
  edits : EditList
  /-- What happens to the methods. -/
  drafts : List Draft

/-- The span of the first line that says a declaration and nothing else. -/
def locateDeclaration (text declaration : Text) : Option Span :=
  -- Blanks around the declaration do not count and are not covered.
  ((Text.lines text).find? fun line => line.trimmed == declaration).map Line.trimmedSpan

/-- The place of a method in a class text. -/
structure MethodPlace where
  /-- From the end of the header line to the end of the terminator. -/
  span : Span
  /-- The terminator with the blanks before it. -/
  terminator : Text
  deriving DecidableEq, Repr

/-- The line is the header of a method with a given signature. -/
def isHeaderOf (signature : Text) (line : Line) : Bool :=
  -- The signature is the last word before any comment.
  line.opensWith ".method".toList &&
    (Text.words (Text.codePart line.content)).getLast? == some signature

/-- The place of the first method with a given signature. -/
def locateMethod (text signature : Text) : Option MethodPlace :=
  -- The terminator is the first one behind the header.
  match (Text.lines text).dropWhile fun line => !isHeaderOf signature line with
  | [] => none
  | header :: rest =>
    (rest.find? fun line => line.opensWith ".end method".toList).map fun last =>
      ⟨⟨header.next, last.trimmedSpan.stop⟩, Text.trimEnd last.content⟩

/-- Lets the static initializer build the list value of a field. -/
def buildArray (field : Field) (values : List Text) : List Draft → Except Error (List Draft)
  -- The first method of that signature is meant.
  | [] => refuse (.noInitializer field.reference staticInitializer)
  | draft :: rest =>
    if draft.method.isStaticInitializer then do
      let body ← concerning staticInitializer <|
        ArrayBlock.inject draft.body values field.reference
      return { draft with rewritten := some body } :: rest
    else do
      let rest ← buildArray field values rest
      return draft :: rest

/-- Plans the edit that writes the declaration of a field again. -/
def rewriteDeclaration (text : Text) (edits : EditList) (field : Field) :
    Except Error EditList :=
  -- The old declaration has to be in the text.
  match locateDeclaration text field.declaration with
  | none => refuse (.declarationGone field.declaration)
  | some span => edits.push span field.declarationText

/-- Plans the changes of one field and gives the field as it will be. -/
def planField (text : Text) (plan : Plan) (field : Field) : Except Error (Plan × Field) :=
  -- A list is built first, then the declaration is written, then old assignments go.
  if field.dirty then do
    let drafts ← match field.pending with
      | .composite values => buildArray field values plan.drafts
      | _ => .ok plan.drafts
    let edits ←
      if field.rewritesDeclaration then rewriteDeclaration text plan.edits field
      else .ok plan.edits
    let drafts := match field.pending with
      | .scalar _ => drafts.map (Draft.withoutAssignments field.declaredReference)
      | _ => drafts
    let written := if field.rewritesDeclaration then some field.declarationText else none
    return (⟨edits, drafts⟩, field.settled written)
  else .ok (plan, field)

/-- Plans the changes of fields in order and gives the fields as they will be. -/
def planFields (text : Text) (plan : Plan) : List Field → Except Error (Plan × List Field)
  -- Each field builds on what the fields before it have planned.
  | [] => .ok (plan, [])
  | field :: rest => do
    let (plan, field) ← planField text plan field
    let (plan, rest) ← planFields text plan rest
    return (plan, field :: rest)

/-- Plans the edits that write the bodies of methods again. -/
def planMethods (text : Text) (edits : EditList) : List Draft → Except Error EditList
  -- The terminator is written back as it stands.
  | [] => .ok edits
  | draft :: rest =>
    if draft.isWritten then
      match locateMethod text draft.method.signature with
      | none => refuse (.methodGone draft.method.signature)
      | some place => do
        let edits ← edits.push place.span (draft.body ++ place.terminator)
        planMethods text edits rest
    else planMethods text edits rest

/-- Writes all changes of the members into the text. -/
def applyChanges (source : ClassText) : Except Error ClassText := do
  -- Nothing is altered before everything has been planned.
  let start : Plan := ⟨EditList.empty, source.methods.map fun method => ⟨method, none⟩⟩
  let (plan, fields) ← planFields source.text start source.fields
  let edits ← planMethods source.text plan.edits plan.drafts
  let text ← edits.apply source.text
  return { source with text := text, fields := fields, methods := plan.drafts.map Draft.settled }

/-- Writes all changes of the members into the text, should there be any. -/
def flush (source : ClassText) : Except Error ClassText :=
  -- A failure concerns the class.
  if source.isDirty then concerning source.descriptor (applyChanges source) else .ok source

end Smali.ClassText
