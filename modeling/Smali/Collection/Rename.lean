import Smali.ClassPath
import Smali.Collection.Basic

/-! Classes, fields and methods are renamed in all documents of a collection. -/

namespace Smali

/-- What a renaming has done. -/
structure RenameReport where
  /-- The classes of the documents that were rewritten, as they are afterwards. -/
  rewritten : List Text := []
  /-- The new paths of documents whose class was renamed. -/
  relocated : List Path := []
  /-- The documents that could not be rewritten. -/
  failures : List DocumentFailure := []
  deriving DecidableEq, Repr

/-- A renaming that is possible. -/
structure Renaming where
  /-- What is renamed. -/
  old : Reference
  /-- What it becomes. -/
  new : Reference
  /-- The path that the renamed class belongs to. -/
  target : Option Path
  deriving DecidableEq, Repr

namespace RenameReport

/-- The reports of two parts of a collection together. -/
def append (first second : RenameReport) : RenameReport :=
  -- The order of the documents is kept.
  ⟨first.rewritten ++ second.rewritten, first.relocated ++ second.relocated,
    first.failures ++ second.failures⟩

end RenameReport

namespace Renaming

/-- The text of a class after the renaming. -/
def rewrite (task : Renaming) (owner text : Text) : Text :=
  -- A member is also replaced where its own class declares it, which is behind a space.
  let declared := match task.old.anchored?, task.new.anchored? with
    | some old, some new =>
      if owner = task.old.owner then Text.replace old new text else text
    | _, _ => text
  Text.replace task.old.display task.new.display declared

/-- The renaming renames a class with a given descriptor. -/
def renamesClass (task : Renaming) (descriptor : Text) : Bool :=
  -- A member is no class.
  task.old == .ofClass descriptor

/-- Renames in one document and reports on it. -/
def applyTo (task : Renaming) (document : Document) : Document × RenameReport :=
  -- Changes are written first, so that the new text holds them.
  let path := document.path.getD ⟨[]⟩
  match document.flush with
  | .error error => (document, { failures := [⟨path, error⟩] })
  | .ok flushed =>
    let text := task.rewrite flushed.descriptor flushed.text
    if text = flushed.text then (flushed, {})
    else
      match flushed.setText text with
      | .error error => (flushed, { failures := [⟨path, error⟩] })
      | .ok rewritten =>
        let moved := if task.renamesClass flushed.descriptor then task.target else none
        let settled := match moved with
          | some target => rewritten.relocate target
          | none => rewritten
        (settled, { rewritten := [rewritten.descriptor], relocated := moved.toList })

end Renaming

namespace Collection

/-- Refuses a renaming that would make two declarations one, or move a member. -/
def checkTarget (old new : Reference) (collection : Collection) : Except Error Unit :=
  -- A class must be new to the collection, and a member new to its class.
  match new with
  | .ofClass descriptor =>
    if (collection.document? descriptor).isSome then
      refuse (.classExists old.display new.display)
    else .ok ()
  | .ofField _ | .ofMethod _ =>
    if old.owner = new.owner then
      let taken := (collection.document? new.owner).any fun document =>
        match new with
        | .ofField _ => (document.field? new.display).isSome
        | _ => (document.method? new.display).isSome
      if taken then refuse (.memberExists old.display new.display) else .ok ()
    else refuse (.classesDiffer old.display new.display)

/-- The renaming between two references, unless it is refused. -/
def planRenaming (old new : Text) (collection : Collection) : Except Error Renaming := do
  -- The references have to be of the same sort.
  let old ← Reference.parse old
  let new ← Reference.parse new
  if !old.sameSort new then refuse (.sortsDiffer old.display new.display)
  else
    collection.checkTarget old new
    match new with
    | .ofClass descriptor =>
      let below ← Descriptor.classPath descriptor collection.config.extension
      return ⟨old, new, some (collection.config.root.join below)⟩
    | _ => return ⟨old, new, none⟩

/-- Renames in every document. -/
def rename (old new : Text) (collection : Collection) :
    Except Error (Collection × RenameReport) := do
  -- Documents that cannot be rewritten are reported and do not stop the others.
  let task ← collection.planRenaming old new
  let outcomes := collection.documents.map task.applyTo
  return ({ collection with documents := outcomes.map Prod.fst },
    (outcomes.map Prod.snd).foldl RenameReport.append {})

end Collection

end Smali
