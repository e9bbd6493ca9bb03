import Smali.Collection.Basic

/-! Saving a collection saves the documents that have changed. -/

namespace Smali

namespace Document

/-- The document has to be saved. -/
def isUnsaved (document : Document) : Bool :=
  -- Either its text or one of its members has changed.
  document.isDirty || document.modified

end Document

namespace Collection

/-- What is left after an attempt to save documents. -/
structure Attempt where
  /-- The documents afterwards. -/
  documents : List Document
  /-- The files afterwards. -/
  files : FileSystem
  /-- The number of documents that were saved, where the attempt succeeded. -/
  result : Except Error Nat

/-- Saves documents in order, with a number of them already saved. -/
def saveAll (saved : Nat) (files : FileSystem) : List Document → Attempt
  -- The first failure ends the attempt, and what was saved before stays saved.
  | [] => ⟨[], files, .ok saved⟩
  | document :: rest =>
    if document.isUnsaved then
      let attempt := document.save files
      match attempt.result with
      | .error error => ⟨attempt.document :: rest, attempt.files, .error error⟩
      | .ok () =>
        let others := saveAll (saved + 1) attempt.files rest
        { others with documents := attempt.document :: others.documents }
    else
      let others := saveAll saved files rest
      { others with documents := document :: others.documents }

/-- Saves every document that has changed, and tells how many there were. -/
def save (files : FileSystem) (collection : Collection) :
    Collection × FileSystem × Except Error Nat :=
  -- The collection keeps its documents in order.
  let attempt := saveAll 0 files collection.documents
  ({ collection with documents := attempt.documents }, attempt.files, attempt.result)

end Collection

end Smali
