import Smali.Document.Save
import Smali.Proofs.Files.Changes
import Smali.Proofs.Rename.Failures

/-! An attempt to save a document ends in one of six ways, which tell all that it has done. -/

namespace Smali.Document

/-- A flush keeps the path and the origin. -/
theorem place_flush {document flushed : Document} (done : document.flush = .ok flushed) :
    flushed.path = document.path ∧ flushed.origin = document.origin := by
  -- Only the class text and the mark of a change are new.
  simp only [flush, bind_eq_ok, pure_eq_ok] at done
  obtain ⟨source, -, rfl⟩ := done
  exact ⟨rfl, rfl⟩

/-- A document has been flushed and written to its path. -/
structure WrittenTo (files : FileSystem) (document flushed : Document) (path : Path)
    (written : FileSystem) : Prop where
  /-- All changes have been written into the text. -/
  flush : document.flush = .ok flushed
  /-- The document has the path. -/
  place : flushed.path = some path
  /-- The text has been written to the path, with the directories around it. -/
  outcome : files.writeWithDirectories path (.text flushed.text) = (written, .ok ())
  /-- The directories were made before the file was written. -/
  file : ∃ made, files.SameFiles made ∧
    made.writeFile path (.text flushed.text) = .ok written

/-- What an attempt to save a document leaves. -/
inductive Saving (files : FileSystem) (document : Document) : Attempt → Prop where
  /-- Its changes cannot be written into the text. -/
  | refused {error : Error} (failed : document.flush = .error error) :
      Saving files document ⟨document, files, .error error⟩
  /-- It has no path. -/
  | unplaced {flushed : Document} (done : document.flush = .ok flushed)
      (place : flushed.path = none) :
      Saving files document ⟨flushed, files, refuse (.noPath flushed.descriptor)⟩
  /-- Its text cannot be written to the path, but directories may have been made. -/
  | unwritten {flushed : Document} {path : Path} {made : FileSystem} {failure : FileFailure}
      (done : document.flush = .ok flushed) (place : flushed.path = some path)
      (same : files.SameFiles made)
      (outcome : files.writeWithDirectories path (.text flushed.text) = (made, .error failure)) :
      Saving files document ⟨flushed, made, concerning path.spelling (refuse (.file failure))⟩
  /-- It is written, and no file is left behind. -/
  | kept {flushed : Document} {path : Path} {written : FileSystem}
      (whole : WrittenTo files document flushed path written)
      (stays : ∀ origin, flushed.origin = some origin →
        origin.same path ∨ written.has origin = false) : Saving files document
        ⟨{ flushed with origin := none, modified := false }, written, .ok ()⟩
  /-- It is written, and the file that it was moved from is removed. -/
  | moved {flushed : Document} {path origin : Path} {written removed : FileSystem}
      (whole : WrittenTo files document flushed path written)
      (left : flushed.origin = some origin) (other : origin.same path = false)
      (gone : written.removeFile origin = .ok removed) : Saving files document
        ⟨{ flushed with origin := none, modified := false }, removed, .ok ()⟩
  /-- It is written, but what it was moved from cannot be removed. -/
  | stuck {flushed : Document} {path origin : Path} {written : FileSystem} {failure : FileFailure}
      (whole : WrittenTo files document flushed path written)
      (left : flushed.origin = some origin) (other : origin.same path = false)
      (failed : written.removeFile origin = .error failure) : Saving files document
        ⟨{ flushed with origin := none }, written,
          concerning origin.spelling (refuse (.file failure))⟩

/-- Every attempt to save a document ends in one of these ways. -/
theorem saving (files : FileSystem) (document : Document) :
    Saving files document (document.save files) := by
  -- The ways are the branches of saving.
  unfold save
  cases done : document.flush with
  | error error => exact .refused done
  | ok flushed =>
    dsimp only
    cases place : flushed.path with
    | none => exact .unplaced done place
    | some path =>
      obtain ⟨made, same, ⟨written, wrote, outcome⟩ | ⟨failure, outcome⟩⟩ :=
        FileSystem.writeWithDirectories_cases files path (.text flushed.text)
      · have whole : WrittenTo files document flushed path written :=
          ⟨done, place, outcome, made, same, wrote⟩
        simp only [write, outcome, leaveOrigin]
        cases left : flushed.origin with
        | none => exact .kept whole fun origin some' => by rw [left] at some'; cases some'
        | some origin =>
          dsimp only
          split
          · -- The origin is the path written, or it is not there.
            next stays =>
            rw [Bool.or_eq_true, Bool.not_eq_true'] at stays
            refine .kept whole fun origin' some' => ?_
            rw [left, Option.some.injEq] at some'
            exact some' ▸ stays
          · -- The origin is a file of its own, whose removal may fail.
            next leaves =>
            rw [Bool.not_eq_true, Bool.or_eq_false_iff] at leaves
            cases gone : written.removeFile origin with
            | error failure => exact .stuck whole left leaves.1 gone
            | ok removed => exact .moved whole left leaves.1 gone
      · simp only [write, outcome]
        exact .unwritten done place same outcome

namespace WrittenTo

variable {files written : FileSystem} {document flushed : Document} {path : Path}

/-- Relative paths start from where they did before. -/
theorem work (whole : WrittenTo files document flushed path written) :
    written.work = files.work := by
  -- Neither directories nor files move the working directory.
  obtain ⟨made, same, wrote⟩ := whole.file
  exact (FileSystem.entryChanged_writeFile wrote).work.trans same.work

/-- The text can be read from the path. -/
theorem readText (whole : WrittenTo files document flushed path written) :
    written.readText path = .ok flushed.text := by
  -- It has been written there.
  obtain ⟨made, -, wrote⟩ := whole.file
  exact FileSystem.readText_writeFile wrote

end WrittenTo

end Smali.Document
