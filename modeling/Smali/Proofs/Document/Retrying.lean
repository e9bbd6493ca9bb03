import Smali.Proofs.Document.Moves

/-! A document that could not be saved can be saved again as before, unless its text had been
written and only what it was moved from could not be removed. -/

namespace Smali

/-- Nothing has the path of a file that has been removed. -/
theorem FileSystem.has_removeFile {files removed : FileSystem} {path : Path}
    (gone : files.removeFile path = .ok removed) : removed.has path = false := by
  -- There is no entry at its target any more.
  have change := entryChanged_removeFile gone
  rw [has]
  cases resolved : removed.resolve path with
  | error failure => rfl
  | ok parts =>
    obtain ⟨names, found⟩ := parts
    obtain ⟨-, rfl, leads⟩ := resolve_iff.1 resolved
    have entry := change.entries (files.targetOf path)
    rw [if_pos rfl, FileTree.entryAt?, ← targetOf_congr change.work, leads] at entry
    cases entry

namespace Document

open Collection (sampleDocument sampleFiles samplePath sampleText)

/-- An attempt has saved a document and has left nothing behind at a place where it was. -/
structure Settles (files : FileSystem) (document : Document) (left : Option Path)
    (attempt : Attempt) : Prop where
  /-- The text has been written to the path, and it can be read there unless the place that was left
  is the same file in another spelling. -/
  text : ∃ flushed path written, WrittenTo files document flushed path written ∧
    attempt.document.path = some path ∧ attempt.document.text = flushed.text ∧
    ((∀ origin, left = some origin → written.SameFile path origin → origin.same path) →
      attempt.files.readText path = .ok flushed.text)
  /-- Nothing has the path that was left, unless it is the path of the document. -/
  gone : ∀ path origin, document.path = some path → left = some origin →
    origin.same path ∨ attempt.files.has origin = false

/-- An attempt that succeeds has saved the document and has left nothing behind at its origin. -/
theorem settles_of_save {files : FileSystem} {document : Document} {attempt : Attempt}
    (ended : document.save files = attempt) (done : attempt.result = .ok ()) :
    Settles files document document.origin attempt := by
  -- The origin has been kept only where it is the path or where nothing had it.
  have way := saving files document
  rw [ended] at way
  cases way with
  | refused | unplaced | unwritten | stuck => cases done
  | kept whole stays =>
    refine ⟨⟨_, _, _, whole, whole.place, rfl, fun _ => whole.readText⟩,
      fun path origin place left => ?_⟩
    rw [← (place_flush whole.flush).1, whole.place, Option.some.injEq] at place
    exact place ▸ stays origin ((place_flush whole.flush).2.trans left)
  | @moved flushed path origin written removed whole left other gone =>
    rw [(place_flush whole.flush).2] at left
    refine ⟨⟨_, _, _, whole, whole.place, rfl, fun apart => ?_⟩, fun path' origin' _ left' => ?_⟩
    · refine (FileSystem.readText_removeFile_iff whole.readText gone).2 fun same => ?_
      have equal := apart origin left same
      rw [other] at equal
      cases equal
    · rw [left, Option.some.injEq] at left'
      exact .inr (left' ▸ FileSystem.has_removeFile gone)

/-- A document that could not be saved is as it was as far as saving it again is concerned. -/
structure Retryable (document failed : Document) : Prop where
  /-- It will be saved to the same path. -/
  path : failed.path = document.path
  /-- The place that it was moved from is remembered. -/
  origin : failed.origin = document.origin
  /-- It is still marked as changed. -/
  modified : document.modified → failed.modified
  /-- Whatever has been mended since, a later attempt that succeeds has saved it and has left
  nothing behind at the place that it was moved from. -/
  retry : ∀ (mended : Document) (files : FileSystem) (attempt : Attempt),
    mended.origin = failed.origin → mended.save files = attempt → attempt.result = .ok () →
      Settles files mended document.origin attempt

/-- What remembers its path, its origin and its changes can be saved again. -/
theorem Retryable.of_kept {document failed : Document} (path : failed.path = document.path)
    (origin : failed.origin = document.origin) (modified : document.modified → failed.modified) :
    Retryable document failed := by
  -- An attempt that succeeds leaves the origin that it finds.
  refine ⟨path, origin, modified, fun mended files attempt same ended done => ?_⟩
  have settled := settles_of_save ended done
  rwa [same, origin] at settled

/-- A flush takes the mark of a change from no document. -/
theorem modified_flush {document flushed : Document} (done : document.flush = .ok flushed)
    (changed : document.modified) : flushed.modified := by
  -- It only adds the mark where the text comes out different.
  simp only [flush, bind_eq_ok, pure_eq_ok] at done
  obtain ⟨source, -, rfl⟩ := done
  simp [changed]

/-- A document that could not be saved keeps its path and the mark of a change, and it can be saved
again as before exactly if its text has not been written. -/
theorem retryable_iff {files : FileSystem} {document : Document} {failed : Attempt} {error : Error}
    (ended : document.save files = failed) (refused : failed.result = .error error) :
    (failed.document.path = document.path ∧ (document.modified → failed.document.modified)) ∧
      (Retryable document failed.document ↔
        ¬ ∃ flushed path written, WrittenTo files document flushed path written) := by
  -- The origin is forgotten right after the text has been written.
  have way := saving files document
  rw [ended] at way
  cases way with
  | kept | moved => cases refused
  -- Up to the writing a failure leaves all that a second attempt needs.
  | refused failed =>
    refine ⟨⟨rfl, id⟩, iff_of_true (.of_kept rfl rfl id) ?_⟩
    rintro ⟨flushed, path, written, whole⟩
    cases failed.symm.trans whole.flush
  | unplaced done place =>
    obtain ⟨path, origin⟩ := place_flush done
    have modified := modified_flush done
    refine ⟨⟨path, modified⟩, iff_of_true (.of_kept path origin modified) ?_⟩
    rintro ⟨flushed, path', written, whole⟩
    cases done.symm.trans whole.flush
    cases place.symm.trans whole.place
  | unwritten done place same outcome =>
    obtain ⟨path, origin⟩ := place_flush done
    have modified := modified_flush done
    refine ⟨⟨path, modified⟩, iff_of_true (.of_kept path origin modified) ?_⟩
    rintro ⟨flushed, path', written, whole⟩
    cases done.symm.trans whole.flush
    cases place.symm.trans whole.place
    cases outcome.symm.trans whole.outcome
  -- The text has been written, but the second attempt knows of no origin any more.
  | stuck whole left =>
    obtain ⟨path, origin⟩ := place_flush whole.flush
    have modified := modified_flush whole.flush
    refine ⟨⟨path, modified⟩, iff_of_false (fun again => ?_)
      (not_not_intro ⟨_, _, _, whole⟩)⟩
    have forgotten := again.origin
    rw [← origin, left] at forgotten
    cases forgotten

/-- A document that is to be saved below a file keeps all that is needed to save it once the file is
out of the way. -/
theorem retryable_sample :
    let document := (sampleDocument 'A' none).move (.relocate ⟨"s/B.smali/A.smali".toList⟩)
    let later : FileSystem := { tree := .directory [("s".toList, .directory
      [("A.smali".toList, .file (.text (sampleText 'A')))])] }
    let failed := document.save sampleFiles
    ∃ error, failed.result = .error error ∧ Retryable document failed.document ∧
      (failed.document.save later).result = .ok () ∧
      (failed.document.save later).files.has (samplePath 'A') = false := by
  -- No text has been written the first time.
  intro document later failed
  have outcome : ∃ error, failed.result = .error error := ⟨_, rfl⟩
  obtain ⟨error, refused⟩ := outcome
  have again : Retryable document failed.document := by
    refine (retryable_iff rfl refused).2.2 ?_
    rintro ⟨flushed, path, written, whole⟩
    have place := (place_flush whole.flush).1.symm.trans whole.place
    cases place
    cases (congrArg Prod.snd whole.outcome)
  have done : (failed.document.save later).result = .ok () := by decide +kernel
  refine ⟨error, refused, again, done, ?_⟩
  have settled := again.retry failed.document later _ rfl rfl done
  exact (settled.gone _ (samplePath 'A') again.path rfl).resolve_left (by decide)

/-- A document that was moved from a place where a directory is forgets that place when it cannot be
removed, and a later attempt that succeeds leaves behind what is there. -/
theorem retryable_forgetsSample : ∃ files document moves failed error later,
    read ⟨false⟩ (samplePath 'A') files = .ok document ∧
      (document.moveAll moves).save files = failed ∧ failed.result = .error error ∧
      (document.moveAll moves).origin = some ⟨"d".toList⟩ ∧ failed.document.origin = none ∧
      (failed.document.save later).result = .ok () ∧
      (failed.document.save later).files.has ⟨"d".toList⟩ = true := by
  -- The directory becomes a file before the second attempt.
  exact ⟨{ tree := .directory [("s".toList, .directory
      [("A.smali".toList, .file (.text (sampleText 'A')))]), ("d".toList, .empty)] },
    sampleDocument 'A' none, [.setPath ⟨"d".toList⟩, .relocate (samplePath 'A')], _, _,
    { tree := .directory [("s".toList, .empty), ("d".toList, .file (.text []))] },
    by decide +kernel, rfl, rfl, rfl, rfl, by decide +kernel, by decide +kernel⟩

end Document

end Smali
