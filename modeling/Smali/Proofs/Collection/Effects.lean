import Smali.Proofs.Collection.Keys
import Smali.Proofs.Collection.Save
import Smali.Proofs.Document.Saving

/-! Saving a collection changes only the files of documents that have to be saved. -/

namespace Smali

namespace FileSystem

/-- All files that have changed are at some of the places. -/
structure ChangedWithin (files : FileSystem) (places : List Text → Prop) (changed : FileSystem) :
    Prop where
  /-- Relative paths start from the same directory. -/
  work : changed.work = files.work
  /-- The files elsewhere are as they were. -/
  files : ∀ names, ¬ places names → changed.tree.fileAt? names = files.tree.fileAt? names

variable {files changed again : FileSystem} {places : List Text → Prop}

/-- Where nothing has changed, nothing has changed elsewhere. -/
theorem ChangedWithin.refl (files : FileSystem) (places : List Text → Prop) :
    files.ChangedWithin places files :=
  -- All files are the same.
  ⟨rfl, fun _ _ => rfl⟩

/-- Changes within some places, one after the other, are a change within them. -/
theorem ChangedWithin.trans (first : files.ChangedWithin places changed)
    (second : changed.ChangedWithin places again) : files.ChangedWithin places again := by
  -- A file elsewhere stays both times.
  refine ⟨second.work.trans first.work, fun names other => ?_⟩
  rw [second.files names other, first.files names other]

/-- A change within some places is one within more. -/
theorem ChangedWithin.mono {more : List Text → Prop} (change : files.ChangedWithin places changed)
    (part : ∀ names, places names → more names) : files.ChangedWithin more changed :=
  -- There are fewer places elsewhere.
  ⟨change.work, fun names other => change.files names fun inside => other (part names inside)⟩

/-- Directories do not count. -/
theorem SameFiles.changedWithin (same : files.SameFiles changed) (places : List Text → Prop) :
    files.ChangedWithin places changed :=
  -- All files are the same.
  ⟨same.work, fun names _ => same.files names⟩

/-- A change of one entry is one at its place. -/
theorem EntryChanged.changedWithin {place : List Text} {content : Option Content}
    (change : files.EntryChanged place content changed) (inside : places place) :
    files.ChangedWithin places changed := by
  -- The files elsewhere are other entries.
  refine ⟨change.work, fun names other => ?_⟩
  have apart : names ≠ place := fun same => other (same ▸ inside)
  rw [FileTree.fileAt?_eq_join, FileTree.fileAt?_eq_join, change.entries, if_neg apart]

end FileSystem

namespace Document

/-- The place is that of the path of the document, or that of the path it was moved from. -/
def Owns (files : FileSystem) (document : Document) (names : List Text) : Prop :=
  -- Both paths are followed to their targets.
  ∃ path, (document.path = some path ∨ document.origin = some path) ∧ files.targetOf path = names

/-- The places that belong to a document do not depend on which files there are. -/
theorem owns_congr {files changed : FileSystem} (same : changed.work = files.work)
    (document : Document) (names : List Text) :
    document.Owns changed names ↔ document.Owns files names := by
  -- The targets are the same.
  unfold Owns
  simp only [FileSystem.targetOf_congr same]

/-- Writing a document changes no file but that of its path. -/
theorem WrittenTo.changedWithin {files written : FileSystem} {document flushed : Document}
    {path : Path} (whole : WrittenTo files document flushed path written) :
    files.ChangedWithin (document.Owns files) written := by
  -- The directories around it do not count.
  obtain ⟨made, same, wrote⟩ := whole.file
  have change := FileSystem.entryChanged_writeFile wrote
  refine (same.changedWithin _).trans (change.changedWithin ?_)
  rw [FileSystem.targetOf_congr same.work]
  exact ⟨path, .inl ((place_flush whole.flush).1.symm.trans whole.place), rfl⟩

/-- Saving a document changes no file but those that belong to it, whether or not it succeeds. -/
theorem changedWithin_save (files : FileSystem) (document : Document) :
    files.ChangedWithin (document.Owns files) (document.save files).files := by
  -- At most the file of its path is written, and that of its origin removed.
  have saving := document.saving files
  generalize document.save files = attempt at saving ⊢
  cases saving with
  | refused | unplaced => exact .refl files _
  | unwritten done place same => exact same.changedWithin _
  | kept whole | stuck whole => exact whole.changedWithin
  | moved whole left other gone =>
    have change := FileSystem.entryChanged_removeFile gone
    refine whole.changedWithin.trans (change.changedWithin ?_)
    rw [FileSystem.targetOf_congr whole.work]
    exact ⟨_, .inr ((place_flush whole.flush).2.symm.trans left), rfl⟩

/-- A document that has been saved does not have to be saved again. -/
theorem isUnsaved_of_save {files : FileSystem} {document : Document}
    (done : (document.save files).result = .ok ()) :
    (document.save files).document.isUnsaved = false := by
  -- The flush settles its members, and success takes the mark of a change away.
  have saving := document.saving files
  generalize document.save files = attempt at saving done ⊢
  cases saving with
  | refused | unplaced | unwritten | stuck => cases done
  | kept whole | moved whole =>
    have clean := isDirty_of_flush whole.flush
    rw [isUnsaved, Bool.or_false]
    exact clean

end Document

namespace Collection

open Document

/-- Saving documents changes no file but those that belong to documents that have to be saved,
whether or not it succeeds. -/
theorem changedWithin_saveAll (count : Nat) (files : FileSystem) (documents : List Document) :
    files.ChangedWithin
      (fun names => ∃ document ∈ documents, document.isUnsaved ∧ document.Owns files names)
      (saveAll count files documents).files := by
  -- The documents are saved one after the other.
  induction documents generalizing count files with
  | nil => exact .refl files _
  | cons document rest ih =>
    rw [saveAll]
    split
    · next unsaved =>
      -- What the first document owns, one of all the documents owns.
      have first := (changedWithin_save files document).mono fun names owns =>
        (⟨document, by simp, unsaved, owns⟩ : ∃ other ∈ document :: rest,
          other.isUnsaved ∧ other.Owns files names)
      dsimp only
      split
      · exact first
      -- Saving the first changes no ownership of the others.
      · refine first.trans ((ih (count + 1) (document.save files).files).mono ?_)
        rintro names ⟨other, member, unsaved', owns⟩
        exact ⟨other, List.mem_cons_of_mem _ member, unsaved',
          (owns_congr first.work other names).1 owns⟩
    · refine (ih count files).mono ?_
      rintro names ⟨other, member, unsaved, owns⟩
      exact ⟨other, List.mem_cons_of_mem _ member, unsaved, owns⟩

/-- Where saving succeeds, the number of documents that had to be saved is added, and none has to be
saved any more. -/
theorem saveAll_ok {count total : Nat} {files : FileSystem} {documents : List Document}
    (done : (saveAll count files documents).result = .ok total) :
    total = count + documents.countP isUnsaved ∧
      ∀ document ∈ (saveAll count files documents).documents, document.isUnsaved = false := by
  -- Each document either has been saved or did not have to be.
  induction documents generalizing count files with
  | nil =>
    cases done
    exact ⟨rfl, by simp [saveAll]⟩
  | cons document rest ih =>
    rw [saveAll] at done ⊢
    cases unsaved : document.isUnsaved with
    | false =>
      rw [unsaved] at done
      obtain ⟨number, settled⟩ := ih done
      rw [List.countP_cons_of_neg (by simp [unsaved])]
      exact ⟨number, List.forall_mem_cons.2 ⟨unsaved, settled⟩⟩
    | true =>
      rw [unsaved] at done
      simp only [if_true] at done ⊢
      cases saved : (document.save files).result with
      -- After an error nothing would have been counted.
      | error error => rw [saved] at done; cases done
      | ok =>
        rw [saved] at done
        obtain ⟨number, settled⟩ := ih done
        rw [List.countP_cons_of_pos unsaved]
        exact ⟨by omega, List.forall_mem_cons.2 ⟨isUnsaved_of_save saved, settled⟩⟩

/-- Documents that do not have to be saved are left alone, and so are the files. -/
theorem saveAll_settled {documents : List Document}
    (settled : ∀ document ∈ documents, document.isUnsaved = false) (count : Nat)
    (files : FileSystem) : saveAll count files documents = ⟨documents, files, .ok count⟩ := by
  -- They are passed over one after the other.
  induction documents with
  | nil => rfl
  | cons document rest ih =>
    rw [List.forall_mem_cons] at settled
    rw [saveAll, settled.1, ih settled.2]
    rfl

/-- Where saving fails, the documents before some document have been saved, it could not be saved
itself, and those behind it are as they were. -/
theorem exists_failing {count : Nat} {files : FileSystem} {documents : List Document}
    {error : Error} (failed : (saveAll count files documents).result = .error error) :
    ∃ front failing rest saved middle, documents = front ++ failing :: rest ∧
      (∃ total, saveAll count files front = ⟨saved, middle, .ok total⟩) ∧
      failing.isUnsaved ∧ (failing.save middle).result = .error error ∧
      (saveAll count files documents).documents = saved ++ (failing.save middle).document :: rest ∧
      (saveAll count files documents).files = (failing.save middle).files := by
  -- The first document that cannot be saved ends the attempt.
  induction documents generalizing count files with
  | nil => cases failed
  | cons document rest ih =>
    rw [saveAll] at failed ⊢
    cases unsaved : document.isUnsaved with
    | false =>
      -- Nothing is done for the document, and the failing one stands behind it.
      rw [unsaved] at failed
      obtain ⟨front, failing, back, saved, middle, rfl, ⟨total, before⟩, others⟩ := ih failed
      refine ⟨document :: front, failing, back, document :: saved, middle, rfl, ⟨total, ?_⟩, ?_⟩
      · rw [saveAll, unsaved, before]
        rfl
      · simpa using others
    | true =>
      rw [unsaved] at failed
      simp only [if_true] at failed ⊢
      cases done : (document.save files).result with
      | error error' =>
        rw [done] at failed
        cases failed
        -- Here is the failing document, and those behind it are not tried.
        exact ⟨[], document, rest, [], files, rfl, ⟨count, rfl⟩, unsaved, done, rfl, rfl⟩
      | ok =>
        rw [done] at failed
        -- The document is saved, so that the rest starts from the files it leaves.
        obtain ⟨front, failing, back, saved, middle, rfl, ⟨total, before⟩, others⟩ := ih failed
        refine ⟨document :: front, failing, back, (document.save files).document :: saved, middle,
          rfl, ⟨total, ?_⟩, ?_⟩
        · rw [saveAll, unsaved]
          simp only [if_true, done, before]
        · simpa using others

/-- Saving a collection changes only files that belong to documents that had to be saved. Where it
succeeds, it tells how many these were, none of them has to be saved again, and saving once more
changes nothing. Where it fails, the documents before the one that could not be saved are what
saving them alone makes of them, and all documents behind it are as they were. -/
theorem save_settles {files written : FileSystem} {collection saved : Collection}
    {result : Except Error Nat} (ended : collection.save files = (saved, written, result)) :
    (∀ names, written.tree.fileAt? names ≠ files.tree.fileAt? names →
      ∃ document ∈ collection.documents, document.isUnsaved ∧ document.Owns files names) ∧
    (∀ count, result = .ok count → count = collection.documents.countP isUnsaved ∧
      (∀ document ∈ saved.documents, document.isUnsaved = false) ∧
      saved.save written = (saved, written, .ok 0)) ∧
    ∀ error, result = .error error → ∃ front failing rest front' middle,
      collection.documents = front ++ failing :: rest ∧ front'.length = front.length ∧
      saveAll 0 files front = ⟨front', middle, .ok (front.countP isUnsaved)⟩ ∧
      saved.documents = front' ++ (failing.save middle).document :: rest ∧
      failing.isUnsaved ∧ (failing.save middle).result = .error error ∧
      written = (failing.save middle).files := by
  -- All this is told by saving the documents in order.
  obtain ⟨rfl, rfl, rfl⟩ : saved = { collection with
      documents := (saveAll 0 files collection.documents).documents } ∧
      written = (saveAll 0 files collection.documents).files ∧
      result = (saveAll 0 files collection.documents).result := by
    simp only [save, Prod.mk.injEq] at ended
    exact ⟨ended.1.symm, ended.2.1.symm, ended.2.2.symm⟩
  refine ⟨fun names changed => ?_, fun count done => ?_, fun error failed => ?_⟩
  · -- A file that no unsaved document owns is left as it was.
    by_contra other
    exact changed ((changedWithin_saveAll 0 files collection.documents).files names other)
  · obtain ⟨number, settled⟩ := saveAll_ok done
    rw [Nat.zero_add] at number
    refine ⟨number, settled, ?_⟩
    -- Nothing is left for a second attempt to save.
    rw [save, saveAll_settled settled]
  · obtain ⟨front, failing, rest, before, middle, whole, ⟨total, done⟩, unsaved, refused, after,
      left⟩ := exists_failing failed
    have number : total = front.countP isUnsaved := by
      have counted := (saveAll_ok (congrArg Attempt.result done)).1
      rwa [Nat.zero_add] at counted
    -- As many documents have been tried as stand before the failing one.
    have length : before.length = front.length := by
      have same := congrArg List.length (map_descriptor_saveAll 0 files front)
      rw [List.length_map, List.length_map, done] at same
      exact same
    exact ⟨front, failing, rest, before, middle, whole, length, number ▸ done, after, unsaved,
      refused, left⟩

/-- A collection of which the first document has been moved, the second has nowhere to go, and the
third has been moved as well. -/
def unplacedCollection : Collection :=
  -- The files are those of the first and the third document.
  ⟨sampleConfig, [sampleDocument 'C' (some 'A'),
    { sampleDocument 'D' none with path := none, modified := true },
    sampleDocument 'E' (some 'B')], []⟩

/-- A collection with one document that has been moved is settled by saving it, and one whose second
document has nowhere to go keeps its third. -/
theorem save_settles_sample :
    (∃ saved written, (sampleCollection (sampleDocument 'C' (some 'A'))
        (sampleDocument 'B' none)).save sampleFiles = (saved, written, .ok 1) ∧
      (∀ document ∈ saved.documents, document.isUnsaved = false) ∧
      saved.save written = (saved, written, .ok 0)) ∧
    ∃ saved written error, unplacedCollection.save sampleFiles = (saved, written, .error error) ∧
      ∃ front failing rest, unplacedCollection.documents = front ++ failing :: rest ∧
        failing.isUnsaved ∧ rest <:+ saved.documents := by
  -- The second document cannot be saved, because it has no path.
  have done : save sampleFiles (sampleCollection (sampleDocument 'C' (some 'A'))
      (sampleDocument 'B' none)) = (_, _, .ok 1) :=
    Prod.ext rfl (Prod.ext rfl (by decide +kernel))
  have failed : save sampleFiles unplacedCollection =
      (_, _, .error ⟨.noPath "LD;".toList, []⟩) :=
    Prod.ext rfl (Prod.ext rfl (by decide +kernel))
  obtain ⟨-, settled, again⟩ := (save_settles done).2.1 1 rfl
  obtain ⟨front, failing, rest, before, middle, whole, -, -, after, unsaved, -, -⟩ :=
    (save_settles failed).2.2 _ rfl
  refine ⟨⟨_, _, done, settled, again⟩, _, _, _, failed, front, failing, rest, whole, unsaved, ?_⟩
  rw [after]
  exact ⟨before ++ [(failing.save middle).document], by simp⟩

end Collection

end Smali
