import Smali.Proofs.Collection.Save
import Smali.Proofs.Document.Saving

/-! A document that has been moved any number of times is where it has been saved, unless it was
moved to another spelling of its own place. -/

namespace Smali

namespace FileSystem

/-- Two paths lead to one file. -/
def SameFile (files : FileSystem) (left right : Path) : Prop :=
  -- They may be spelled in different ways.
  ∃ names content, files.resolve left = .ok (names, .file content) ∧
    files.resolve right = .ok (names, .file content)

variable {files removed : FileSystem} {left right : Path}

/-- Paths that lead to one file have one target. -/
theorem SameFile.target (same : files.SameFile left right) :
    files.targetOf left = files.targetOf right := by
  -- The target is told by the names.
  obtain ⟨names, content, first, second⟩ := same
  exact (resolve_iff.1 first).2.1.trans (resolve_iff.1 second).2.1.symm

/-- A path that leads to a file is there. -/
theorem SameFile.has (same : files.SameFile left right) : files.has right = true := by
  -- It has been resolved.
  obtain ⟨names, content, -, second⟩ := same
  rw [FileSystem.has, second]
  rfl

/-- A text that can be read is still there without a file exactly if the path of that file does not
lead to it. -/
theorem readText_removeFile_iff {text : Text} (read : files.readText left = .ok text)
    (gone : files.removeFile right = .ok removed) :
    removed.readText left = .ok text ↔ ¬ files.SameFile left right := by
  -- Only what has the target of the removed path is lost.
  constructor
  · intro kept same
    exact not_readText_removeFile gone same.target text kept
  · intro apart
    refine ((entryChanged_removeFile gone).readText_iff fun target => apart ?_).2 read
    obtain ⟨⟨checked, passable, ends⟩, found⟩ := readText_iff.1 read
    rw [← FileTree.find?_eq_file] at found
    have first : files.resolve left = .ok (files.targetOf left, .file (.text text)) :=
      resolve_iff.2 ⟨⟨checked, passable, by simp [ends]⟩, rfl, found⟩
    simp only [removeFile, bind_eq_ok, Prod.exists] at gone
    obtain ⟨names, leaf, second, -⟩ := gone
    obtain ⟨-, names', found'⟩ := resolve_iff.1 second
    rw [← names', ← target, found, Option.some.injEq] at found'
    rw [← names', ← target, ← found'] at second
    exact ⟨_, _, first, second⟩

end FileSystem

namespace Document

open Collection (sampleDocument sampleFiles samplePath sampleText)

/-- What says where a document will be saved. -/
inductive Move where
  /-- It will be saved to a path, and stays where it is as well. -/
  | setPath (path : Path)
  /-- It is moved to a path. -/
  | relocate (path : Path)

/-- The document after a move. -/
def move (document : Document) : Move → Document
  -- Each kind of move is a method of its own.
  | .setPath path => document.setPath path
  | .relocate path => document.relocate path

/-- The document after moves, one after the other. -/
def moveAll (document : Document) (moves : List Move) : Document :=
  -- Each move starts where the one before it ends.
  moves.foldl move document

/-- The place that moves leave first, from the place where they start. -/
def placeLeft : Option Path → List Move → Option Path
  -- Only a relocation to another path leaves a place, and it needs a place to leave.
  | _, [] => none
  | _, .setPath path :: rest => placeLeft (some path) rest
  | place, .relocate path :: rest =>
    if place.any fun present => present.same path then placeLeft place rest
    else place <|> placeLeft (some path) rest

/-- A move remembers the place that it leaves, unless another one was left before. -/
theorem origin_move (document : Document) (move : Move) (rest : List Move) :
    ((document.move move).origin <|> placeLeft (document.move move).path rest) =
      (document.origin <|> placeLeft document.path (move :: rest)) := by
  -- Only a relocation to another path remembers anything.
  cases move with
  | setPath path => rfl
  | relocate path =>
    rw [Document.move, relocate, placeLeft]
    split
    · rfl
    · cases document.origin <;> rfl

/-- Moves remember the first place that was left, unless another one was left before them. -/
theorem origin_moveAll (document : Document) (moves : List Move) :
    (document.moveAll moves).origin = (document.origin <|> placeLeft document.path moves) := by
  -- What is remembered and what is still to be left stay the same with each move.
  induction moves generalizing document with
  | nil => simp [moveAll, placeLeft]
  | cons first rest ih =>
    rw [← origin_move, ← ih]
    rfl

/-- A document that has been moved and then saved can be read from its path exactly if this is not
the file that the moves have left, in another spelling. -/
theorem save_moved_iff {files : FileSystem} {document : Document} {moves : List Move}
    {saved : Attempt} (ended : (document.moveAll moves).save files = saved)
    (done : saved.result = .ok ()) :
    (∃ path, saved.document.path = some path ∧
        saved.files.readText path = .ok saved.document.text) ↔
      ∀ path origin, saved.document.path = some path →
        (document.origin <|> placeLeft document.path moves) = some origin →
        (files.writeWithDirectories path (.text saved.document.text)).1.SameFile path origin →
        origin.same path := by
  -- The attempt has written the document, and has either removed its origin or kept it.
  rw [← origin_moveAll]
  have way := saving files (document.moveAll moves)
  rw [ended] at way
  cases way with
  | refused | unplaced | unwritten | stuck => cases done
  -- The origin that is kept is the path written, or there is nothing at it.
  | kept whole stays =>
    refine iff_of_true ⟨_, whole.place, whole.readText⟩ fun path origin place left same => ?_
    rw [whole.place, Option.some.injEq] at place
    subst place
    rw [whole.outcome] at same
    rw [← (place_flush whole.flush).2] at left
    rcases stays origin left with equal | absent
    · exact equal
    · rw [same.has] at absent
      cases absent
  -- The text is read again unless the removal of the origin removes it.
  | @moved flushed path origin written removed whole left other gone =>
    have removal := FileSystem.readText_removeFile_iff whole.readText gone
    rw [(place_flush whole.flush).2] at left
    constructor
    · rintro ⟨path', place, kept⟩ path'' origin' place' left' same
      rw [whole.place, Option.some.injEq] at place place'
      rw [left, Option.some.injEq] at left'
      subst place place' left'
      rw [whole.outcome] at same
      exact absurd same (removal.1 kept)
    · intro apart
      refine ⟨path, whole.place, removal.2 fun same => ?_⟩
      have equal := apart path origin whole.place left (by rw [whole.outcome]; exact same)
      rw [other] at equal
      cases equal

/-- An attempt to save the first of the sample documents after moves. -/
def savedAfter (moves : List Move) : Attempt :=
  -- The document has been read from its place.
  ((sampleDocument 'A' none).moveAll moves).save sampleFiles

/-- A document that is moved away and back is where it was, and one that is moved along odd
spellings is where it ends up. -/
theorem save_moved_sample :
    (savedAfter [.relocate ⟨"./s/A.smali".toList⟩, .relocate (samplePath 'A')]).files.readText
        (samplePath 'A') = .ok (sampleText 'A') ∧
      (savedAfter [.setPath ⟨"./s/A.smali".toList⟩,
        .relocate ⟨"s/../s/D.smali".toList⟩]).files.readText ⟨"s/../s/D.smali".toList⟩ =
          .ok (sampleText 'A') := by
  -- The first has its origin as its path again, and the second has another target.
  constructor
  · have done : (savedAfter [.relocate ⟨"./s/A.smali".toList⟩,
        .relocate (samplePath 'A')]).result = .ok () := by decide +kernel
    obtain ⟨path, place, read⟩ := (save_moved_iff rfl done).2 fun path origin place left same => by
      cases place
      cases left
      decide
    cases place
    exact read
  · have done : (savedAfter [.setPath ⟨"./s/A.smali".toList⟩,
        .relocate ⟨"s/../s/D.smali".toList⟩]).result = .ok () := by decide +kernel
    obtain ⟨path, place, read⟩ := (save_moved_iff rfl done).2 fun path origin place left same => by
      cases place
      cases left
      exact absurd same.target (by decide +kernel)
    cases place
    exact read

/-- A document that is moved to another spelling of its own place is lost when it is saved. -/
theorem save_moved_lostSample : ∃ files document moves saved,
    read ⟨false⟩ (samplePath 'A') files = .ok document ∧
      (document.moveAll moves).save files = saved ∧ saved.result = .ok () ∧
      ¬ ∃ path, saved.document.path = some path ∧
        saved.files.readText path = .ok saved.document.text := by
  -- The file that has just been written is removed as the one that was left.
  refine ⟨sampleFiles, sampleDocument 'A' none, [.relocate ⟨"./s/A.smali".toList⟩], _,
    by decide +kernel, rfl, by decide +kernel, ?_⟩
  rintro ⟨path, place, kept⟩
  cases place
  exact absurd kept (by decide +kernel)

end Document

end Smali
