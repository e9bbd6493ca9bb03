import Smali.Collection.Save
import Smali.Proofs.Collection.Placed
import Smali.Proofs.Document.Saving

/-! After a collection is saved, each file holds what the last document that touches it leaves. -/

namespace Smali

namespace Document

/-- Saving the document writes or removes what has a path. -/
def touches (path : Path) (document : Document) : Bool :=
  -- A document that has not changed is not saved.
  document.modified &&
    (document.path.any (·.same path) || document.origin.any (·.same path))

/-- What the document leaves at a path that it touches. -/
def leaves (path : Path) (document : Document) : Option Content :=
  -- Where it is not written, it is removed.
  if document.path.any (·.same path) then some (.text document.text) else none

/-- The content that a path has after documents are saved in order. -/
def leftAt (path : Path) (before : Option Content) (documents : List Document) :
    Option Content :=
  -- The last one that touches it decides.
  match (documents.filter (touches path)).getLast? with
  | some last => last.leaves path
  | none => before

/-- What documents leave is what the later ones make of what the earlier ones leave. -/
theorem leftAt_append (path : Path) (before : Option Content) (front back : List Document) :
    leftAt path before (front ++ back) = leftAt path (leftAt path before front) back := by
  -- An earlier one decides only if no later one touches the path.
  rw [leftAt, List.filter_append, List.getLast?_append, leftAt, leftAt]
  cases (back.filter (touches path)).getLast? with
  | some last => rfl
  | none => rfl

/-- A single document decides what it leaves. -/
theorem leftAt_singleton (path : Path) (before : Option Content) (document : Document) :
    leftAt path before [document] =
      if document.touches path then document.leaves path else before := by
  -- It is the last one if it touches the path.
  by_cases touched : document.touches path <;> simp [leftAt, touched]

/-- Documents are saved from one file system to another. -/
structure SavedTo (root : Path) (files : FileSystem) (documents saved : List Document)
    (written : FileSystem) : Prop where
  /-- Relative paths start from the same directory. -/
  work : written.work = files.work
  /-- The paths to which documents were written can have files. -/
  allows : ∀ document ∈ documents, document.modified → ∀ path, document.path = some path →
    files.Allows path
  /-- Each document keeps its place and its text. -/
  kept : List.Forall₂ (fun before after : Document =>
    after.path = before.path ∧ after.text = before.text) documents saved
  /-- The files below a directory are those that the documents leave. -/
  left : ∀ path, Path.Under root path → written.tree.fileAt? (files.placeOf path) =
    leftAt path (files.tree.fileAt? (files.placeOf path)) documents

/-- Saving some documents and then others saves all of them. -/
theorem SavedTo.append {root : Path} {files middle written : FileSystem}
    {front saved back saved' : List Document} (first : SavedTo root files front saved middle)
    (second : SavedTo root middle back saved' written) :
    SavedTo root files (front ++ back) (saved ++ saved') written := by
  -- The paths stand for the same places all the time.
  refine ⟨second.work.trans first.work, fun document member modified path place => ?_,
    List.rel_append first.kept second.kept, fun path under => ?_⟩
  · rcases List.mem_append.1 member with member | member
    · exact first.allows document member modified path place
    · have allows := second.allows document member modified path place
      exact (FileSystem.allows_congr first.work path).1 allows
  · have later := second.left path under
    rw [FileSystem.placeOf_congr first.work] at later
    rw [later, first.left path under, leftAt_append]

variable {config : Config} {before files : FileSystem} {document : Document} {path : Path}

/-- A document that has not changed is left as it is. -/
theorem savedTo_unchanged (same : document.modified = false) (root : Path) :
    SavedTo root files [document] [document] files := by
  -- It touches no path.
  refine ⟨rfl, fun other member modified => ?_, .cons ⟨rfl, rfl⟩ .nil, fun path _ => ?_⟩
  · rw [List.mem_singleton.1 member, same] at modified
    cases modified
  · rw [leftAt_singleton, touches, same]
    rfl

/-- A document that is written has its text at its path, and leaves the other files alone. -/
theorem PlacedAt.left_of_written (placed : document.PlacedAt config before path)
    (grounded : files.Grounded) {written : FileSystem}
    (whole : WrittenTo files document document path written) :
    files.Allows path ∧ ∀ other, Path.Under config.root other →
      written.tree.fileAt? (files.placeOf other) =
        if path.same other then some (.text document.text)
        else files.tree.fileAt? (files.placeOf other) := by
  -- Another path below the root has another place.
  obtain ⟨allows, changed⟩ :=
    FileSystem.writeWithDirectories_ok grounded placed.under.straight whole.outcome
  refine ⟨allows, fun other below => ?_⟩
  have place := placed.under.same_iff below files
  rw [changed.files]
  by_cases here : path.same other
  · rw [if_pos here, if_pos (place.1 here).symm]
  · rw [if_neg here, if_neg fun equal => here (place.2 equal.symm)]

/-- A document that is written, and the files of which are then gone from its origin, is saved. -/
theorem PlacedAt.savedTo_of_written (placed : document.PlacedAt config before path)
    (grounded : files.Grounded) (modified : document.modified = true) {written last : FileSystem}
    (whole : WrittenTo files document document path written) (work : last.work = written.work)
    (left : ∀ other, Path.Under config.root other → last.tree.fileAt? (files.placeOf other) =
      if document.origin.any (·.same other) ∧ ¬ path.same other then none
      else written.tree.fileAt? (files.placeOf other)) :
    SavedTo config.root files [document] [{ document with origin := none, modified := false }]
      last := by
  -- It touches its path and its origin.
  obtain ⟨allows, files'⟩ := placed.left_of_written grounded whole
  refine ⟨work.trans whole.work, fun other member _ place below => ?_, .cons ⟨rfl, rfl⟩ .nil,
    fun other below => ?_⟩
  · rw [List.mem_singleton.1 member, placed.place] at below
    cases below
    exact allows
  · rw [left other below, files' other below, leftAt_singleton, touches, leaves, modified,
      placed.place, Option.any_some, Bool.true_and]
    by_cases here : path.same other <;> simp [here]

/-- A document that has changed is written to its place and removed from its origin. -/
theorem PlacedAt.savedTo (placed : document.PlacedAt config before path)
    (grounded : files.Grounded) (work : files.work = before.work)
    (modified : document.modified = true) (done : (document.save files).result = .ok ()) :
    SavedTo config.root files [document] [(document.save files).document]
      (document.save files).files := by
  -- There is nothing to flush, and the origin has another place than any path that is not the same.
  have saving := document.saving files
  generalize document.save files = attempt at saving done ⊢
  -- Only two ways of saving are successes.
  cases saving with
  | refused | unplaced | unwritten | stuck => cases done
  | @kept flushed path' written whole stays =>
    obtain rfl : document = flushed := Except.ok.inj (placed.settled.flush.symm.trans whole.flush)
    obtain rfl : path = path' := Option.some.inj (placed.place.symm.trans whole.place)
    refine placed.savedTo_of_written grounded modified whole rfl fun other below => ?_
    split
    · -- The origin that is said to have gone holds no file.
      next gone =>
      obtain ⟨origin, moved, same⟩ := (Option.any_eq_true _ _).1 gone.1
      obtain ⟨under, allows⟩ := placed.moved origin moved
      have absent : written.has origin = false := by
        refine (stays origin moved).resolve_left fun same' => gone.2 ?_
        rw [Path.same, beq_iff_eq] at same' same
        rw [Path.same, ← same', same, beq_self_eq_true]
      have none' := FileSystem.fileAt?_of_not_has (grounded.congr whole.work) under.straight
        ((FileSystem.allows_congr (whole.work.trans work) origin).2 allows) absent
      rw [FileSystem.placeOf_congr whole.work, (under.same_iff below files).1 same] at none'
      exact none'
    · rfl
  | @moved flushed path' origin written removed whole left other gone =>
    obtain rfl : document = flushed := Except.ok.inj (placed.settled.flush.symm.trans whole.flush)
    obtain rfl : path = path' := Option.some.inj (placed.place.symm.trans whole.place)
    obtain ⟨under, -⟩ := placed.moved origin left
    obtain ⟨work', files'⟩ :=
      FileSystem.removeFile_ok (grounded.congr whole.work) under.straight gone
    refine placed.savedTo_of_written grounded modified whole work' fun another below => ?_
    have place := under.same_iff below files
    -- The origin is not the path that has been written.
    have apart : origin.same another → ¬ path.same another := by
      intro same same'
      rw [Path.same, beq_iff_eq] at same same'
      rw [Path.same, same, same', beq_self_eq_true] at other
      cases other
    rw [files', FileSystem.placeOf_congr whole.work, left, Option.any_some]
    -- The path asked for may be that of the origin, which is removed.
    by_cases same : origin.same another
    · rw [if_pos (place.1 same).symm, if_pos ⟨same, apart same⟩]
    · rw [if_neg fun equal => same (place.2 equal.symm), if_neg fun both => same both.1]

end Document

namespace Collection

open Document

variable {config : Config} {before files : FileSystem}

/-- All documents that have changed are saved, one after the other. -/
theorem savedTo_saveAll {documents : List Document}
    (placed : ∀ document ∈ documents, ∃ path, document.PlacedAt config before path)
    (grounded : files.Grounded) (work : files.work = before.work) {count total : Nat}
    (done : (saveAll count files documents).result = .ok total) :
    SavedTo config.root files documents (saveAll count files documents).documents
      (saveAll count files documents).files := by
  -- The first document is saved before the others.
  induction documents generalizing files count with
  | nil => exact ⟨rfl, by simp, .nil, fun _ _ => rfl⟩
  | cons document rest ih =>
    obtain ⟨path, located⟩ := placed document (by simp)
    have others := fun other member => placed other (List.mem_cons_of_mem _ member)
    -- The document has nothing to flush, so that only its mark counts.
    have unsaved : document.isUnsaved = document.modified := by
      rw [isUnsaved, located.settled.clean, Bool.false_or]
    rw [saveAll, unsaved] at done ⊢
    cases modified : document.modified with
    | false =>
      rw [modified] at done
      have alone := @savedTo_unchanged files document modified config.root
      exact alone.append (ih others grounded work done)
    | true =>
      rw [modified] at done
      simp only [if_true] at done ⊢
      cases saved : (document.save files).result with
      | error error => rw [saved] at done; cases done
      | ok =>
        rw [saved] at done
        -- The others start from the files that the first has left.
        have alone := located.savedTo grounded work modified saved
        exact alone.append (ih others (grounded.congr alone.work) (alone.work.trans work) done)

/-- For each document, the last one that touches its path leaves its text there. -/
def KeepsAll (collection : Collection) : Prop :=
  -- Nothing is said about a path that no document touches.
  ∀ document ∈ collection.documents, ∀ path ∈ document.path,
    ∀ last ∈ (collection.documents.filter (touches path)).getLast?,
      last.leaves path = some (.text document.text)

/-- Whether all texts are kept is computed from the documents. -/
instance (collection : Collection) : Decidable collection.KeepsAll :=
  -- There is at most one path, and at most one last document.
  inferInstanceAs (Decidable (∀ document ∈ collection.documents, ∀ path ∈ document.path,
    ∀ last ∈ (collection.documents.filter (touches path)).getLast?, _))

/-- After documents are saved, one of them can be read from its path exactly if the last one that
touches the path leaves its text there. -/
theorem readText_savedTo {documents saved : List Document} {written : FileSystem}
    (outcome : SavedTo config.root files documents saved written) (grounded : files.Grounded)
    {document : Document} (member : document ∈ documents) {path : Path}
    (placed : document.PlacedAt config files path) :
    written.readText path = .ok document.text ↔
      ∀ last ∈ (documents.filter (touches path)).getLast?,
        last.leaves path = some (.text document.text) := by
  -- A document that has not changed can be read as before.
  have unchanged (same : document.modified = false) := (FileSystem.readText_eq_ok grounded
    placed.under.straight).1 (placed.saved same)
  have allows : files.Allows path := by
    cases modified : document.modified with
    | false => exact (unchanged modified).1
    | true => exact outcome.allows document member modified path placed.place
  rw [FileSystem.readText_eq_ok (grounded.congr outcome.work) placed.under.straight,
    FileSystem.allows_congr outcome.work, FileSystem.placeOf_congr outcome.work,
    outcome.left path placed.under, leftAt]
  cases final : (documents.filter (touches path)).getLast? with
  | some last => simp [allows]
  | none =>
    have untouched := List.filter_eq_nil_iff.1 (List.getLast?_eq_none_iff.1 final) document member
    have same : document.modified = false := by
      simpa [touches, placed.place, Path.same] using untouched
    simp [allows, (unchanged same).2]

/-- A collection that is saved keeps the texts of all its documents exactly if none of them is
overwritten or removed by a later one. -/
theorem Placed.save_keeps {renamed saved : Collection} {written : FileSystem} {count : Nat}
    (placed : renamed.Placed config files) (grounded : files.Grounded)
    (done : renamed.save files = (saved, written, .ok count)) :
    (∀ document ∈ saved.documents, ∃ path, document.path = some path ∧
      written.readText path = .ok document.text) ↔ renamed.KeepsAll := by
  -- What a path has afterwards is what the last document that touches it leaves.
  obtain ⟨rfl, rfl, result⟩ : saved = { renamed with
      documents := (saveAll 0 files renamed.documents).documents } ∧
      written = (saveAll 0 files renamed.documents).files ∧
      (saveAll 0 files renamed.documents).result = .ok count := by
    simp only [save, Prod.mk.injEq] at done
    exact ⟨done.1.symm, done.2.1.symm, done.2.2⟩
  have outcome := savedTo_saveAll placed.documents grounded rfl result
  constructor
  · -- A saved document keeps path and text, so that its path still has its text.
    intro kept document member path place
    obtain ⟨path', located⟩ := placed.documents document member
    rw [located.place] at place
    cases place
    obtain ⟨after, member', place', text⟩ := List.exists_of_mem_right outcome.kept.flip member
    obtain ⟨path', place, read⟩ := kept after member'
    rw [place', located.place] at place
    cases place
    rw [text] at read
    exact (readText_savedTo outcome grounded member located).1 read
  · -- A saved document stems from one of the collection.
    intro keeps after member'
    obtain ⟨document, member, place', text⟩ := List.exists_of_mem_right outcome.kept member'
    obtain ⟨path, located⟩ := placed.documents document member
    refine ⟨path, place'.trans located.place, ?_⟩
    rw [text, readText_savedTo outcome grounded member located]
    exact keeps document member path located.place

/-- After classes are renamed, saving a collection keeps the texts of all its documents exactly if
for each of them the last one that touches its path leaves its text there. -/
theorem save_keeps_iff (named : files.WellNamed) (down : Component.parent ∉ config.root.components)
    (whole : config.options.stripLineNumbers = false) {loaded renamed saved : Collection}
    (opened : load config files = .ok loaded)
    (renames : Relation.ReflTransGen RenamesClass loaded renamed) {written : FileSystem}
    {count : Nat} (done : renamed.save files = (saved, written, .ok count)) :
    (∀ document ∈ saved.documents, ∃ path, document.path = some path ∧
      written.readText path = .ok document.text) ↔ renamed.KeepsAll := by
  -- Every renaming leaves every document with a place below the root.
  have down' := Path.down_of_components down
  obtain ⟨spelled, start⟩ := placed_of_load named down' whole opened
  exact (start.renamesClasses spelled down' renames).save_keeps named.grounded done

/-- The text of a class without members. -/
def sampleText (name : Char) : Text :=
  -- The name of the class is a single character.
  ".class L".toList ++ name :: ";\n.super Lo;\n".toList

/-- The place of a class without packages. -/
def samplePath (name : Char) : Path :=
  -- The root is the directory `s`.
  ⟨"s/".toList ++ name :: ".smali".toList⟩

/-- A directory with the files of two classes. -/
def sampleFiles : FileSystem :=
  -- Relative paths start at the top.
  { tree := .directory [("s".toList, .directory
      [("A.smali".toList, .file (.text (sampleText 'A'))),
        ("B.smali".toList, .file (.text (sampleText 'B')))])] }

/-- A document that is in its place, and that may have been read from another one. -/
def sampleDocument (name : Char) (origin : Option Char) : Document :=
  -- Only a document that has been moved has changed.
  { text := sampleText name
    descriptor := ['L', name, ';']
    modifiers := []
    superclass := "Lo;".toList
    fields := []
    methods := []
    diagnostics := []
    path := some (samplePath name)
    origin := origin.map samplePath
    modified := origin.isSome }

/-- The collection of two documents. -/
def sampleCollection (first second : Document) : Collection :=
  -- Nothing has failed to load.
  ⟨Config.ofRoot ⟨"s".toList⟩, [first, second], []⟩

/-- The settings for the directory of the sample. -/
def sampleConfig : Config :=
  -- All else is as usual.
  Config.ofRoot ⟨"s".toList⟩

/-- The two files are selected in the order of their names. -/
theorem selectFiles_sampleFiles :
    sampleConfig.selectFiles sampleFiles = .ok [samplePath 'A', samplePath 'B'] := by
  -- They are listed in this order already.
  have read : sampleFiles.readDirectory sampleConfig.root = .ok (.directory
      [("A.smali".toList, .file (.text (sampleText 'A'))),
        ("B.smali".toList, .file (.text (sampleText 'B')))]) := by rfl
  unfold Config.selectFiles
  rw [read]
  dsimp only
  rw [List.mergeSort_of_pairwise]
  · decide +kernel
  · decide +kernel

/-- The two files are loaded into two documents. -/
theorem load_sampleFiles : load sampleConfig sampleFiles =
    .ok (sampleCollection (sampleDocument 'A' none) (sampleDocument 'B' none)) := by
  -- Both are read.
  rw [load, selectFiles_sampleFiles]
  decide +kernel

/-- The files of the sample have names. -/
theorem wellNamed_sampleFiles : sampleFiles.WellNamed := by
  -- There are only three of them.
  exact ⟨by decide +kernel, _, rfl⟩

/-- Two classes can be renamed and saved so that both are kept, even though the second takes the
place of the first. -/
theorem save_keeps_sample : ∃ loaded renamed saved written count,
    load sampleConfig sampleFiles = .ok loaded ∧
      Relation.ReflTransGen RenamesClass loaded renamed ∧
      renamed.save sampleFiles = (saved, written, .ok count) ∧
      ∀ document ∈ saved.documents, ∃ path, document.path = some path ∧
        written.readText path = .ok document.text := by
  -- The first class leaves its place before the second is written there.
  have first : RenamesClass (sampleCollection (sampleDocument 'A' none) (sampleDocument 'B' none))
      (sampleCollection (sampleDocument 'C' (some 'A')) (sampleDocument 'B' none)) :=
    ⟨"LA;".toList, "LC;".toList, "LC;".toList, ⟨["LC;".toList], [samplePath 'C'], []⟩,
      by decide +kernel, by decide +kernel, by decide +kernel, rfl⟩
  have second : RenamesClass
      (sampleCollection (sampleDocument 'C' (some 'A')) (sampleDocument 'B' none))
      (sampleCollection (sampleDocument 'C' (some 'A')) (sampleDocument 'A' (some 'B'))) :=
    ⟨"LB;".toList, "LA;".toList, "LA;".toList, ⟨["LA;".toList], [samplePath 'A'], []⟩,
      by decide +kernel, by decide +kernel, by decide +kernel, rfl⟩
  have renames := Relation.ReflTransGen.tail (.single first) second
  have done : save sampleFiles
      (sampleCollection (sampleDocument 'C' (some 'A')) (sampleDocument 'A' (some 'B'))) =
        (_, _, .ok 2) := Prod.ext rfl (Prod.ext rfl (by decide +kernel))
  exact ⟨_, _, _, _, _, load_sampleFiles, renames, done,
    (save_keeps_iff wellNamed_sampleFiles (by decide) rfl load_sampleFiles renames done).2
      (by decide +kernel)⟩

/-- A document is kept where its class belongs, and the class can have a place. -/
def IsHome (config : Config) (document : Document) : Prop :=
  -- Settings give the root and the extension.
  Descriptor.IsPlaceable document.descriptor ∧
    (Descriptor.classPath document.descriptor config.extension).map
      (fun below => some (config.root.join below)) = .ok document.path

/-- Whether a document is where its class belongs is computed from its place. -/
instance (config : Config) (document : Document) : Decidable (IsHome config document) :=
  -- Both parts can be computed.
  inferInstanceAs (Decidable (_ ∧ _))

/-- Two classes can be renamed and saved so that one of them is lost, even though each file was in
the place of its class and nothing has failed. -/
theorem save_loses_sample : ∃ config files loaded renamed saved written count,
    FileSystem.WellNamed files ∧ Component.parent ∉ config.root.components ∧
      Component.current ∉ config.root.components ∧ config.options.stripLineNumbers = false ∧
      load config files = .ok loaded ∧ loaded.failures = [] ∧
      (∀ document ∈ loaded.documents, IsHome config document) ∧
      Relation.ReflTransGen RenamesClass loaded renamed ∧
      renamed.save files = (saved, written, .ok count) ∧
      ¬ ∀ document ∈ saved.documents, ∃ path, document.path = some path ∧
        written.readText path = .ok document.text := by
  -- The second file is written for the first document, and removed as the origin of the second.
  have first : RenamesClass (sampleCollection (sampleDocument 'A' none) (sampleDocument 'B' none))
      (sampleCollection (sampleDocument 'A' none) (sampleDocument 'C' (some 'B'))) :=
    ⟨"LB;".toList, "LC;".toList, "LC;".toList, ⟨["LC;".toList], [samplePath 'C'], []⟩,
      by decide +kernel, by decide +kernel, by decide +kernel, rfl⟩
  have second : RenamesClass
      (sampleCollection (sampleDocument 'A' none) (sampleDocument 'C' (some 'B')))
      (sampleCollection (sampleDocument 'B' (some 'A')) (sampleDocument 'C' (some 'B'))) :=
    ⟨"LA;".toList, "LB;".toList, "LB;".toList, ⟨["LB;".toList], [samplePath 'B'], []⟩,
      by decide +kernel, by decide +kernel, by decide +kernel, rfl⟩
  have renames := Relation.ReflTransGen.tail (.single first) second
  have done : save sampleFiles
      (sampleCollection (sampleDocument 'B' (some 'A')) (sampleDocument 'C' (some 'B'))) =
        (_, _, .ok 2) := Prod.ext rfl (Prod.ext rfl (by decide +kernel))
  refine ⟨sampleConfig, sampleFiles, _, _, _, _, _, wellNamed_sampleFiles, by decide, by decide,
    rfl, load_sampleFiles, rfl, by decide +kernel, renames, done, fun kept => ?_⟩
  obtain ⟨path, place, read⟩ := kept (sampleDocument 'B' none) (by decide +kernel)
  cases place
  exact absurd read (by decide +kernel)

end Collection

end Smali
