import Smali.Proofs.Files.Path
import Smali.Proofs.Rename.Collection
import Mathlib.Logic.Relation

/-! The documents of a loaded collection have places below the root, also after renamings. -/

namespace Smali

/-- A file system in which every entry has a name that can be part of a path. -/
structure FileSystem.WellNamed (files : FileSystem) : Prop where
  /-- The names are those of the walk through the tree. -/
  names : ∀ entry ∈ files.tree.walk, ∀ name ∈ entry.1, Path.IsName name
  /-- There is a working directory. -/
  work : ∃ entries, files.tree.find? files.work = some (.directory entries)

/-- The working directory of a well-named file system is given by names alone. -/
theorem FileSystem.WellNamed.grounded {files : FileSystem} (named : files.WellNamed) :
    files.Grounded := by
  -- The walk leads to it.
  obtain ⟨entries, leads⟩ := named.work
  have visited := FileTree.mem_walk_of_find? leads (FileTree.mem_walk_self (.directory entries))
  rw [List.append_nil] at visited
  exact fun name member => (named.names _ visited name member).2.2

/-- What is in a directory is not the directory itself. -/
theorem FileTree.ne_nil_of_mem_walkEntries {entries : List (Text × FileTree)} {names : List Text}
    {content : Option Content} (visited : (names, content) ∈ walkEntries entries) :
    names ≠ [] := by
  -- The name of an entry comes first.
  induction entries with
  | nil => cases visited
  | cons entry rest ih =>
    rw [walkEntries, List.mem_append] at visited
    rcases visited with here | later
    · obtain ⟨below, -, same⟩ := List.mem_map.1 here
      cases same
      simp
    · exact ih later

namespace Path

/-- A path whose components do not go up takes no step up. -/
theorem down_of_components {path : Path} (down : Component.parent ∉ path.components) :
    ['.', '.'] ∉ path.steps := by
  -- Each step up is a component.
  intro member
  refine down (List.mem_append_right _ (List.mem_filterMap.2 ⟨['.', '.'], ?_, by decide⟩))
  exact (List.mem_filter.1 member).1

/-- An extension is part of one piece of its path. -/
theorem not_mem_extension {path : Path} {extension : Text}
    (ends : path.extension? = some extension) : '/' ∉ extension := by
  -- The last component is a piece between separators.
  intro inside
  obtain ⟨name, last, found⟩ := Option.bind_eq_some_iff.1 ends
  -- The anchor holds no name, so that the name stands behind it.
  have component : Component.name name ∈ path.components := by
    unfold fileName? at last
    split at last
    · next text final =>
      cases last
      exact List.mem_of_getLast? final
    · cases last
  have piece : name ∈ path.pieces := by
    rcases List.mem_append.1 component with first | later
    · unfold anchor at first
      split at first
      · simp at first
      · split at first <;> simp at first
    · obtain ⟨piece, member, stands⟩ := List.mem_filterMap.1 later
      unfold Component.ofPiece? at stands
      split at stands
      · cases stands
      · split at stands
        · cases stands
        · cases stands
          exact member
  -- The extension is a part of the name.
  obtain ⟨stem, -, -, rfl⟩ := nameExtension?_eq_some.1 found
  have part : '/' ∈ stem ++ '.' :: extension :=
    List.mem_append_right _ (List.mem_cons_of_mem _ inside)
  exact absurd (Text.mem_of_mem_splitOnP piece _ part).2 (by decide)

end Path

namespace Config

variable {config : Config} {files : FileSystem} {paths : List Path}

/-- The files of a tree that settings select, as paths below their root and in order. -/
def selectedIn (config : Config) (found : FileTree) : List Path :=
  -- Directories have no content.
  (((found.spread config.root).filterMap fun (path, content) => content.map fun _ => path).filter
    config.selects).mergeSort fun left right => !right.before left

/-- Files are selected exactly if the root can be read and all directories in it can be opened. -/
theorem selectFiles_iff : config.selectFiles files = .ok paths ↔
    ∃ found, files.readDirectory config.root = .ok found ∧
      openDirectories (found.spread config.root) = .ok () ∧ paths = config.selectedIn found := by
  -- Each of the two can fail.
  unfold selectFiles
  cases read : files.readDirectory config.root with
  | error failure => simp
  | ok found =>
    simp only [bind_eq_ok, pure_eq_ok, Except.ok.injEq, exists_eq_left', selectedIn]
    constructor
    · rintro ⟨⟨⟩, opened, rfl⟩
      exact ⟨opened, rfl⟩
    · rintro ⟨opened, rfl⟩
      exact ⟨(), opened, rfl⟩

/-- The files that are selected in a tree are those on the walk that have a selected path. -/
theorem mem_selectedIn {found : FileTree} {path : Path} : path ∈ config.selectedIn found ↔
    (∃ names content, (names, some content) ∈ found.walk ∧
      path = FileTree.pathBelow config.root names) ∧ config.selects path := by
  -- Sorting keeps the paths.
  rw [selectedIn, List.mem_mergeSort, List.mem_filter, List.mem_filterMap, FileTree.spread_eq_map]
  refine and_congr_left fun _ => ⟨?_, ?_⟩
  · rintro ⟨⟨path', content⟩, below, isFile⟩
    obtain ⟨⟨names, content'⟩, visited, same⟩ := List.mem_map.1 below
    cases same
    obtain ⟨content, rfl, rfl⟩ := Option.map_eq_some_iff.1 isFile
    exact ⟨names, content, visited, rfl⟩
  · rintro ⟨names, content, visited, rfl⟩
    exact ⟨_, List.mem_map.2 ⟨_, visited, rfl⟩, rfl⟩

/-- A selected file is an entry of the root, at some depth. -/
theorem exists_of_selectFiles (selected : config.selectFiles files = .ok paths) :
    config.root.spelling ≠ [] ∧
      ∃ lead entries, files.tree.find? lead = some (.directory entries) ∧
        ∀ path ∈ paths, config.selects path ∧ ∃ names content,
          (names, content) ∈ FileTree.walkEntries entries ∧
            path = FileTree.pathBelow config.root names := by
  -- The root itself is listed without content.
  obtain ⟨found, read, -, rfl⟩ := selectFiles_iff.1 selected
  simp only [FileSystem.readDirectory, bind_eq_ok, Prod.exists] at read
  obtain ⟨lead, tree, resolved, isDirectory⟩ := read
  have leads := FileSystem.find?_of_resolve resolved
  constructor
  · intro empty
    simp only [FileSystem.resolve, bind_eq_ok] at resolved
    obtain ⟨⟨⟩, checked, -⟩ := resolved
    simp [Path.check, empty] at checked
  · -- Each path is that of a file that the walk has met below the root.
    cases tree with
    | file content => cases isDirectory
    | directory entries =>
      cases isDirectory
      refine ⟨lead, entries, leads, fun path member => ?_⟩
      obtain ⟨⟨names, content, visited, rfl⟩, chosen⟩ := mem_selectedIn.1 member
      rw [FileTree.walk, List.mem_cons] at visited
      rcases visited with top | visited
      · cases top
      · exact ⟨chosen, names, some content, visited, rfl⟩

end Config

/-- Files are selected below the root. -/
theorem Config.under_of_selectFiles {config : Config} {files : FileSystem}
    (named : files.WellNamed) (down : ['.', '.'] ∉ config.root.steps) {paths : List Path}
    (selected : config.selectFiles files = .ok paths) {path : Path} (member : path ∈ paths) :
    Path.Under config.root path ∧ '/' ∉ config.extension := by
  -- The names that lead to the file are those of entries.
  obtain ⟨spelled, lead, entries, leads, each⟩ := exists_of_selectFiles selected
  obtain ⟨chosen, names, content, visited, rfl⟩ := each path member
  have inside := FileTree.mem_walk_of_find? leads (show (names, content) ∈
    (FileTree.directory entries).walk by rw [FileTree.walk]; exact List.mem_cons_of_mem _ visited)
  have proper : ∀ name ∈ names, Path.IsName name := fun name member =>
    named.names _ inside name (List.mem_append_right _ member)
  rw [selects, Bool.and_eq_true, beq_iff_eq] at chosen
  exact ⟨Path.under_pathBelow spelled down (FileTree.ne_nil_of_mem_walkEntries visited) proper,
    Path.not_mem_extension chosen.1⟩

/-- A document has a place below the root, and the file system has what is saved of it. -/
structure Document.PlacedAt (config : Config) (files : FileSystem) (document : Document)
    (path : Path) : Prop where
  /-- The document holds what is read from its text. -/
  settled : document.Settled
  /-- No separator is part of the extension of the files. -/
  solid : '/' ∉ config.extension
  /-- The document is saved to the path. -/
  place : document.path = some path
  /-- The path is below the root. -/
  under : Path.Under config.root path
  /-- A document that has not been moved is where it was read. -/
  still : document.origin = none → files.Allows path
  /-- A document that has been moved was read below the root. -/
  moved : ∀ origin, document.origin = some origin →
    Path.Under config.root origin ∧ files.Allows origin
  /-- The text of a document that has not changed is that of its file. -/
  saved : document.modified = false → files.readText path = .ok document.text

/-- All documents of a collection have places below the root. -/
structure Collection.Placed (config : Config) (files : FileSystem) (collection : Collection) :
    Prop where
  /-- The settings are those of the collection. -/
  settings : collection.config = config
  /-- Each document has a place. -/
  documents : ∀ document ∈ collection.documents, ∃ path, document.PlacedAt config files path

/-- Adding a document keeps the settings. -/
@[simp] theorem Collection.config_add (collection : Collection) (path : Path)
    (loaded : Except Error Document) : (collection.add path loaded).config = collection.config := by
  -- Only documents and failures are added.
  unfold add
  split
  · rfl
  · split <;> rfl

/-- Adding documents keeps the settings. -/
theorem Collection.config_foldl_add {Source : Type} {pathOf : Source → Path}
    {load : Source → Except Error Document} (sources : List Source) (start : Collection) :
    (sources.foldl (fun collection source => collection.add (pathOf source) (load source))
      start).config = start.config := by
  -- They are added one by one.
  induction sources generalizing start with
  | nil => rfl
  | cons source rest ih => exact (ih _).trans (config_add _ _ _)

/-- A document that is read comes from the text of its file, and has the path as its place. -/
theorem Document.exists_of_read {options : ParseOptions} {files : FileSystem} {path : Path}
    {document : Document} (done : read options path files = .ok document) :
    ∃ text fresh, files.readText path = .ok text ∧ parse options text = .ok fresh ∧
      document = fresh.setPath path := by
  -- Both steps have succeeded.
  simp only [read, bind_eq_ok, concerning_eq_ok, pure_eq_ok] at done
  obtain ⟨text, found, fresh, parsed, rfl⟩ := done
  refine ⟨text, fresh, ?_, parsed, rfl⟩
  split at found
  · next text' here =>
    cases found
    exact here
  · exact absurd found refuse_ne_ok

/-- A collection of files is settled. -/
theorem Collection.settled_load {config : Config} {files : FileSystem} {collection : Collection}
    (loaded : load config files = .ok collection) : collection.Settled := by
  -- Each file has just been read.
  simp only [load, bind_eq_ok, pure_eq_ok] at loaded
  obtain ⟨paths, -, rfl⟩ := loaded
  refine forall_foldl_add (fun _ member => by cases member) fun path _ document done => ?_
  obtain ⟨text, fresh, -, parsed, rfl⟩ := Document.exists_of_read done
  exact (Document.settled_of_parse parsed : fresh.Settled)

/-- A document that is parsed has the text that was prepared, and has neither been moved nor
changed. -/
theorem Document.fresh_of_parse {options : ParseOptions} {text : Text} {document : Document}
    (done : parse options text = .ok document) :
    document.text = (if options.stripLineNumbers then Text.withoutLineNumbers text else text) ∧
      document.origin = none ∧ document.modified = false := by
  -- The text that is read is the one that is kept.
  simp only [parse, bind_eq_ok, pure_eq_ok] at done
  obtain ⟨source, parsed, rfl⟩ := done
  exact ⟨ClassText.text_of_parse parsed, rfl, rfl⟩

/-- A document that is read is where it was read. -/
theorem Document.placedAt_of_read {config : Config} {files : FileSystem}
    (grounded : files.Grounded) (whole : config.options.stripLineNumbers = false) {path : Path}
    (under : Path.Under config.root path) (solid : '/' ∉ config.extension) {document : Document}
    (done : read config.options path files = .ok document) :
    document.PlacedAt config files path := by
  -- Its text is that of the file.
  obtain ⟨text, fresh, content, parsed, rfl⟩ := exists_of_read done
  have settled : fresh.Settled := settled_of_parse parsed
  obtain ⟨kept, unmoved, -⟩ := fresh_of_parse parsed
  rw [whole, if_neg Bool.false_ne_true] at kept
  exact {
    settled := settled
    solid := solid
    place := rfl
    under := under
    still := fun _ => ((FileSystem.readText_eq_ok grounded under.straight).1 content).1
    moved := fun _ left => by
      rw [setPath, unmoved] at left
      cases left
    saved := fun _ => by
      rw [content, ← kept]
      rfl }

/-- Every document of a collection that is loaded is where it was read. -/
theorem Collection.placed_of_load {config : Config} {files : FileSystem}
    (named : files.WellNamed) (down : ['.', '.'] ∉ config.root.steps)
    (whole : config.options.stripLineNumbers = false) {collection : Collection}
    (loaded : load config files = .ok collection) :
    config.root.spelling ≠ [] ∧ collection.Placed config files := by
  -- The paths are those of selected files.
  simp only [load, bind_eq_ok, pure_eq_ok] at loaded
  obtain ⟨paths, selected, rfl⟩ := loaded
  refine ⟨(Config.exists_of_selectFiles selected).1, config_foldl_add paths _,
    forall_foldl_add (fun _ member => by cases member) fun path member document loaded => ?_⟩
  obtain ⟨under, solid⟩ := Config.under_of_selectFiles named down selected member
  exact ⟨path, Document.placedAt_of_read named.grounded whole under solid loaded⟩

namespace Document.PlacedAt

variable {config : Config} {files : FileSystem} {document : Document} {path : Path}

/-- A document with a place has one after it is moved below the root. -/
theorem moveTo (placed : document.PlacedAt config files path) {target : Option Path}
    (below : ∀ other, target = some other → Path.Under config.root other) :
    ∃ path', (document.moveTo target).PlacedAt config files path' := by
  -- The first move tells where the document was read.
  cases target with
  | none => exact ⟨path, placed⟩
  | some other =>
    unfold Document.moveTo Document.relocate
    dsimp only
    split
    · exact ⟨path, placed⟩
    -- The first place becomes the origin.
    · refine ⟨other, placed.settled, placed.solid, rfl, below other rfl, ?_, ?_, ?_⟩
      · intro still
        simp [placed.place] at still
      -- Later moves keep the origin that the first one has left.
      · intro origin moved
        cases before : document.origin with
        | none =>
          rw [before, placed.place] at moved
          cases moved
          exact ⟨placed.under, placed.still before⟩
        | some origin' =>
          rw [before] at moved
          cases moved
          exact placed.moved origin before
      · intro same
        cases same

/-- A document with a place has one after another text is put into it. -/
theorem withSource (placed : document.PlacedAt config files path) {text : Text}
    {source : ClassText} (read : ClassText.parse text = .ok source) :
    ({ document.withSource source with modified := true } : Document).PlacedAt config files path :=
  -- The place is the same.
  { settled := by
      show ClassText.parse source.text = .ok source
      rw [ClassText.text_of_parse read, read]
    solid := placed.solid
    place := placed.place
    under := placed.under
    still := placed.still
    moved := placed.moved
    saved := fun same => by cases same }

/-- A document with a place has one after a renaming whose target is below the root. -/
theorem applyTo (placed : document.PlacedAt config files path) {task : Renaming}
    (below : ∀ other, task.target = some other → Path.Under config.root other) :
    ∃ path', (task.applyTo document).1.PlacedAt config files path' := by
  -- Only another text can move.
  have applied := task.applied placed.settled
  generalize task.applyTo document = outcome at applied ⊢
  cases applied with
  | kept same => exact ⟨path, placed⟩
  | refused unread => exact ⟨path, placed⟩
  | rewritten changed read =>
    refine (placed.withSource read).moveTo fun other moved => ?_
    split at moved
    · exact below other moved
    · cases moved

end Document.PlacedAt

namespace Collection

/-- A collection becomes another by renaming a class to one that can have a place, without
failures. -/
def RenamesClass (collection renamed : Collection) : Prop :=
  -- The references are given as texts.
  ∃ old new descriptor report, Reference.parse new = .ok (.ofClass descriptor) ∧
    Descriptor.IsPlaceable descriptor ∧ collection.rename old new = .ok (renamed, report) ∧
    report.failures = []

/-- The renaming of a class moves its document to the place of the new class. -/
theorem target_of_planRenaming {collection : Collection} {old new descriptor : Text}
    (toClass : Reference.parse new = .ok (.ofClass descriptor)) {task : Renaming}
    (planned : collection.planRenaming old new = .ok task) :
    ∃ below, Descriptor.classPath descriptor collection.config.extension = .ok below ∧
      task.target = some (collection.config.root.join below) := by
  -- The new class gives the place.
  simp only [planRenaming, toClass, bind_eq_ok, Except.ok.injEq, exists_eq_left'] at planned
  obtain ⟨reference, -, planned⟩ := planned
  split at planned
  · exact absurd planned refuse_ne_ok
  · simp only [bind_eq_ok, pure_eq_ok] at planned
    obtain ⟨⟨⟩, -, below, place, rfl⟩ := planned
    exact ⟨below, place, rfl⟩

/-- All documents have places after a class is renamed. -/
theorem Placed.renamesClass {config : Config} {files : FileSystem} {collection renamed : Collection}
    (placed : collection.Placed config files) (spelled : config.root.spelling ≠ [])
    (down : ['.', '.'] ∉ config.root.steps) (renames : collection.RenamesClass renamed) :
    renamed.Placed config files := by
  -- The place of the new class is below the root.
  obtain ⟨old, new, descriptor, report, toClass, placeable, done, -⟩ := renames
  obtain ⟨task, planned, settings, documents, -⟩ := exists_of_rename done
  obtain ⟨below, place, target⟩ := target_of_planRenaming toClass planned
  rw [placed.settings] at settings place target
  refine ⟨settings, fun document member => ?_⟩
  rw [documents] at member
  obtain ⟨before, inside, rfl⟩ := List.mem_map.1 member
  obtain ⟨path, located⟩ := placed.documents before inside
  refine located.applyTo fun other moved => ?_
  obtain ⟨relative, straight⟩ := Descriptor.straight_classPath placeable located.solid place
  rw [target] at moved
  cases moved
  exact Path.under_join spelled down relative straight

/-- All documents have places after any number of classes are renamed. -/
theorem Placed.renamesClasses {config : Config} {files : FileSystem}
    {collection renamed : Collection} (placed : collection.Placed config files)
    (spelled : config.root.spelling ≠ []) (down : ['.', '.'] ∉ config.root.steps)
    (renames : Relation.ReflTransGen RenamesClass collection renamed) :
    renamed.Placed config files := by
  -- Each renaming keeps the places.
  induction renames with
  | refl => exact placed
  | tail _ next ih => exact ih.renamesClass spelled down next

end Collection

end Smali
