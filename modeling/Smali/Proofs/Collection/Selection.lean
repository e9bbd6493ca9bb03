import Smali.Proofs.Collection.Save
import Smali.Proofs.Files.Order

/-! Settings select exactly the files below their root that they want, in strict order, unless a
directory cannot be opened. -/

namespace Smali

namespace FileSystem

/-- Two file systems differ at most in the order in which directories list their entries. -/
structure Reordered (files other : FileSystem) : Prop where
  /-- Relative paths start from the same directory. -/
  work : other.work = files.work
  /-- The same entries are visited. -/
  walk : other.tree.walk.Perm files.tree.walk

variable {files other : FileSystem}

namespace Reordered

/-- Entries that are distinct are so in any order. -/
theorem distinct (order : files.Reordered other) (distinct : files.tree.Distinct) :
    other.tree.Distinct :=
  -- The names are the same.
  (order.walk.map Prod.fst).nodup_iff.2 distinct

/-- The same names lead to the same entries. -/
theorem entryAt? (order : files.Reordered other) (distinct : files.tree.Distinct)
    (names : List Text) : other.tree.entryAt? names = files.tree.entryAt? names := by
  -- They are on the same walk.
  refine Option.ext fun content => ?_
  rw [← FileTree.mem_walk_iff distinct, ← FileTree.mem_walk_iff (order.distinct distinct),
    order.walk.mem_iff]

/-- Well-named entries are well named in any order. -/
theorem wellNamed (order : files.Reordered other) (distinct : files.tree.Distinct)
    (named : files.WellNamed) : other.WellNamed := by
  -- The working directory is the same.
  refine ⟨fun entry visited => named.names entry (order.walk.mem_iff.1 visited), ?_⟩
  obtain ⟨entries, leads⟩ := named.work
  have here := FileTree.exists_find?_eq_directory.1 ⟨entries, leads⟩
  rw [← order.entryAt? distinct, ← order.work] at here
  exact FileTree.exists_find?_eq_directory.2 here

/-- A path that leads to a directory does so in any order. -/
theorem hasDirectory (order : files.Reordered other) (distinct : files.tree.Distinct)
    {path : Path} (isDirectory : files.hasDirectory path) : other.hasDirectory path := by
  -- The same steps can be taken to the same target.
  obtain ⟨⟨checked, passable⟩, here⟩ := hasDirectory_iff.1 isDirectory
  have same := order.entryAt? distinct
  refine hasDirectory_iff.2 ⟨⟨checked, ?_⟩, ?_⟩
  · rw [startOf_congr order.work]
    exact passable.of_same same
  · rw [targetOf_congr order.work, same, here]

end Reordered

end FileSystem

namespace Config

/-- Settings want a file that names lead to from their root. -/
structure Wants (config : Config) (names : List Text) : Prop where
  /-- The last name has the extension behind its last dot, and something in front of that dot. -/
  extension : ∃ front stem, names = front ++ [stem ++ '.' :: config.extension] ∧ stem ≠ [] ∧
    '.' ∉ config.extension
  /-- A keyword stands in the names, if keywords are asked for. -/
  included : config.included = [] ∨
    ∃ keyword ∈ config.included, PathFilter.normalized keyword <:+: ['/'].intercalate names
  /-- No keyword that is left out stands in the names. -/
  excluded : ∀ keyword ∈ config.excluded,
    ¬ PathFilter.normalized keyword <:+: ['/'].intercalate names

/-- Settings select the path of an entry below their root exactly if they want it. -/
theorem selects_pathBelow {config : Config} {names : List Text} (nonempty : names ≠ [])
    (named : ∀ name ∈ names, Path.IsName name) :
    config.selects (FileTree.pathBelow config.root names) ↔ config.Wants names := by
  -- The extension is that of the last name, and the keywords are looked for in all names.
  obtain ⟨front, last, rfl⟩ := (List.eq_nil_or_concat names).resolve_left nonempty
  rw [List.concat_eq_append] at named ⊢
  -- The last name alone decides about the extension.
  have extension : (FileTree.pathBelow config.root (front ++ [last])).extension? =
      some config.extension ↔ ∃ front' stem, front ++ [last] =
        front' ++ [stem ++ '.' :: config.extension] ∧ stem ≠ [] ∧ '.' ∉ config.extension := by
    rw [Path.extension?, Path.fileName?_pathBelow named, Option.bind_some,
      Path.nameExtension?_eq_some]
    constructor
    · rintro ⟨stem, some', noDot, rfl⟩
      exact ⟨front, stem, rfl, some', noDot⟩
    · rintro ⟨front', stem, same, some', noDot⟩
      exact ⟨stem, some', noDot, (List.append_inj' same rfl).2 |> List.singleton_inj.1⟩
  -- The names are compared with the keywords as one relative path.
  have keywords : config.filter.accepts
      (Path.relative config.root (FileTree.pathBelow config.root (front ++ [last]))) ↔
        (config.included = [] ∨ ∃ keyword ∈ config.included,
          PathFilter.normalized keyword <:+: ['/'].intercalate (front ++ [last])) ∧
        ∀ keyword ∈ config.excluded,
          ¬ PathFilter.normalized keyword <:+: ['/'].intercalate (front ++ [last]) := by
    rw [Path.relative_pathBelow named]
    simp [PathFilter.accepts, filter, PathFilter.ofKeywords, Text.contains_iff,
      ← Bool.not_eq_true]
  rw [selects, Bool.and_eq_true, beq_iff_eq, extension, keywords]
  constructor
  · rintro ⟨ends, some', none'⟩
    exact ⟨ends, some', none'⟩
  · intro wanted
    exact ⟨wanted.extension, wanted.included, wanted.excluded⟩

/-- Directories can be opened exactly if each of them has a path that is accepted. -/
theorem openDirectories_eq_ok {below : List (Path × Option Content)} :
    openDirectories below = .ok () ↔ ∀ path, (path, none) ∈ below → path.check = .ok () := by
  -- Files are passed over.
  induction below with
  | nil => simp [openDirectories]
  | cons entry rest ih =>
    obtain ⟨path, content⟩ := entry
    cases content with
    | some content => simp [openDirectories, ih]
    | none =>
      cases checked : path.check with
      | error failure =>
        refine iff_of_false ?_ fun each => ?_
        · simp [openDirectories, checked]
        · rw [each path List.mem_cons_self] at checked
          cases checked
      | ok => simp [openDirectories, checked, ih]

/-- The directories below the root, and the root itself, have paths that the system accepts. -/
def Openable (config : Config) (files : FileSystem) : Prop :=
  -- The paths are spelled from the root as it is given.
  ∀ names, files.tree.entryAt? (files.targetOf config.root ++ names) = some none →
    (FileTree.pathBelow config.root names).check = .ok ()

/-- Paths are those of all files below the root that settings want, in order. -/
structure Selection (config : Config) (files : FileSystem) (paths : List Path) : Prop where
  /-- The paths are those of the files that are wanted. -/
  members : ∀ path, path ∈ paths ↔ ∃ names content,
    files.tree.fileAt? (files.targetOf config.root ++ names) = some content ∧
      path = FileTree.pathBelow config.root names ∧ config.Wants names
  /-- Each path comes before all that follow it. -/
  ordered : paths.Pairwise fun left right => left.before right

/-- There is at most one selection. -/
theorem Selection.unique {config : Config} {files : FileSystem} {paths others : List Path}
    (first : config.Selection files paths) (second : config.Selection files others) :
    paths = others := by
  -- Both have the same paths in the same order.
  exact Path.eq_of_pairwise_before first.ordered second.ordered fun path =>
    (first.members path).trans (second.members path).symm

section Reordering

variable {config : Config} {files other : FileSystem} (distinct : files.tree.Distinct)
  (order : files.Reordered other)

include distinct order

/-- Directories that can be opened can be opened in any order. -/
theorem Openable.reordered (openable : config.Openable files) : config.Openable other := by
  -- They are the same directories.
  intro names present
  rw [FileSystem.targetOf_congr order.work, order.entryAt? distinct] at present
  exact openable names present

/-- A selection is the same in any order. -/
theorem Selection.reordered {paths : List Path} (selection : config.Selection files paths) :
    config.Selection other paths := by
  -- The same files are below the root.
  refine ⟨fun path => ?_, selection.ordered⟩
  simp only [FileTree.fileAt?_eq_join, FileSystem.targetOf_congr order.work,
    order.entryAt? distinct]
  simpa only [FileTree.fileAt?_eq_join] using selection.members path

end Reordering

section Walk

variable {config : Config} {files : FileSystem} {found : FileTree} (named : files.WellNamed)
  (distinct : files.tree.Distinct)
  (leads : files.tree.find? (files.targetOf config.root) = some found)

include distinct leads in
/-- The walk below the root goes through its entries, with their paths. -/
theorem mem_spread_iff {path : Path} {content : Option Content} :
    (path, content) ∈ found.spread config.root ↔
      ∃ names, files.tree.entryAt? (files.targetOf config.root ++ names) = some content ∧
        path = FileTree.pathBelow config.root names := by
  -- The names of the walk lead on from the root.
  rw [FileTree.spread_eq_map, List.mem_map]
  simp only [FileTree.entryAt?_append leads, ← FileTree.mem_walk_iff (distinct.of_find? leads)]
  constructor
  · rintro ⟨⟨names, content'⟩, visited, same⟩
    cases same
    exact ⟨names, visited, rfl⟩
  · rintro ⟨names, visited, rfl⟩
    exact ⟨(names, content), visited, rfl⟩

include named leads in
/-- The entries below the root have names. -/
theorem isName_of_mem_walk {names : List Text} {content : Option Content}
    (visited : (names, content) ∈ found.walk) : ∀ name ∈ names, Path.IsName name :=
  -- They are part of the names that lead there from the top.
  fun name member => named.names _ (FileTree.mem_walk_of_find? leads visited) name
    (List.mem_append_right _ member)

include named distinct leads

/-- The paths of the files that are selected have different components. -/
theorem nodup_components : ((((found.spread config.root).filterMap fun (path, content) =>
    content.map fun _ => path).filter config.selects).map Path.components).Nodup := by
  -- No two entries are under the same names.
  have apart : found.walk.Pairwise fun entry other => entry.1 ≠ other.1 :=
    List.pairwise_map.1 (distinct.of_find? leads)
  rw [List.Nodup, List.pairwise_map, FileTree.spread_eq_map]
  refine List.Pairwise.filter _ ?_
  rw [List.pairwise_filterMap, List.pairwise_map]
  refine apart.imp_of_mem fun {entry other} visited visited' differ => ?_
  rintro path isFile path' isFile'
  obtain ⟨content, -, rfl⟩ := Option.map_eq_some_iff.1 isFile
  obtain ⟨content', -, rfl⟩ := Option.map_eq_some_iff.1 isFile'
  exact Path.components_pathBelow_ne (isName_of_mem_walk named leads visited)
    (isName_of_mem_walk named leads visited') differ

/-- The sorted list of the files that are selected is the selection. -/
theorem selection_selectedIn (isDirectory : found.isDirectory) :
    config.Selection files (config.selectedIn found) := by
  -- The root itself is no file.
  have proper {names : List Text} {content : Content} (present :
      files.tree.entryAt? (files.targetOf config.root ++ names) = some (some content)) :
      names ≠ [] ∧ ∀ name ∈ names, Path.IsName name := by
    rw [FileTree.entryAt?_append leads] at present
    refine ⟨?_, isName_of_mem_walk named leads
      ((FileTree.mem_walk_iff (distinct.of_find? leads)).2 present)⟩
    rintro rfl
    cases found with
    | file content => cases isDirectory
    | directory entries => cases present
  -- The list is sorted and has no path twice, since no name stands twice in a directory.
  refine ⟨fun path => ?_, Path.pairwise_before_mergeSort (nodup_components named distinct leads)⟩
  rw [mem_selectedIn]
  simp only [FileTree.mem_walk_iff (distinct.of_find? leads), ← FileTree.entryAt?_append leads,
    FileTree.fileAt?_eq_join, Option.join_eq_some_iff]
  constructor
  · rintro ⟨⟨names, content, present, rfl⟩, chosen⟩
    obtain ⟨nonempty, isName⟩ := proper present
    exact ⟨names, content, present, rfl, (selects_pathBelow nonempty isName).1 chosen⟩
  · rintro ⟨names, content, present, rfl, wanted⟩
    obtain ⟨nonempty, isName⟩ := proper present
    exact ⟨⟨names, content, present, rfl⟩, (selects_pathBelow nonempty isName).2 wanted⟩

end Walk

section Selecting

variable {config : Config} {files : FileSystem} (named : files.WellNamed)
  (distinct : files.tree.Distinct) (isDirectory : files.hasDirectory config.root)

include named distinct isDirectory

/-- There is a selection, and files are selected exactly if all directories can be opened and they
are the selection. -/
theorem selectFiles_eq_ok : (∃ paths, config.Selection files paths) ∧
    ∀ paths, config.selectFiles files = .ok paths ↔
      config.Openable files ∧ config.Selection files paths := by
  -- The walk goes through all directories below the root.
  obtain ⟨⟨checked, passable⟩, here⟩ := FileSystem.hasDirectory_iff.1 isDirectory
  obtain ⟨entries, leads⟩ := FileTree.exists_find?_eq_directory.2 here
  have read : files.readDirectory config.root = .ok (.directory entries) := by
    rw [FileSystem.readDirectory,
      FileSystem.resolve_iff.2 ⟨⟨checked, passable, fun _ => rfl⟩, rfl, leads⟩]
    rfl
  -- Opening the directories visited is opening those below the root.
  have opens : openDirectories ((FileTree.directory entries).spread config.root) = .ok () ↔
      config.Openable files := by
    rw [openDirectories_eq_ok]
    simp only [mem_spread_iff distinct leads]
    constructor
    · intro each names present
      exact each _ ⟨names, present, rfl⟩
    · rintro openable path ⟨names, present, same⟩
      exact same ▸ openable names present
  have selection := selection_selectedIn named distinct leads rfl
  refine ⟨⟨_, selection⟩, fun paths => ?_⟩
  rw [selectFiles_iff, ← opens]
  constructor
  · rintro ⟨found, again, opened, rfl⟩
    cases read.symm.trans again
    exact ⟨opened, selection⟩
  · rintro ⟨opened, other⟩
    exact ⟨_, read, opened, other.unique selection⟩

/-- Files are selected from a root that is a directory exactly if all directories can be opened;
then they are exactly the files below the root that the settings want, each before all that follow
it, and the same are selected if the directories list their entries in another order. -/
theorem selectFiles_finds :
    ((∃ paths, config.selectFiles files = .ok paths) ↔ config.Openable files) ∧
      ∀ paths, config.selectFiles files = .ok paths → config.Selection files paths ∧
        ∀ other, files.Reordered other → config.selectFiles other = .ok paths := by
  -- The entries decide, and these are the same in any order.
  obtain ⟨⟨paths, selection⟩, done⟩ := selectFiles_eq_ok named distinct isDirectory
  refine ⟨⟨fun ⟨paths, selected⟩ => ((done paths).1 selected).1,
    fun openable => ⟨paths, (done paths).2 ⟨openable, selection⟩⟩⟩, fun paths selected => ?_⟩
  obtain ⟨openable, selection⟩ := (done paths).1 selected
  refine ⟨selection, fun other order => ?_⟩
  exact ((selectFiles_eq_ok (order.wellNamed distinct named) (order.distinct distinct)
    (order.hasDirectory distinct isDirectory)).2 paths).2
      ⟨openable.reordered distinct order, selection.reordered distinct order⟩

end Selecting

open Collection (sampleConfig sampleFiles samplePath sampleText)

/-- The files of the sample are selected in the order of their names, although the directory may
list them the other way round. -/
theorem selectFiles_finds_sample :
    let other : FileSystem := { tree := .directory [("s".toList, .directory
      [("B.smali".toList, .file (.text (sampleText 'B'))),
        ("A.smali".toList, .file (.text (sampleText 'A')))])] }
    sampleConfig.Openable sampleFiles ∧
      sampleConfig.Selection sampleFiles [samplePath 'A', samplePath 'B'] ∧
      sampleConfig.selectFiles other = .ok [samplePath 'A', samplePath 'B'] := by
  -- The sample itself lists them in order.
  intro other
  have selected := Collection.selectFiles_sampleFiles
  obtain ⟨opened, finds⟩ := selectFiles_finds Collection.wellNamed_sampleFiles
    (show sampleFiles.tree.Distinct by decide +kernel)
    (show sampleFiles.hasDirectory sampleConfig.root by decide +kernel)
  obtain ⟨selection, again⟩ := finds _ selected
  exact ⟨opened.1 ⟨_, selected⟩, selection, again other ⟨rfl, by decide +kernel⟩⟩

/-- A file tree of one directory with a directory and files in it. -/
def deepFiles : FileSystem :=
  -- There is a file at each depth.
  { tree := .directory [("d".toList, .directory
      [("sub".toList, .directory [("x.smali".toList, .file (.text []))]),
        ("y.smali".toList, .file (.text []))])] }

/-- Settings whose root is a directory, spelled so long that no directory below it can be opened. -/
def longConfig : Config :=
  -- All separators at the end of the root lead nowhere.
  .ofRoot ⟨'d' :: List.replicate 4092 '/'⟩

/-- No files are selected if the path of a directory below the root is too long. -/
theorem selectFiles_refusesSample : ∃ (files : FileSystem) (config : Config), files.WellNamed ∧
    files.tree.Distinct ∧ files.hasDirectory config.root ∧
    ∀ paths, config.selectFiles files ≠ .ok paths := by
  -- The root itself can be opened.
  have named : deepFiles.WellNamed := ⟨by decide +kernel, _, rfl⟩
  have distinct : deepFiles.tree.Distinct := by decide +kernel
  have isDirectory : deepFiles.hasDirectory longConfig.root := by decide +kernel
  refine ⟨deepFiles, longConfig, named, distinct, isDirectory, fun paths selected => ?_⟩
  have openable := (((selectFiles_eq_ok named distinct isDirectory).2 paths).1 selected).1
  exact absurd (openable ["sub".toList] (by decide +kernel)) (by decide +kernel)

end Config

end Smali
