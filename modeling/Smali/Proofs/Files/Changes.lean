import Smali.Proofs.Files.Target

/-! Writing or removing a file changes one entry of the tree, and making directories no file. -/

namespace Smali.FileSystem

variable {files changed : FileSystem} {path other : Path}

/-- One entry of a file system has changed at most, which is no directory, neither before nor
after. -/
structure EntryChanged (files : FileSystem) (place : List Text) (content : Option Content)
    (changed : FileSystem) : Prop where
  /-- Relative paths start from the same directory. -/
  work : changed.work = files.work
  /-- There was no directory. -/
  solid : files.tree.entryAt? place ≠ some none
  /-- All other entries are as they were. -/
  entries : ∀ names, changed.tree.entryAt? names =
    if names = place then content.map some else files.tree.entryAt? names

/-- Steps to another place can be taken in a changed file system exactly if they could before. -/
theorem EntryChanged.passable_iff {place : List Text} {content : Option Content}
    (change : files.EntryChanged place content changed) {steps : List Text}
    (apart : steps.foldl FileTree.namesAfter [] ≠ place) :
    changed.tree.Passable [] steps ↔ files.tree.Passable [] steps := by
  -- The place is no directory on either side.
  have same : ∀ names, names ≠ place →
      changed.tree.entryAt? names = files.tree.entryAt? names := fun names other => by
    rw [change.entries, if_neg other]
  have solid : changed.tree.entryAt? place ≠ some none := by
    rw [change.entries, if_pos rfl]
    cases content <;> simp
  constructor
  · exact FileTree.Passable.congr (fun names other => (same names other).symm) solid apart
  · exact FileTree.Passable.congr same change.solid apart

/-- A text with another target can be read from a changed file system exactly if it could before. -/
theorem EntryChanged.readText_iff {place : List Text} {content : Option Content}
    (change : files.EntryChanged place content changed) (apart : files.targetOf path ≠ place)
    {text : Text} : changed.readText path = .ok text ↔ files.readText path = .ok text := by
  -- The entry and the way to it are the same.
  rw [FileSystem.readText_iff, FileSystem.readText_iff, targetOf_congr change.work,
    change.entries, if_neg apart, startOf_congr change.work,
    change.passable_iff (show _ ≠ place from apart)]

/-- The directory around a path is in the tree under the names that come with it. -/
theorem find?_of_resolveAround {around : List Text} {entries : List (Text × FileTree)}
    (resolved : files.resolveAround path = .ok (around, entries)) :
    files.tree.find? around = some (.directory entries) := by
  -- The names are those of the way that was taken.
  simp only [resolveAround, bind_eq_ok] at resolved
  obtain ⟨⟨⟩, -, way, taken, reached⟩ := resolved
  have start : files.tree.Leads [] := trivial
  have leads := FileTree.find?_namesOf (FileTree.takeSteps_leads start taken)
  split at reached
  · cases reached
  · next entries' place =>
    cases reached
    rw [leads, place]

/-- The last step of a path is a name in the directory to which the steps before it lead. -/
structure NamedIn (files : FileSystem) (path : Path) (around : List Text) (name : Text) :
    Prop where
  /-- The path is spelled well. -/
  checked : path.check = .ok ()
  /-- The steps before the last can be taken. -/
  passable : files.tree.Passable [] (files.startOf path ++ path.steps.dropLast)
  /-- They lead to the directory. -/
  leads : (files.startOf path ++ path.steps.dropLast).foldl FileTree.namesAfter [] = around
  /-- The name is the last step. -/
  last : path.steps = path.steps.dropLast ++ [name]
  /-- The name does not stay in the directory. -/
  noDot : name ≠ ['.']
  /-- The name does not lead up. -/
  noParent : name ≠ ['.', '.']
  /-- The name is not too long. -/
  fits : Text.byteLength name ≤ FileTree.nameLimit

/-- A path under which something new can be made has a name in the directory around it. -/
theorem namedIn_of_resolveAround {around : List Text} {entries : List (Text × FileTree)}
    (resolved : files.resolveAround path = .ok (around, entries)) {unnamed : FileFailure}
    {name : Text} (named : path.newName unnamed = .ok name) : files.NamedIn path around name := by
  -- A new name is the last step, and no dots.
  simp only [resolveAround, bind_eq_ok] at resolved
  obtain ⟨⟨⟩, checked, way, taken, reached⟩ := resolved
  obtain ⟨passable, leads⟩ := FileTree.takeSteps_top_iff.1 ⟨way, taken, rfl⟩
  have same : FileTree.namesOf way = around := by
    split at reached
    · cases reached
    · cases reached
      rfl
  unfold Path.newName at named
  split at named
  · cases named
  · next last final =>
    split at named
    · cases named
    · next proper =>
      split at named
      · cases named
      · next fits =>
        cases named
        obtain ⟨front, whole⟩ := List.getLast?_eq_some_iff.1 final
        -- What is left of the checks is what the relation asks for.
        rw [not_or] at proper
        exact {
          checked := checked
          passable := passable
          leads := leads.trans same
          last := by rw [whole, List.dropLast_concat]
          noDot := proper.1
          noParent := proper.2
          fits := Nat.not_lt.1 fits }

/-- The target of a path that ends with a name is that name in the directory around it. -/
theorem NamedIn.target {around : List Text} {name : Text} (named : files.NamedIn path around name) :
    files.targetOf path = around ++ [name] := by
  -- The last step adds the name.
  rw [targetOf, named.last, ← List.append_assoc, List.foldl_append, named.leads, List.foldl_cons,
    List.foldl_nil, FileTree.namesAfter, if_neg named.noDot, if_neg named.noParent]

/-- A file is written into the directory around its path, in place of no directory. -/
theorem exists_of_writeFile {content : Content}
    (wrote : files.writeFile path content = .ok changed) :
    ∃ around name entries, files.NamedIn path around name ∧ path.wantsDirectory = false ∧
      files.tree.find? around = some (.directory entries) ∧
      (∀ below, entries.lookup name ≠ some (.directory below)) ∧
      changed = { files with tree := files.tree.put (around ++ [name]) (.file content) } := by
  -- Each check has been passed.
  simp only [writeFile, bind_eq_ok, Prod.exists] at wrote
  obtain ⟨around, entries, resolved, put⟩ := wrote
  split at put
  · cases put
  · next ends =>
    simp only [bind_eq_ok] at put
    obtain ⟨name, named, put⟩ := put
    split at put
    · cases put
    · next free =>
      cases put
      exact ⟨around, name, entries, namedIn_of_resolveAround resolved named,
        by simpa using ends, find?_of_resolveAround resolved, free, rfl⟩

/-- A file that is written is the only entry that changes. -/
theorem entryChanged_writeFile {content : Content}
    (wrote : files.writeFile path content = .ok changed) :
    files.EntryChanged (files.targetOf path) (some content) changed := by
  -- It is put next to others.
  obtain ⟨around, name, entries, named, -, leads, free, rfl⟩ := exists_of_writeFile wrote
  rw [named.target]
  refine ⟨rfl, fun isDirectory => ?_, FileTree.entryAt?_put leads free rfl⟩
  obtain ⟨below, found⟩ := FileTree.exists_find?_eq_directory.2 isDirectory
  rw [FileTree.find?_append, leads, Option.bind_some, FileTree.find?,
    FileTree.entries_directory] at found
  obtain ⟨inner, present, same⟩ := Option.bind_eq_some_iff.1 found
  cases same
  exact free below present

/-- A path leads to the file that is written there. -/
theorem resolve_writeFile {content : Content} (wrote : files.writeFile path content = .ok changed) :
    changed.resolve path = .ok (files.targetOf path, .file content) := by
  -- The steps before the last one do not lead to the file.
  have change := entryChanged_writeFile wrote
  obtain ⟨around, name, entries, named, ends, leads, -, -⟩ := exists_of_writeFile wrote
  have target := change.entries (files.targetOf path)
  rw [if_pos rfl] at target
  have apart : around ≠ files.targetOf path := by simp [named.target]
  have here : changed.tree.entryAt? around = some none := by
    rw [change.entries, if_neg apart]
    exact FileTree.exists_find?_eq_directory.1 ⟨entries, leads⟩
  have passable : changed.tree.Passable [] (files.startOf path ++ path.steps) := by
    rw [named.last, ← List.append_assoc, FileTree.passable_append, named.leads]
    refine ⟨(change.passable_iff (named.leads ▸ apart)).2 named.passable, here, ?_, trivial⟩
    intro _ _
    refine ⟨named.fits, ?_⟩
    rw [← named.target, target]
    simp
  rw [resolve_iff, targetOf_congr change.work, startOf_congr change.work, ends]
  exact ⟨⟨named.checked, passable, fun asks => absurd asks Bool.false_ne_true⟩, rfl,
    FileTree.find?_eq_file.2 target⟩

/-- A text that is written can be read from its path. -/
theorem readText_writeFile {text : Text} (wrote : files.writeFile path (.text text) = .ok changed) :
    changed.readText path = .ok text := by
  -- The path leads to it.
  rw [readText, resolve_writeFile wrote]
  rfl

/-- Two file systems have the same working directory and the same files. -/
structure SameFiles (files changed : FileSystem) : Prop where
  /-- Relative paths start from the same directory. -/
  work : changed.work = files.work
  /-- The same names lead to files with the same contents. -/
  files : ∀ names, changed.tree.fileAt? names = files.tree.fileAt? names

/-- To make a directory changes no file. -/
theorem makeDirectory_ok {made : FileSystem} (done : files.makeDirectory path = .ok made) :
    files.SameFiles made := by
  -- The directory takes no place of anything.
  simp only [makeDirectory, bind_eq_ok, Prod.exists] at done
  obtain ⟨around, entries, resolved, name, -, put⟩ := done
  have leads := find?_of_resolveAround resolved
  split at put
  · cases put
  · next free =>
    cases put
    refine ⟨rfl, fun names => ?_⟩
    rw [FileTree.fileAt?_put leads (by simp [free]) rfl]
    split
    · next same =>
      rw [same, FileTree.fileAt?, FileTree.find?_append, leads, Option.bind_some, FileTree.find?,
        FileTree.entries_directory, free]
      rfl
    · rfl

/-- What keeps the files of what keeps the files keeps the files. -/
theorem SameFiles.trans {files changed again : FileSystem} (first : files.SameFiles changed)
    (second : changed.SameFiles again) : files.SameFiles again := by
  -- Both ends have what the middle has.
  exact ⟨second.work.trans first.work, fun names => (second.files names).trans (first.files names)⟩

/-- To make the directories of a trail changes no file, whether or not all of them can be made. -/
theorem sameFiles_makeTrail (files : FileSystem) (lead : Text) (trail : List Text) :
    files.SameFiles (files.makeTrail lead trail).1 := by
  -- The directories around a missing one are made before it.
  have same (files : FileSystem) : files.SameFiles files := ⟨rfl, fun _ => rfl⟩
  induction trail with
  | nil => exact same files
  | cons last around ih =>
    rw [makeTrail]
    split
    · exact ih
    · simp only
      split
      · next made done => exact makeDirectory_ok done
      · split
        · next made failure others =>
          rw [others] at ih
          exact ih
        · next made others =>
          rw [others] at ih
          split
          · next complete done => exact ih.trans (makeDirectory_ok done)
          · split <;> exact ih
      · split <;> exact same files

/-- The directories around a file are made first, which changes no file, and then the file is
written or the attempt has failed. -/
theorem writeWithDirectories_cases (files : FileSystem) (path : Path) (content : Content) :
    ∃ made, files.SameFiles made ∧
      ((∃ written, made.writeFile path content = .ok written ∧
          files.writeWithDirectories path content = (written, .ok ())) ∨
        ∃ failure, files.writeWithDirectories path content = (made, .error failure)) := by
  -- Making directories may fail as well.
  have same := sameFiles_makeTrail files path.lead path.trailAround
  refine ⟨_, same, ?_⟩
  unfold writeWithDirectories makeDirectoriesAround
  cases files.makeTrail path.lead path.trailAround with
  | mk made outcome =>
    cases outcome with
    | error failure => exact .inr ⟨failure, rfl⟩
    | ok =>
      dsimp only
      cases made.writeFile path content with
      | error failure => exact .inr ⟨failure, rfl⟩
      | ok written => exact .inl ⟨written, rfl, rfl⟩

/-- A file that is removed is the only entry that changes. -/
theorem entryChanged_removeFile (gone : files.removeFile path = .ok changed) :
    files.EntryChanged (files.targetOf path) none changed := by
  -- The path leads to the file.
  simp only [removeFile, bind_eq_ok, Prod.exists] at gone
  obtain ⟨names, found, resolved, removed⟩ := gone
  split at removed
  · cases removed
  · next isFile =>
    cases removed
    cases found with
    | directory entries => exact absurd rfl isFile
    | file content =>
      have inside := targetOf_ne_nil resolved
      obtain ⟨-, rfl, leads⟩ := resolve_iff.1 resolved
      refine ⟨rfl, fun isDirectory => ?_, FileTree.entryAt?_remove leads inside⟩
      rw [FileTree.find?_eq_file, isDirectory] at leads
      cases leads

/-- A file at the target of a removed path is gone. -/
theorem not_readText_removeFile (gone : files.removeFile path = .ok changed)
    (same : files.targetOf other = files.targetOf path) (text : Text) :
    changed.readText other ≠ .ok text := by
  -- There is no entry any more.
  have change := entryChanged_removeFile gone
  intro read
  have found := (readText_iff.1 read).2
  rw [targetOf_congr change.work, change.entries, if_pos same] at found
  cases found

end Smali.FileSystem
