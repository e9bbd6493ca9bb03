import Smali.Proofs.Files.Changes

/-! A path that only goes down stands for the place that its names give. -/

namespace Smali

namespace Path

/-- The names that a path goes through. -/
def names (path : Path) : List Text :=
  -- A dot stays where it is.
  path.steps.filter fun step => step != ['.']

/-- A path that never goes up and ends with a name. -/
structure Straight (path : Path) : Prop where
  /-- No step goes up. -/
  down : ['.', '.'] ∉ path.steps
  /-- The last step is a name. -/
  named : ∃ front last, path.steps = front ++ [last] ∧ last ≠ ['.']
  /-- Nothing asks for a directory. -/
  ends : path.wantsDirectory = false

end Path

namespace FileTree

/-- Steps that never go up add their names, but for dots. -/
theorem foldl_namesAfter {names steps : List Text} (down : ['.', '.'] ∉ steps) :
    steps.foldl namesAfter names = names ++ steps.filter fun step => step != ['.'] := by
  -- Each step adds its name, unless it is a dot.
  induction steps generalizing names with
  | nil => simp
  | cons step rest ih =>
    rw [List.mem_cons, not_or] at down
    rw [List.foldl_cons, ih down.2, namesAfter]
    by_cases dot : step = ['.']
    · simp [dot]
    · rw [if_neg dot, if_neg (Ne.symm down.1), List.filter_cons_of_pos (by simpa using dot)]
      simp

variable {tree : FileTree}

/-- Names that lead on from somewhere lead on from a directory. -/
theorem directory_of_entryAt? {names more : List Text}
    (found : tree.entryAt? (names ++ more) ≠ none) (further : more ≠ []) :
    tree.entryAt? names = some none := by
  -- A file has no entries.
  obtain ⟨first, others, rfl⟩ := List.exists_cons_of_ne_nil further
  rw [entryAt?, find?_append] at found
  rw [entryAt?]
  cases place : tree.find? names with
  | none => simp [place] at found
  | some below =>
    cases below with
    | file content => simp [place, find?, FileTree.entries] at found
    | directory entries => rfl

/-- Steps that never go up and end with a name can be taken to where their names lead exactly if no
name is too long. -/
theorem passable_iff_short {names front : List Text} {last : Text}
    (down : ['.', '.'] ∉ front ++ [last]) (named : last ≠ ['.'])
    (found : tree.entryAt? (names ++ (front ++ [last]).filter fun step => step != ['.']) ≠ none) :
    tree.Passable names (front ++ [last]) ↔
      ∀ step ∈ front ++ [last], step ≠ ['.'] → Text.byteLength step ≤ nameLimit := by
  -- Each step is taken in a directory, because a name comes behind it.
  -- Behind any part of the steps there is the last name.
  have behind (rest : List Text) : (rest ++ [last]).filter (fun step => step != ['.']) ≠ [] :=
    List.ne_nil_of_mem (List.mem_filter.2
      ⟨List.mem_append_right rest (List.mem_singleton_self last), by simpa using named⟩)
  have here := directory_of_entryAt? found (behind front)
  induction front generalizing names with
  | nil =>
    rw [List.nil_append, List.filter_cons_of_pos (by simpa using named), List.filter_nil] at found
    have parent : last ≠ ['.', '.'] := fun same => down (by simp [same])
    simp [Passable, here, found, named, parent]
  | cons step rest ih =>
    rw [List.cons_append, List.mem_cons, not_or] at down
    rw [List.cons_append, Passable, List.forall_mem_cons, namesAfter]
    -- A dot stays in the directory, and its length is not looked at.
    by_cases dot : step = ['.']
    · rw [List.cons_append, List.filter_cons_of_neg (by simp [dot])] at found
      rw [if_pos dot]
      simp [here, dot, ih down.2 found here]
    · rw [List.cons_append, List.filter_cons_of_pos (by simpa using dot), ← List.singleton_append,
        ← List.append_assoc] at found
      -- What the step leads to is a directory, because something stands behind it.
      have next := directory_of_entryAt? found (behind rest)
      rw [if_neg dot, if_neg (Ne.symm down.1)]
      simp [here, dot, Ne.symm down.1, next, ih down.2 found next]

end FileTree

namespace FileSystem

/-- The names that lead from the top to what a path stands for. -/
def placeOf (files : FileSystem) (path : Path) : List Text :=
  -- The names of the path come behind those of the directory where it starts.
  files.startOf path ++ path.names

/-- The working directory is given by names alone. -/
def Grounded (files : FileSystem) : Prop :=
  -- Neither a dot nor a step up is a name.
  ∀ name ∈ files.work, name ≠ ['.'] ∧ name ≠ ['.', '.']

/-- The spelling of a path keeps to all limits. -/
def Allows (files : FileSystem) (path : Path) : Prop :=
  -- What the tree holds does not matter.
  path.check = .ok () ∧ ∀ step ∈ files.startOf path ++ path.steps, step ≠ ['.'] →
    Text.byteLength step ≤ FileTree.nameLimit

variable {files : FileSystem} {path : Path}

/-- The directory where a path starts is given by names alone. -/
theorem Grounded.start (grounded : files.Grounded) (path : Path) :
    ∀ name ∈ files.startOf path, name ≠ ['.'] ∧ name ≠ ['.', '.'] := by
  -- It is the top or the working directory.
  unfold startOf
  split
  · simp
  · exact grounded

/-- No step to what a straight path stands for goes up. -/
theorem Grounded.down (grounded : files.Grounded) (straight : path.Straight) :
    ['.', '.'] ∉ files.startOf path ++ path.steps := by
  -- Neither the start nor the path goes up.
  intro member
  rcases List.mem_append.1 member with member | member
  · exact (grounded.start path _ member).2 rfl
  · exact straight.down member

/-- The names of a way to what a straight path stands for are those of its place. -/
theorem Grounded.filter_eq (grounded : files.Grounded) (path : Path) :
    (files.startOf path ++ path.steps).filter (fun step => step != ['.']) =
      files.placeOf path := by
  -- The start has no dots.
  rw [List.filter_append]
  refine congrArg (· ++ _) (List.filter_eq_self.2 fun name member => ?_)
  simpa using (grounded.start path name member).1

/-- The target of a straight path is its place. -/
theorem targetOf_eq_placeOf (grounded : files.Grounded) (straight : path.Straight) :
    files.targetOf path = files.placeOf path := by
  -- No step goes up.
  rw [targetOf, FileTree.foldl_namesAfter (grounded.down straight), List.nil_append,
    grounded.filter_eq]

/-- A straight path leads to what stands in its place, if its spelling keeps to the limits. -/
theorem resolve_eq_ok (grounded : files.Grounded) (straight : path.Straight) {names : List Text}
    {found : FileTree} : files.resolve path = .ok (names, found) ↔
      files.Allows path ∧ names = files.placeOf path ∧
        files.tree.find? (files.placeOf path) = some found := by
  -- The steps to its target can be taken if no name is too long.
  have short (leads : files.tree.find? (files.placeOf path) = some found) :
      files.tree.Passable [] (files.startOf path ++ path.steps) ↔
        ∀ step ∈ files.startOf path ++ path.steps, step ≠ ['.'] →
          Text.byteLength step ≤ FileTree.nameLimit := by
    have down := grounded.down straight
    have place := grounded.filter_eq path
    obtain ⟨front, last, whole, named⟩ := straight.named
    rw [whole, ← List.append_assoc] at down place ⊢
    refine FileTree.passable_iff_short down named ?_
    rw [place, List.nil_append, FileTree.entryAt?, leads]
    simp
  rw [resolve_iff, targetOf_eq_placeOf grounded straight, straight.ends]
  constructor
  · rintro ⟨⟨checked, passable, -⟩, rfl, leads⟩
    exact ⟨⟨checked, (short leads).1 passable⟩, rfl, leads⟩
  · rintro ⟨⟨checked, fits⟩, rfl, leads⟩
    exact ⟨⟨checked, (short leads).2 fits, fun asks => absurd asks Bool.false_ne_true⟩, rfl,
      leads⟩

/-- A straight path has a text exactly if a file with that text stands in its place, and its
spelling keeps to the limits. -/
theorem readText_eq_ok (grounded : files.Grounded) (straight : path.Straight) {text : Text} :
    files.readText path = .ok text ↔
      files.Allows path ∧ files.tree.fileAt? (files.placeOf path) = some (.text text) := by
  -- The path leads to the file.
  simp only [readText, bind_eq_ok, Prod.exists, resolve_eq_ok grounded straight]
  constructor
  · rintro ⟨names, found, ⟨allows, rfl, leads⟩, read⟩
    refine ⟨allows, ?_⟩
    rw [FileTree.fileAt?, leads]
    split at read
    · cases read
    · cases read
    · cases read
      rfl
  · rintro ⟨allows, found⟩
    unfold FileTree.fileAt? at found
    split at found
    · next content leads =>
      cases found
      exact ⟨_, _, ⟨allows, rfl, leads⟩, rfl⟩
    · cases found

/-- Where nothing has a straight path there is no file. -/
theorem fileAt?_of_not_has (grounded : files.Grounded) (straight : path.Straight)
    (allows : files.Allows path) (absent : files.has path = false) :
    files.tree.fileAt? (files.placeOf path) = none := by
  -- The path would lead to the file.
  unfold FileTree.fileAt?
  split
  · next content leads =>
    have resolved := (resolve_eq_ok grounded straight).2 ⟨allows, rfl, leads⟩
    rw [has, resolved] at absent
    cases absent
  · rfl

/-- One file of a file system has changed at most, which is given by its place. -/
structure ChangedAt (files : FileSystem) (place : List Text) (content : Option Content)
    (changed : FileSystem) : Prop where
  /-- Relative paths start from the same directory. -/
  work : changed.work = files.work
  /-- All other files are as they were. -/
  files : ∀ names, changed.tree.fileAt? names =
    if names = place then content else files.tree.fileAt? names

/-- A change of one entry is one of its file. -/
theorem EntryChanged.changedAt {changed : FileSystem} {place : List Text}
    {content : Option Content} (change : files.EntryChanged place content changed) :
    files.ChangedAt place content changed := by
  -- A file is an entry.
  refine ⟨change.work, fun names => ?_⟩
  rw [FileTree.fileAt?_eq_join, FileTree.fileAt?_eq_join, change.entries]
  split
  · cases content <;> rfl
  · rfl

/-- Whether the working directory is given by names alone does not depend on which files there
are. -/
theorem Grounded.congr {changed : FileSystem} (grounded : files.Grounded)
    (same : changed.work = files.work) : changed.Grounded := by
  -- Only the working directory counts.
  rw [Grounded, same]
  exact grounded

/-- A place does not depend on which files there are. -/
theorem placeOf_congr {changed : FileSystem} (same : changed.work = files.work) (path : Path) :
    changed.placeOf path = files.placeOf path := by
  -- Only the working directory counts.
  rw [placeOf, placeOf, startOf, startOf, same]

/-- What is allowed does not depend on which files there are. -/
theorem allows_congr {changed : FileSystem} (same : changed.work = files.work) (path : Path) :
    changed.Allows path ↔ files.Allows path := by
  -- Only the working directory counts.
  rw [Allows, Allows, startOf, startOf, same]

/-- A file that is written with the directories around it stands in the place of its path, and all
others where they stood. -/
theorem writeWithDirectories_ok (grounded : files.Grounded) (straight : path.Straight)
    {content : Content} {written : FileSystem}
    (done : files.writeWithDirectories path content = (written, .ok ())) :
    files.Allows path ∧ files.ChangedAt (files.placeOf path) (some content) written := by
  -- The directories are made first.
  obtain ⟨made, same, ⟨written', wrote, outcome⟩ | ⟨failure, outcome⟩⟩ :=
    writeWithDirectories_cases files path content
  · rw [outcome] at done
    cases done
    have change := (entryChanged_writeFile wrote).changedAt
    have work : written.work = files.work := change.work.trans same.work
    have resolved := (resolve_eq_ok (grounded.congr work) straight).1 (resolve_writeFile wrote)
    refine ⟨(allows_congr work path).1 resolved.1, work, fun names => ?_⟩
    rw [change.files, same.files, targetOf_congr same.work,
      targetOf_eq_placeOf grounded straight]
  · rw [outcome] at done
    cases done

/-- A removed file is gone from the place of its path, and all others stand where they stood. -/
theorem removeFile_ok (grounded : files.Grounded) (straight : path.Straight)
    {removed : FileSystem} (done : files.removeFile path = .ok removed) :
    files.ChangedAt (files.placeOf path) none removed := by
  -- The path leads to the file.
  rw [← targetOf_eq_placeOf grounded straight]
  exact (entryChanged_removeFile done).changedAt

end FileSystem

end Smali
