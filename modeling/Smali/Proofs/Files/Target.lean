import Smali.Files.System
import Smali.Proofs.Attempt
import Smali.Proofs.Files.Tree

/-! Every path has one target, whatever files there are, and leads to what stands there exactly if
its steps can be taken. -/

namespace Smali

/-- A text of which all pieces are empty has nothing but cuts. -/
theorem Text.cuts_of_splitOnP {cuts : Char → Bool} {text : Text}
    (empty : ∀ piece ∈ text.splitOnP cuts, piece = []) : ∀ c ∈ text, cuts c := by
  -- Any other character would be in a piece.
  induction text with
  | nil => simp
  | cons first rest ih =>
    rw [List.splitOnP_cons_eq_if_modifyHead] at empty
    obtain ⟨head, others, pieces⟩ :=
      List.exists_cons_of_ne_nil (List.splitOnP_ne_nil cuts rest)
    rw [pieces] at ih empty
    by_cases here : cuts first
    · rw [if_pos here] at empty
      rw [List.forall_mem_cons]
      exact ⟨here, ih fun piece member => empty piece (List.mem_cons_of_mem _ member)⟩
    · rw [if_neg here, List.modifyHead_cons] at empty
      cases empty _ List.mem_cons_self

/-- A well spelled path that asks for no directory takes at least one step. -/
theorem Path.steps_ne_nil {path : Path} (checked : path.check = .ok ())
    (ends : path.wantsDirectory = false) : path.steps ≠ [] := by
  -- A spelling of separators alone asks for a directory.
  intro nothing
  have empty : ∀ piece ∈ path.pieces, piece = [] := by simpa [steps] using nothing
  have spelled : path.spelling ≠ [] := by
    intro silent
    simp [check, silent] at checked
  have last := Text.cuts_of_splitOnP empty _ (List.getLast_mem spelled)
  rw [wantsDirectory, Text.endsWith, List.getLast?_eq_some_getLast spelled, beq_iff_eq.1 last,
    beq_self_eq_true] at ends
  cases ends

namespace FileTree

/-- The names that lead to where a step ends, from those that lead to where it is taken. -/
def namesAfter (names : List Text) (step : Text) : List Text :=
  -- The topmost directory is its own parent.
  if step = ['.'] then names
  else if step = ['.', '.'] then names.dropLast
  else names ++ [step]

/-- Steps can be taken one after the other from where names lead. -/
def Passable (tree : FileTree) (names : List Text) : List Text → Prop
  -- Each step is taken in a directory, and one that goes down needs an entry.
  | [] => True
  | step :: rest =>
    tree.entryAt? names = some none ∧
      (step ≠ ['.'] → step ≠ ['.', '.'] → Text.byteLength step ≤ nameLimit ∧
        tree.entryAt? (names ++ [step]) ≠ none) ∧
      tree.Passable (namesAfter names step) rest

variable {tree changed : FileTree}

/-- Steps can be taken one behind the other exactly if the first ones can, and then the others. -/
theorem passable_append {names front back : List Text} :
    tree.Passable names (front ++ back) ↔
      tree.Passable names front ∧ tree.Passable (front.foldl namesAfter names) back := by
  -- The first steps lead to where the others are taken.
  induction front generalizing names with
  | nil => simp [Passable]
  | cons step rest ih =>
    rw [List.cons_append, Passable, Passable, List.foldl_cons, ih]
    simp only [and_assoc]

/-- A step leads from a way to another exactly if it can be taken where the names of the way lead,
and the names are those behind the step. -/
theorem takeStep_iff {way : Way} (leads : tree.Leads way) {step : Text} {names : List Text} :
    (∃ next, tree.takeStep way step = .ok next ∧ namesOf next = names) ↔
      tree.Passable (namesOf way) [step] ∧ namesAfter (namesOf way) step = names := by
  -- The names of the way lead to what it has reached.
  have here := find?_namesOf leads
  -- One step more is one look into the directory reached.
  have below : tree.find? (namesOf way ++ [step]) = (tree.reached way).entries.lookup step := by
    rw [find?_append, here, Option.bind_some, find?]
    cases (tree.reached way).entries.lookup step <;> rfl
  unfold takeStep
  rw [Passable, Passable, entryAt?, entryAt?, here, below, Option.map_some]
  cases place : tree.reached way with
  | file content => simp [content?]
  | directory entries =>
    unfold namesAfter
    by_cases dot : step = ['.']
    · simp [dot, content?]
    · by_cases parent : step = ['.', '.']
      · simp [parent, content?, namesOf]
      -- The length is looked at before the entry.
      · by_cases long : nameLimit < Text.byteLength step
        · have fails : ¬ Text.byteLength step ≤ nameLimit := Nat.not_le.2 long
          simp [dot, parent, long, fails]
        · have fits : Text.byteLength step ≤ nameLimit := Nat.not_lt.1 long
          cases found : entries.lookup step with
          | none => simp [dot, parent, long, found]
          | some next => simp [dot, parent, long, fits, found, content?, namesOf]

/-- Steps lead from a way to another exactly if they can be taken where the names of the way lead,
and the names are those behind the steps. -/
theorem takeSteps_iff {way : Way} (leads : tree.Leads way) {steps names : List Text} :
    (∃ next, tree.takeSteps way steps = .ok next ∧ namesOf next = names) ↔
      tree.Passable (namesOf way) steps ∧ steps.foldl namesAfter (namesOf way) = names := by
  -- Each step starts where the one before it ends.
  induction steps generalizing way with
  | nil => simp [takeSteps, Passable]
  | cons step rest ih =>
    rw [← List.singleton_append, passable_append, List.foldl_append, List.foldl_cons,
      List.foldl_nil, List.singleton_append]
    constructor
    · rintro ⟨last, taken, named⟩
      simp only [takeSteps, bind_eq_ok] at taken
      obtain ⟨next, first, others⟩ := taken
      obtain ⟨passable, after⟩ := (takeStep_iff leads).1 ⟨next, first, rfl⟩
      have later := (ih (takeStep_leads leads first)).1 ⟨last, others, named⟩
      rw [← after] at later
      exact ⟨⟨passable, later.1⟩, later.2⟩
    · rintro ⟨⟨first, others⟩, named⟩
      obtain ⟨next, taken, after⟩ := (takeStep_iff leads).2 ⟨first, rfl⟩
      obtain ⟨last, rest', named'⟩ := (ih (takeStep_leads leads taken)).2
        (by rw [after]; exact ⟨others, named⟩)
      exact ⟨last, by simp only [takeSteps, bind_eq_ok]; exact ⟨next, taken, rest'⟩, named'⟩

/-- Steps lead from the top exactly if they can be taken there, and the names are those behind
them. -/
theorem takeSteps_top_iff {steps names : List Text} :
    (∃ way, tree.takeSteps [] steps = .ok way ∧ namesOf way = names) ↔
      tree.Passable [] steps ∧ steps.foldl namesAfter [] = names :=
  -- No names lead to the top.
  @takeSteps_iff tree [] trivial steps names

/-- Steps can be taken in another tree if the same names lead to the same entries there. -/
theorem Passable.of_same (same : ∀ names, changed.entryAt? names = tree.entryAt? names)
    {names steps : List Text} (passable : tree.Passable names steps) :
    changed.Passable names steps := by
  -- Only entries are looked at.
  induction steps generalizing names with
  | nil => trivial
  | cons step rest ih =>
    obtain ⟨here, below, later⟩ := passable
    rw [Passable, same, same]
    exact ⟨here, below, ih later⟩

/-- Steps can be taken in another tree if the two differ in one entry at most, which is no directory
and to which the steps do not lead. -/
theorem Passable.congr {gone : List Text}
    (same : ∀ names, names ≠ gone → changed.entryAt? names = tree.entryAt? names)
    (solid : tree.entryAt? gone ≠ some none) {names steps : List Text}
    (other : steps.foldl namesAfter names ≠ gone) (passable : tree.Passable names steps) :
    changed.Passable names steps := by
  -- Only a directory can be in the way, and an entry to which no step leads does not count.
  induction steps generalizing names with
  | nil => trivial
  | cons step rest ih =>
    obtain ⟨here, below, later⟩ := passable
    have apart : names ≠ gone := fun equal => solid (equal ▸ here)
    refine ⟨(same names apart).trans here, fun noDot noParent => ?_, ih other later⟩
    obtain ⟨fits, found⟩ := below noDot noParent
    refine ⟨fits, ?_⟩
    rw [same]
    · exact found
    · intro equal
      have next : namesAfter names step = gone := by
        rw [namesAfter, if_neg noDot, if_neg noParent, equal]
      rw [List.foldl_cons, next] at other
      rw [next] at later
      cases rest with
      | nil => exact other rfl
      | cons second rest => exact solid later.1

end FileTree

namespace FileSystem

/-- The names that lead from the top to what a path stands for, whether or not it is there. -/
def targetOf (files : FileSystem) (path : Path) : List Text :=
  -- Steps up take names away.
  (files.startOf path ++ path.steps).foldl FileTree.namesAfter []

variable {files changed : FileSystem} {path other : Path}

/-- Where a path starts does not depend on which files there are. -/
theorem startOf_congr (same : changed.work = files.work) (path : Path) :
    changed.startOf path = files.startOf path := by
  -- Only the working directory counts.
  rw [startOf, startOf, same]

/-- The target of a path does not depend on which files there are. -/
theorem targetOf_congr (same : changed.work = files.work) (path : Path) :
    changed.targetOf path = files.targetOf path := by
  -- Only the working directory counts.
  rw [targetOf, targetOf, startOf_congr same]

/-- A path leads to what its target is, if it is spelled well and its steps can be taken. -/
theorem resolve_iff {names : List Text} {found : FileTree} :
    files.resolve path = .ok (names, found) ↔
      (path.check = .ok () ∧ files.tree.Passable [] (files.startOf path ++ path.steps) ∧
        (path.wantsDirectory → found.isDirectory)) ∧
      files.targetOf path = names ∧ files.tree.find? names = some found := by
  -- The names on the way are those of the target.
  constructor
  · intro resolved
    have leads := find?_of_resolve resolved
    simp only [resolve, bind_eq_ok] at resolved
    obtain ⟨⟨⟩, checked, way, taken, ends⟩ := resolved
    split at ends
    · cases ends
    · next wanted =>
      cases ends
      obtain ⟨passable, target⟩ := FileTree.takeSteps_top_iff.1 ⟨way, taken, rfl⟩
      refine ⟨⟨checked, passable, fun wants => ?_⟩, target, leads⟩
      simpa [wants] using wanted
  · -- The way to the target is the one that the steps take.
    rintro ⟨⟨checked, passable, ends⟩, target, leads⟩
    obtain ⟨way, taken, named⟩ := FileTree.takeSteps_top_iff.2 ⟨passable, target⟩
    have start : files.tree.Leads [] := trivial
    have reached := FileTree.find?_namesOf (FileTree.takeSteps_leads start taken)
    rw [named, leads, Option.some.injEq] at reached
    have wanted : (path.wantsDirectory && !found.isDirectory) = false := by
      cases wants : path.wantsDirectory with
      | false => rfl
      | true => simp [ends wants]
    simp only [resolve, bind_eq_ok]
    refine ⟨(), checked, way, taken, ?_⟩
    rw [← reached, wanted, if_neg Bool.false_ne_true, named]
    rfl

/-- A path has a text exactly if it is spelled well, its steps can be taken, and its target is a
file with that text. -/
theorem readText_iff {text : Text} : files.readText path = .ok text ↔
    (path.check = .ok () ∧ files.tree.Passable [] (files.startOf path ++ path.steps) ∧
      path.wantsDirectory = false) ∧
    files.tree.entryAt? (files.targetOf path) = some (some (.text text)) := by
  -- Nothing else has a text.
  simp only [readText, bind_eq_ok, Prod.exists, resolve_iff]
  constructor
  · rintro ⟨names, found, ⟨⟨checked, passable, ends⟩, rfl, leads⟩, read⟩
    split at read
    · cases read
    · cases read
    · cases read
      rw [← FileTree.find?_eq_file]
      exact ⟨⟨checked, passable, by simpa [FileTree.isDirectory] using ends⟩, leads⟩
  · rintro ⟨⟨checked, passable, ends⟩, found⟩
    rw [← FileTree.find?_eq_file] at found
    exact ⟨_, _, ⟨⟨checked, passable, by simp [ends]⟩, rfl, found⟩, rfl⟩

/-- A path leads to a directory exactly if it is spelled well, its steps can be taken, and its
target is a directory. -/
theorem hasDirectory_iff : files.hasDirectory path ↔
    (path.check = .ok () ∧ files.tree.Passable [] (files.startOf path ++ path.steps)) ∧
      files.tree.entryAt? (files.targetOf path) = some none := by
  -- Nothing else is a directory.
  constructor
  · intro has
    unfold hasDirectory at has
    split at has
    · next names found resolved =>
      obtain ⟨⟨checked, passable, -⟩, rfl, leads⟩ := resolve_iff.1 resolved
      cases found with
      | file content => cases has
      | directory entries =>
        exact ⟨⟨checked, passable⟩, FileTree.exists_find?_eq_directory.1 ⟨entries, leads⟩⟩
    · cases has
  · rintro ⟨⟨checked, passable⟩, here⟩
    obtain ⟨entries, leads⟩ := FileTree.exists_find?_eq_directory.2 here
    rw [hasDirectory, resolve_iff.2 ⟨⟨checked, passable, fun _ => rfl⟩, rfl, leads⟩]
    rfl

/-- A path that leads to a file has a target other than the top. -/
theorem targetOf_ne_nil {names : List Text} {content : Content}
    (resolved : files.resolve path = .ok (names, .file content)) : files.targetOf path ≠ [] := by
  -- The first step is taken at the top, which is a directory then.
  obtain ⟨⟨checked, passable, ends⟩, rfl, leads⟩ := resolve_iff.1 resolved
  intro top
  have asks : path.wantsDirectory = false := by simpa [FileTree.isDirectory] using ends
  obtain ⟨first, others, steps⟩ := List.exists_cons_of_ne_nil
    (List.append_ne_nil_of_right_ne_nil (files.startOf path) (path.steps_ne_nil checked asks))
  rw [steps] at passable
  have directory := passable.1
  rw [top, FileTree.find?_eq_file, directory] at leads
  cases leads

end FileSystem

end Smali
