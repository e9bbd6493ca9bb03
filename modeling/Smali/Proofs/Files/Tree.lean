import Mathlib.Data.List.Nodup
import Smali.Files.Tree
import Smali.Proofs.Pairing

/-! Putting and removing change what stands under one list of names, and no file anywhere else, and
a walk goes through whatever names lead to. -/

namespace Smali.FileTree

/-- The content of the file that a list of names leads to. -/
def fileAt? (names : List Text) (tree : FileTree) : Option Content :=
  -- A directory has no content.
  match tree.find? names with
  | some (.file content) => some content
  | _ => none

/-- The content of a tree that is a file. -/
def content? : FileTree → Option Content
  -- A directory has no content.
  | file content => some content
  | directory _ => none

/-- A directory has no content. -/
@[simp] theorem content?_directory (entries : List (Text × FileTree)) :
    (directory entries).content? = none := by
  -- It is no file.
  rfl

/-- The entries of a directory are those that it is made of. -/
@[simp] theorem entries_directory (entries : List (Text × FileTree)) :
    (directory entries).entries = entries := by
  -- A directory is nothing else.
  rfl

/-- What a list of names leads to, where a file comes with its content. -/
def entryAt? (names : List Text) (tree : FileTree) : Option (Option Content) :=
  -- What is in a directory does not show.
  (tree.find? names).map content?

/-- What no name has to lead to is the tree itself. -/
@[simp] theorem entryAt?_nil (tree : FileTree) : tree.entryAt? [] = some tree.content? := by
  -- The tree is always there.
  rfl

/-- A list of names leads on from the entry with the first name. -/
theorem entryAt?_cons (name : Text) (rest : List Text) (tree : FileTree) :
    tree.entryAt? (name :: rest) = (tree.entries.lookup name).bind (entryAt? rest) := by
  -- Without such an entry the names lead nowhere.
  unfold entryAt?
  rw [find?]
  cases tree.entries.lookup name <;> rfl

/-- Names lead on from where other names lead. -/
theorem entryAt?_append {names below : List Text} {tree found : FileTree}
    (leads : tree.find? names = some found) :
    tree.entryAt? (names ++ below) = found.entryAt? below := by
  -- The first names are followed first.
  rw [entryAt?, find?_append, leads, Option.bind_some, entryAt?]

/-- A file is an entry with a content. -/
theorem fileAt?_eq_join (names : List Text) (tree : FileTree) :
    tree.fileAt? names = (tree.entryAt? names).join := by
  -- Both follow the names.
  unfold fileAt? entryAt?
  cases tree.find? names with
  | none => rfl
  | some found => cases found <;> rfl

/-- Names that lead to an entry with a content lead to a file. -/
theorem find?_eq_file {names : List Text} {tree : FileTree} {content : Content} :
    tree.find? names = some (file content) ↔ tree.entryAt? names = some (some content) := by
  -- Only files have contents.
  unfold entryAt?
  cases tree.find? names with
  | none => simp
  | some found => cases found <;> simp [content?]

/-- Where names lead somewhere, the first of them leads from a directory to an entry, from which the
others lead on. -/
theorem exists_of_find?_cons {name : Text} {rest : List Text} {tree found : FileTree}
    (leads : tree.find? (name :: rest) = some found) :
    tree.content? = none ∧
      ∃ below, tree.entries.lookup name = some below ∧ below.find? rest = some found := by
  -- A file has no entries.
  obtain ⟨below, there, onward⟩ := Option.bind_eq_some_iff.1 leads
  cases tree with
  | file content => cases there
  | directory entries => exact ⟨rfl, below, there, onward⟩

/-- Names that lead to an entry without content lead to a directory. -/
theorem exists_find?_eq_directory {names : List Text} {tree : FileTree} :
    (∃ entries, tree.find? names = some (directory entries)) ↔
      tree.entryAt? names = some none := by
  -- Only directories have no contents.
  unfold entryAt?
  cases tree.find? names with
  | none => simp
  | some found => cases found <;> simp [content?]

/-- Entries other than the one that is put stay. -/
theorem lookup_putEntry (name other : Text) (tree : FileTree)
    (entries : List (Text × FileTree)) :
    (putEntry name tree entries).lookup other =
      if other = name then some tree else entries.lookup other := by
  -- The first entry with the name gives way.
  induction entries with
  | nil =>
    by_cases same : other = name
    · simp [putEntry, same]
    · have differs : (other == name) = false := by simpa using same
      simp [putEntry, List.lookup_cons, same, differs]
  | cons entry rest ih =>
    obtain ⟨first, old⟩ := entry
    by_cases here : name = first
    · subst here
      by_cases same : other = name
      · simp [putEntry, same]
      · have differs : (other == name) = false := by simpa using same
        simp [putEntry, List.lookup_cons, same, differs]
    -- The first entry has another name, so that the new one is put behind it.
    · rw [putEntry, if_neg here, List.lookup_cons, List.lookup_cons, ih]
      by_cases same : other = first
      · have differs : other ≠ name := fun equal => here (equal ▸ same)
        simp [same, Ne.symm here]
      · have differs : (other == first) = false := by simpa using same
        simp [differs]

/-- The name of an entry that is put into a directory leads to that entry, and all other names lead
where they led before. -/
theorem entryAt?_putEntry (name : Text) (new tree : FileTree) (first : Text) (rest : List Text) :
    (directory (putEntry name new tree.entries)).entryAt? (first :: rest) =
      if first = name then new.entryAt? rest else tree.entryAt? (first :: rest) := by
  -- The entries are looked up by the first name.
  rw [entryAt?_cons, entryAt?_cons, entries_directory, lookup_putEntry]
  split <;> rfl

/-- Entries other than those with a name that is filtered out stay. -/
theorem lookup_filter (name other : Text) (entries : List (Text × FileTree)) :
    (entries.filter fun entry => entry.1 != name).lookup other =
      if other = name then none else entries.lookup other := by
  -- Every entry with the name goes.
  induction entries with
  | nil => simp
  | cons entry rest ih =>
    obtain ⟨first, old⟩ := entry
    by_cases here : first = name
    · subst here
      rw [List.filter_cons_of_neg (by simp), ih]
      by_cases same : other = first
      · simp [same]
      · have differs : (other == first) = false := by simpa using same
        simp [List.lookup_cons, same, differs]
    · rw [List.filter_cons_of_pos (by simpa using here), List.lookup_cons, List.lookup_cons, ih]
      by_cases same : other = first
      · simp [same, here]
      · have differs : (other == first) = false := by simpa using same
        simp [differs]

/-- A file or an empty directory that is put next to others leaves all other entries as they are,
if it takes the place of no directory. -/
theorem entryAt?_put {around : List Text} {name : Text} {tree new : FileTree}
    {entries : List (Text × FileTree)} (found : tree.find? around = some (directory entries))
    (free : ∀ below, entries.lookup name ≠ some (directory below)) (leaf : new.entries = [])
    (names : List Text) :
    (tree.put (around ++ [name]) new).entryAt? names =
      if names = around ++ [name] then some new.content? else tree.entryAt? names := by
  -- Only the entry with the first name leads to where the new tree is put.
  induction around generalizing tree names with
  | nil =>
    cases found
    cases names with
    | nil => simp [put, content?]
    | cons first rest =>
      rw [List.nil_append, put, put, entryAt?_putEntry]
      by_cases same : first = name
      · subst same
        rw [if_pos rfl]
        cases rest with
        | nil => simp
        | cons second rest =>
          rw [if_neg (by simp), entryAt?_cons, leaf, entryAt?_cons, entries_directory]
          -- An old entry with the name is a file or is missing, so that nothing stood below it.
          cases below : entries.lookup first with
          | none => rfl
          | some old =>
            cases old with
            | file content => rw [Option.bind_some, entryAt?_cons]; rfl
            | directory others => exact absurd below (free others)
      · simp [same]
  | cons first others ih =>
    obtain ⟨top, inner, below, found⟩ := exists_of_find?_cons found
    rw [List.cons_append, put, below, Option.getD_some]
    cases names with
    | nil => simp [top]
    | cons head rest =>
      rw [entryAt?_putEntry, ih found rest]
      by_cases same : head = first
      · subst same
        simp [entryAt?_cons, below]
      · simp [same]

/-- A file or an empty directory that is put next to others leaves all other files where they are,
if it takes the place of no directory. -/
theorem fileAt?_put {around : List Text} {name : Text} {tree new : FileTree}
    {entries : List (Text × FileTree)} (found : tree.find? around = some (directory entries))
    (free : ∀ below, entries.lookup name ≠ some (directory below)) (leaf : new.entries = [])
    (names : List Text) :
    (tree.put (around ++ [name]) new).fileAt? names =
      if names = around ++ [name] then new.content? else tree.fileAt? names := by
  -- All other entries are as they were.
  rw [fileAt?_eq_join, fileAt?_eq_join, entryAt?_put found free leaf]
  split <;> rfl

/-- A file that is removed leaves all other entries as they are. -/
theorem entryAt?_remove {target : List Text} {tree : FileTree} {content : Content}
    (found : tree.find? target = some (file content)) (inside : target ≠ [])
    (names : List Text) :
    (tree.remove target).entryAt? names =
      if names = target then none else tree.entryAt? names := by
  -- Only the entry with the first name leads to the file.
  induction target generalizing tree names with
  | nil => exact absurd rfl inside
  | cons first others ih =>
    obtain ⟨top, inner, below, found⟩ := exists_of_find?_cons found
    cases others with
    | nil =>
      -- The last name is that of the file, which is taken out of its directory.
      cases found
      rw [remove]
      cases names with
      | nil => simp [top]
      | cons head rest =>
        rw [entryAt?_cons, entryAt?_cons, entries_directory, lookup_filter]
        by_cases same : head = first
        · subst same
          cases rest with
          | nil => simp
          | cons second rest =>
            rw [if_pos rfl, below, Option.bind_some, entryAt?_cons]
            simp [FileTree.entries]
        · simp [same]
    | cons second others =>
      -- The directory with the first name is replaced by what is left of it.
      have step : tree.remove (first :: second :: others) =
          directory (putEntry first (inner.remove (second :: others)) tree.entries) := by
        rw [remove, below]
        simp
      rw [step]
      cases names with
      | nil => simp [top]
      | cons head rest =>
        rw [entryAt?_putEntry, ih found (by simp) rest]
        by_cases same : head = first
        · subst same
          simp [entryAt?_cons, below]
        · simp [same]

/-- The walk through an entry of a directory is a part of the walk through the directory. -/
theorem walk_sublist_walkEntries {name : Text} {tree : FileTree}
    {entries : List (Text × FileTree)} (member : (name, tree) ∈ entries) :
    (tree.walk.map fun (names, content) => (name :: names, content)).Sublist
      (walkEntries entries) := by
  -- The entries are visited one by one.
  induction entries with
  | nil => cases member
  | cons entry rest ih =>
    obtain ⟨first, old⟩ := entry
    rw [walkEntries]
    rcases List.mem_cons.1 member with same | later
    · cases same
      exact List.sublist_append_left _ _
    · exact (ih later).trans (List.sublist_append_right _ _)

/-- The walk through what names lead to is a part of the walk through the tree. -/
theorem walk_sublist_of_find? {names : List Text} {tree found : FileTree}
    (leads : tree.find? names = some found) :
    (found.walk.map fun (below, content) => (names ++ below, content)).Sublist tree.walk := by
  -- Each name is that of an entry.
  induction names generalizing tree with
  | nil =>
    cases leads
    simp
  | cons name rest ih =>
    rw [find?] at leads
    cases lookup : tree.entries.lookup name with
    | none => rw [lookup] at leads; cases leads
    | some inner =>
      rw [lookup, Option.bind_some] at leads
      cases tree with
      | file content => cases lookup
      | directory entries =>
        have inside := (ih leads).map fun (names, content) => (name :: names, content)
        rw [List.map_map] at inside
        exact (inside.trans (walk_sublist_walkEntries (List.mem_of_lookup lookup))).cons _

/-- The walk through a directory goes through each of its entries. -/
theorem mem_walkEntries {name : Text} {tree : FileTree} {entries : List (Text × FileTree)}
    (member : (name, tree) ∈ entries) {names : List Text} {content : Option Content}
    (inside : (names, content) ∈ tree.walk) :
    (name :: names, content) ∈ walkEntries entries :=
  -- The walk through the entry is a part of it.
  (walk_sublist_walkEntries member).subset (List.mem_map.2 ⟨(names, content), inside, rfl⟩)

/-- The walk through a tree goes through whatever names lead to. -/
theorem mem_walk_of_find? {names : List Text} {tree found : FileTree}
    (leads : tree.find? names = some found) {below : List Text} {content : Option Content}
    (inside : (below, content) ∈ found.walk) : (names ++ below, content) ∈ tree.walk :=
  -- The walk through it is a part of the whole walk.
  (walk_sublist_of_find? leads).subset (List.mem_map.2 ⟨(below, content), inside, rfl⟩)

/-- Everything is a part of its own walk. -/
theorem mem_walk_self (tree : FileTree) : ([], tree.content?) ∈ tree.walk := by
  -- The tree itself comes first.
  cases tree <;> simp [walk, content?]

/-- No two entries of a tree are under the same names. -/
def Distinct (tree : FileTree) : Prop :=
  -- No directory has two entries with one name.
  (tree.walk.map Prod.fst).Nodup

/-- Whether the entries of a tree are distinct is computed from its walk. -/
instance (tree : FileTree) : Decidable tree.Distinct :=
  -- All pairs of names are compared.
  inferInstanceAs (Decidable (List.Nodup _))

/-- The entries of what names lead to are distinct if those of the tree are. -/
theorem Distinct.of_find? {names : List Text} {tree found : FileTree} (distinct : tree.Distinct)
    (leads : tree.find? names = some found) : found.Distinct := by
  -- The names that lead there stand in front of each of them.
  have part := ((walk_sublist_of_find? leads).map Prod.fst).nodup distinct
  rw [List.map_map] at part
  refine List.Nodup.of_map (names ++ ·) ?_
  rw [List.map_map]
  exact part

mutual

/-- Names on the walk through a tree with distinct entries lead to what is found there. -/
theorem entryAt?_of_mem_walk {tree : FileTree} (distinct : (tree.walk.map Prod.fst).Nodup)
    {names : List Text} {content : Option Content} (visited : (names, content) ∈ tree.walk) :
    tree.entryAt? names = some content := by
  -- A directory comes before its entries.
  cases tree with
  | file content' =>
    rw [walk, List.mem_singleton] at visited
    cases visited
    rfl
  | directory entries =>
    rw [walk, List.mem_cons] at visited
    rcases visited with top | below
    · cases top
      rfl
    · rw [walk, List.map_cons, List.nodup_cons] at distinct
      obtain ⟨name, rest, tree, rfl, found, inside⟩ :=
        exists_entryAt?_of_mem_walkEntries distinct.2 below
      rw [entryAt?_cons, entries_directory, found]
      exact inside

/-- Names on the walk through distinct entries begin with the name of the entry in which they lead
to what is found there. -/
theorem exists_entryAt?_of_mem_walkEntries {entries : List (Text × FileTree)}
    (distinct : ((walkEntries entries).map Prod.fst).Nodup) {names : List Text}
    {content : Option Content} (visited : (names, content) ∈ walkEntries entries) :
    ∃ name rest tree, names = name :: rest ∧ entries.lookup name = some tree ∧
      tree.entryAt? rest = some content := by
  -- No later entry has the name of the first one.
  match entries with
  | [] => cases visited
  | (first, tree) :: others =>
    rw [walkEntries, List.map_append, List.nodup_append] at distinct
    obtain ⟨here, later, apart⟩ := distinct
    rw [walkEntries, List.mem_append] at visited
    rcases visited with inside | outside
    · -- The file stands below the first entry.
      obtain ⟨⟨rest, content'⟩, member, same⟩ := List.mem_map.1 inside
      cases same
      rw [List.map_map] at here
      have distinct' : (tree.walk.map Prod.fst).Nodup := by
        refine List.Nodup.of_map (first :: ·) ?_
        rw [List.map_map]
        exact here
      exact ⟨first, rest, tree, rfl, by simp, entryAt?_of_mem_walk distinct' member⟩
    · -- The file stands below a later entry, whose name is found behind the first one.
      obtain ⟨name, rest, other, rfl, found, inside⟩ :=
        exists_entryAt?_of_mem_walkEntries later outside
      refine ⟨name, rest, other, rfl, ?_, inside⟩
      have differs : (name == first) = false := by
        rw [beq_eq_false_iff_ne]
        rintro rfl
        have twice := mem_walkEntries (List.mem_of_lookup found) (mem_walk_self other)
        exact apart [name]
          (List.mem_map.2 ⟨_, List.mem_map.2 ⟨_, mem_walk_self tree, rfl⟩, rfl⟩) [name]
          (List.mem_map.2 ⟨_, twice, rfl⟩) rfl
      rw [List.lookup_cons, differs]
      exact found

end

/-- Names are on the walk through a tree with distinct entries exactly if they lead to what is found
there. -/
theorem mem_walk_iff {tree : FileTree} (distinct : tree.Distinct) {names : List Text}
    {content : Option Content} :
    (names, content) ∈ tree.walk ↔ tree.entryAt? names = some content := by
  -- Whatever names lead to is visited.
  refine ⟨entryAt?_of_mem_walk distinct, fun found => ?_⟩
  obtain ⟨inner, leads, rfl⟩ := Option.map_eq_some_iff.1 found
  have visited := mem_walk_of_find? leads (mem_walk_self inner)
  rwa [List.append_nil] at visited

end Smali.FileTree
