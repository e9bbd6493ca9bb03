import Smali.Files.Path

/-! A file tree is a directory of named files and directories, addressed by lists of names. -/

namespace Smali

/-- What a file holds. -/
inductive Content where
  /-- A text in UTF-8. -/
  | text (text : Text)
  /-- Bytes that are no text. -/
  | binary (bytes : List UInt8)
  deriving DecidableEq, Repr

/-- The content that a file with given bytes has. -/
def Content.ofBytes (bytes : List UInt8) : Content :=
  -- Bytes that are valid UTF-8 are a text.
  match String.fromUTF8? ⟨bytes.toArray⟩ with
  | some decoded => .text decoded.toList
  | none => .binary bytes

/-- A file or a directory with its entries. -/
inductive FileTree where
  /-- A file. -/
  | file (content : Content)
  /-- A directory with its entries by name. -/
  | directory (entries : List (Text × FileTree))

namespace FileTree

/-- A directory without entries. -/
def empty : FileTree :=
  -- Every tree is built up from it.
  directory []

/-- The tree is a directory. -/
def isDirectory : FileTree → Bool
  -- A file has no entries, not even none.
  | directory _ => true
  | file _ => false

/-- The entries of a directory. -/
def entries : FileTree → List (Text × FileTree)
  -- A file has none.
  | directory entries => entries
  | file _ => []

/-- What a list of names leads to. -/
def find? : List Text → FileTree → Option FileTree
  -- Each name is looked up in the directory that the names before it lead to.
  | [], tree => some tree
  | name :: rest, tree => (tree.entries.lookup name).bind (find? rest)

/-- A list of names leads on from where its first part leads. -/
theorem find?_append {names more : List Text} {tree : FileTree} :
    tree.find? (names ++ more) = (tree.find? names).bind (find? more) := by
  -- The first part is followed name by name.
  induction names generalizing tree with
  | nil => rfl
  | cons name rest induction =>
    cases below : tree.entries.lookup name with
    | none => simp [find?, below]
    | some found => simp [find?, below, induction]

/-- Puts an entry into a directory in the place of one with the same name, or at the end. -/
def putEntry (name : Text) (tree : FileTree) : List (Text × FileTree) → List (Text × FileTree)
  -- Other entries stay as they are.
  | [] => [(name, tree)]
  | (other, old) :: rest =>
    if name = other then (name, tree) :: rest else (other, old) :: putEntry name tree rest

/-- Puts a tree where a list of names leads. -/
def put : FileTree → List Text → FileTree → FileTree
  -- Only the directories on the way change, and a missing one is made.
  | _, [], new => new
  | tree, name :: rest, new =>
    directory (putEntry name (put ((tree.entries.lookup name).getD empty) rest new) tree.entries)

/-- Takes away what a list of names leads to. -/
def remove : List Text → FileTree → FileTree
  -- Only the directories on the way change.
  | [], tree => tree
  | [name], tree => directory (tree.entries.filter fun entry => entry.1 != name)
  | name :: rest, tree =>
    match tree.entries.lookup name with
    | some below => directory (putEntry name (remove rest below) tree.entries)
    | none => tree

mutual

/-- Everything below a tree with its names, where a file comes with its content. -/
def walk : FileTree → List (List Text × Option Content)
  -- The tree itself comes before what is in it.
  | file content => [([], some content)]
  | directory entries => ([], none) :: walkEntries entries

/-- Everything in a list of entries with its names, where a file comes with its content. -/
def walkEntries : List (Text × FileTree) → List (List Text × Option Content)
  -- Entries are visited in the order in which they are listed.
  | [] => []
  | (name, tree) :: rest =>
    (walk tree).map (fun (names, content) => (name :: names, content)) ++ walkEntries rest

end

mutual

/-- Everything in a tree with its path, for a tree that has a given path. -/
def spread (path : Path) : FileTree → List (Path × Option Content)
  -- The order is that of the walk.
  | file content => [(path, some content)]
  | directory entries => (path, none) :: spreadEntries path entries

/-- Everything in a list of entries with its path, for a directory that has a given path. -/
def spreadEntries (path : Path) : List (Text × FileTree) → List (Path × Option Content)
  -- Each name leads on from the path of the directory.
  | [] => []
  | (name, tree) :: rest => spread (path.join ⟨name⟩) tree ++ spreadEntries path rest

end

/-- The path of what names lead to from a directory that has a given path. -/
def pathBelow (path : Path) (names : List Text) : Path :=
  -- Each name leads on from the directory around it.
  names.foldl (fun path name => path.join ⟨name⟩) path

mutual

/-- The paths in a tree are those to which the names of the walk lead. -/
theorem spread_eq_map (path : Path) (tree : FileTree) :
    tree.spread path = tree.walk.map fun (names, content) => (pathBelow path names, content) := by
  -- A directory adds nothing to its own path.
  cases tree with
  | file content => simp [spread, walk, pathBelow]
  | directory entries => simp [spread, walk, pathBelow, spreadEntries_eq_map path entries]

/-- The paths in a list of entries are those to which the names of the walk lead. -/
theorem spreadEntries_eq_map (path : Path) (entries : List (Text × FileTree)) :
    spreadEntries path entries
      = (walkEntries entries).map fun (names, content) => (pathBelow path names, content) := by
  -- The name of an entry comes before the names below it.
  match entries with
  | [] => simp [spreadEntries, walkEntries]
  | (name, tree) :: rest =>
    simp [spreadEntries, walkEntries, pathBelow, spread_eq_map (path.join ⟨name⟩) tree,
      spreadEntries_eq_map path rest, Function.comp_def]

end

end FileTree

end Smali
