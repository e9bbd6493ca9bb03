import Smali.Files.Way

/-! A file system resolves paths in its tree, where it makes, reads and removes files. -/

namespace Smali

/-- A file tree together with the directory from which relative paths start. -/
structure FileSystem where
  /-- The topmost directory. -/
  tree : FileTree
  /-- The names that lead from the topmost directory to the working directory. -/
  work : List Text := []

namespace Path

/-- The number of bytes that a path has to stay below. -/
def limit : Nat :=
  -- The limit counts the whole spelling.
  4096

/-- The steps that a path takes, one after the other. -/
def steps (path : Path) : List Text :=
  -- Dots are steps as well.
  path.pieces.filter fun piece => !piece.isEmpty

/-- The path asks for a directory by its last character. -/
def wantsDirectory (path : Path) : Bool :=
  -- A separator at the end says so.
  Text.endsWith '/' path.spelling

/-- The last step as the name of a new entry. -/
def newName (unnamed : FileFailure) (path : Path) : Except FileFailure Text :=
  -- A last step that names no entry fails as told.
  match path.steps.getLast? with
  | none => .error unnamed
  | some last =>
    if last = ['.'] ∨ last = ['.', '.'] then .error unnamed
    else if FileTree.nameLimit < Text.byteLength last then .error .nameTooLong
    else .ok last

/-- Refuses a spelling that leads nowhere in any file system. -/
def check (path : Path) : Except FileFailure Unit :=
  -- The character zero is refused before anything is looked for.
  if path.spelling.any (· == '\x00') then .error .zeroInName
  else if path.spelling.isEmpty then .error .notFound
  else if limit ≤ Text.byteLength path.spelling then .error .nameTooLong
  else .ok ()

end Path

namespace FileSystem

/-- The steps that lead to the directory from which a path starts. -/
def startOf (files : FileSystem) (path : Path) : List Text :=
  -- Absolute paths start at the top.
  if path.isAbsolute then [] else files.work

/-- What a path leads to, with the names that lead there from the top. -/
def resolve (files : FileSystem) (path : Path) : Except FileFailure (List Text × FileTree) := do
  -- A separator at the end is right behind a directory only.
  path.check
  let way ← files.tree.takeSteps [] (files.startOf path ++ path.steps)
  let found := files.tree.reached way
  if path.wantsDirectory && !found.isDirectory then .error .notDirectory
  else return (FileTree.namesOf way, found)

/-- What a path leads to is in the tree under the names that come with it. -/
theorem find?_of_resolve {files : FileSystem} {path : Path} {names : List Text}
    {found : FileTree} (resolved : files.resolve path = .ok (names, found)) :
    files.tree.find? names = some found := by
  -- The names are those of the way that was taken.
  cases checked : path.check with
  | error failure => simp [resolve, checked, bind, Except.bind] at resolved
  | ok =>
    cases taken : files.tree.takeSteps [] (files.startOf path ++ path.steps) with
    | error failure => simp [resolve, checked, taken, bind, Except.bind] at resolved
    | ok way =>
      simp only [resolve, checked, taken, bind, Except.bind] at resolved
      split at resolved
      · simp at resolved
      · cases resolved
        have start : files.tree.Leads [] := trivial
        exact FileTree.find?_namesOf (FileTree.takeSteps_leads start taken)

/-- Something has the path. -/
def has (files : FileSystem) (path : Path) : Bool :=
  -- Whatever stands in the way means that nothing has it.
  (files.resolve path).isOk

/-- A directory has the path. -/
def hasDirectory (files : FileSystem) (path : Path) : Bool :=
  -- Whatever stands in the way means that none has it.
  match files.resolve path with
  | .ok (_, found) => found.isDirectory
  | .error _ => false

/-- The directory in which a path takes its last step, with the names that lead there and its
entries. -/
def resolveAround (files : FileSystem) (path : Path) :
    Except FileFailure (List Text × List (Text × FileTree)) := do
  -- The last step itself is not looked at.
  path.check
  let way ← files.tree.takeSteps [] (files.startOf path ++ path.steps.dropLast)
  match files.tree.reached way with
  | .file _ => .error .notDirectory
  | .directory entries => return (FileTree.namesOf way, entries)

/-- Makes an empty directory. -/
def makeDirectory (files : FileSystem) (path : Path) : Except FileFailure FileSystem := do
  -- Nothing may stand there.
  let (around, entries) ← files.resolveAround path
  let name ← path.newName .alreadyExists
  match entries.lookup name with
  | some _ => .error .alreadyExists
  | none => return { files with tree := files.tree.put (around ++ [name]) .empty }

/-- Makes a directory that may be there already, and with it the directories around it; its path
is given by the lead and by the pieces behind it, the last first. -/
def makeTrail (files : FileSystem) (lead : Text) :
    List Text → FileSystem × Except FileFailure Unit
  -- The directories around it are made only when they turn out to be missing.
  | [] => (files, .ok ())
  | last :: around =>
    if (Component.ofPiece? last).isNone then files.makeTrail lead around
    else
      let path := Path.ofTrail lead (last :: around)
      let settle := fun (files : FileSystem) (failure : FileFailure) =>
        if files.hasDirectory path then (files, .ok ()) else (files, .error failure)
      match files.makeDirectory path with
      | .ok made => (made, .ok ())
      | .error .notFound =>
        match files.makeTrail lead around with
        | (made, .error failure) => (made, .error failure)
        | (made, .ok ()) =>
          match made.makeDirectory path with
          | .ok complete => (complete, .ok ())
          | .error failure => settle made failure
      | .error failure => settle files failure

/-- Makes a directory that may be there already, and with it the directories around it. -/
def makeDirectories (files : FileSystem) (path : Path) : FileSystem × Except FileFailure Unit :=
  -- A root or nothing at all is always there.
  files.makeTrail path.lead path.trail

/-- Makes the directories around what a path leads to. -/
def makeDirectoriesAround (files : FileSystem) (path : Path) :
    FileSystem × Except FileFailure Unit :=
  -- They are spelled as in the path.
  files.makeTrail path.lead path.trailAround

/-- Writes a file, which is made where it is missing. -/
def writeFile (files : FileSystem) (path : Path) (content : Content) :
    Except FileFailure FileSystem := do
  -- A path that asks for a directory is refused whatever its last step is.
  let (around, entries) ← files.resolveAround path
  if path.wantsDirectory then .error .isDirectory
  else
    let name ← path.newName .isDirectory
    match entries.lookup name with
    | some (.directory _) => .error .isDirectory
    | _ => return { files with tree := files.tree.put (around ++ [name]) (.file content) }

/-- Writes a file, and before that makes the directories around it. -/
def writeWithDirectories (files : FileSystem) (path : Path) (content : Content) :
    FileSystem × Except FileFailure Unit :=
  -- Directories that were made stay even if the file cannot be written.
  match files.makeDirectoriesAround path with
  | (made, .error failure) => (made, .error failure)
  | (made, .ok ()) =>
    match made.writeFile path content with
    | .ok written => (written, .ok ())
    | .error failure => (made, .error failure)

/-- The text of a file. -/
def readText (files : FileSystem) (path : Path) : Except FileFailure Text := do
  -- Directories and other bytes have no text.
  let (_, found) ← files.resolve path
  match found with
  | .directory _ => .error .isDirectory
  | .file (.binary _) => .error .invalidText
  | .file (.text text) => return text

/-- The directory that a path leads to. -/
def readDirectory (files : FileSystem) (path : Path) : Except FileFailure FileTree := do
  -- A file has no entries to read.
  let (_, found) ← files.resolve path
  if found.isDirectory then return found else .error .notDirectory

/-- Removes a file. -/
def removeFile (files : FileSystem) (path : Path) : Except FileFailure FileSystem := do
  -- Directories are not removed.
  let (names, found) ← files.resolve path
  if found.isDirectory then .error .isDirectory
  else return { files with tree := files.tree.remove names }

/-- Everything in the working directory with its path from there, in the order of the paths; a file
comes with its content and a directory with a separator at its end. -/
def listing (files : FileSystem) : List (Text × Option Content) :=
  -- The working directory itself is left out.
  let found := ((files.tree.find? files.work).map FileTree.walk).getD []
  let spelled := (found.filter fun entry => !entry.1.isEmpty).map fun (names, content) =>
    (['/'].intercalate names ++ (if content.isNone then ['/'] else []), content)
  spelled.mergeSort fun left right => !Text.before right.1 left.1

end FileSystem

end Smali
