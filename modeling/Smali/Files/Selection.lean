import Smali.Config
import Smali.Files.System

/-! The files of a directory are selected by their extension and by keywords in their paths. -/

namespace Smali

/-- Keywords that choose among paths. -/
structure PathFilter where
  /-- Keywords of which a path must hold one, if there are any. -/
  included : List Text
  /-- Keywords of which a path may hold none. -/
  excluded : List Text
  deriving DecidableEq, Repr

namespace PathFilter

/-- A keyword as it is looked for in paths. -/
def normalized (keyword : Text) : Text :=
  -- A dot stands for the separator between directories.
  keyword.map fun c => if c = '.' then '/' else c

/-- The filter that keywords make. -/
def ofKeywords (included excluded : List Text) : PathFilter :=
  -- Both lists are written alike.
  ⟨included.map normalized, excluded.map normalized⟩

/-- A path with single separators passes the filter. -/
def accepts (filter : PathFilter) (path : Text) : Bool :=
  -- Keywords may stand anywhere in the path, and case counts.
  (filter.included.isEmpty || filter.included.any fun keyword => Text.contains keyword path) &&
    !filter.excluded.any fun keyword => Text.contains keyword path

end PathFilter

namespace Config

/-- The filter that the settings ask for. -/
def filter (config : Config) : PathFilter :=
  -- The extension is no part of it.
  PathFilter.ofKeywords config.included config.excluded

/-- The settings select a file with a given path. -/
def selects (config : Config) (path : Path) : Bool :=
  -- The filter sees the path below the root only.
  path.extension? == some config.extension &&
    config.filter.accepts (Path.relative config.root path)

/-- Refuses directories that cannot be opened by their paths; a path comes with the content of its
file, or with none where it leads to a directory. -/
def openDirectories : List (Path × Option Content) → Except Error Unit
  -- The first one that cannot be opened is reported.
  | [] => .ok ()
  | (_, some _) :: rest => openDirectories rest
  | (path, none) :: rest =>
    match path.check with
    | .error failure => concerning path.spelling (refuse (.file failure))
    | .ok () => openDirectories rest

/-- The paths of all files below the root that the settings select, in order. -/
def selectFiles (config : Config) (files : FileSystem) : Except Error (List Path) :=
  -- Files are found at any depth, and every directory is opened whether it holds any or not.
  match files.readDirectory config.root with
  | .error failure => concerning config.root.spelling (refuse (.file failure))
  | .ok found => do
    let below := found.spread config.root
    openDirectories below
    let paths := below.filterMap fun (path, content) => content.map fun _ => path
    return (paths.filter config.selects).mergeSort fun left right => !right.before left

end Config

end Smali
