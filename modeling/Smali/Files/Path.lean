import Smali.Text.Basic

/-! A path keeps its spelling, and comparisons go by the components that it stands for. -/

namespace Smali

/-- One step of a path. -/
inductive Component where
  /-- The root of all directories. -/
  | root
  /-- The directory that a path starts from. -/
  | current
  /-- The directory that holds the present one. -/
  | parent
  /-- An entry of the present directory. -/
  | name (text : Text)
  deriving DecidableEq, Repr

/-- A path as it is spelled. -/
structure Path where
  /-- The spelling. -/
  spelling : Text
  deriving DecidableEq, Repr

namespace Component

/-- The component as a path spells it. -/
def text : Component → Text
  -- Only the root contains a separator.
  | root => ['/']
  | current => ['.']
  | parent => ['.', '.']
  | name text => text

/-- The component that a piece between separators stands for, unless it stands for none. -/
def ofPiece? (piece : Text) : Option Component :=
  -- Empty pieces and single dots lead nowhere.
  if piece.isEmpty || piece == ['.'] then none
  else if piece == ['.', '.'] then some .parent
  else some (.name piece)

/-- The place of the sort of a component among the others. -/
def rank : Component → Nat
  -- The order is that of the declaration.
  | root => 0
  | current => 1
  | parent => 2
  | name _ => 3

/-- One component comes before another. -/
def before : Component → Component → Bool
  -- Names are in the order of their characters and come last.
  | name text, name text' => Text.before text text'
  | left, right => left.rank < right.rank

end Component

namespace Path

/-- The pieces of the spelling between separators. -/
def pieces (path : Path) : List Text :=
  -- Neighbouring separators enclose an empty piece.
  path.spelling.splitOnP (· == '/')

/-- The path starts from the root. -/
def isAbsolute (path : Path) : Bool :=
  -- The first character decides.
  ['/'].isPrefixOf path.spelling

/-- The first component, where it is one that no later piece can give. -/
def anchor (path : Path) : List Component :=
  -- A single dot counts only where it comes first.
  if path.isAbsolute then [.root]
  else if path.pieces.head? == some ['.'] then [.current]
  else []

/-- The components that the spelling stands for. -/
def components (path : Path) : List Component :=
  -- Separators may be doubled or end the path without changing them.
  path.anchor ++ path.pieces.filterMap Component.ofPiece?

/-- Two paths have the same components. -/
def same (left right : Path) : Bool :=
  -- The spellings may differ.
  left.components == right.components

/-- One path comes before another. -/
def before (left right : Path) : Bool :=
  -- The first components that differ decide, and a path comes before what it leads to.
  left.components.lex right.components Component.before

/-- The path that leads on from one path by another. -/
def join (base more : Path) : Path :=
  -- An absolute path starts again, and a separator is added only where one is missing.
  if more.isAbsolute then more
  else if base.spelling.isEmpty || Text.endsWith '/' base.spelling then
    ⟨base.spelling ++ more.spelling⟩
  else ⟨base.spelling ++ '/' :: more.spelling⟩

/-- The part of the spelling that gives the first component alone. -/
def lead (path : Path) : Text :=
  -- It is empty where the first component is a name like any other.
  path.anchor.flatMap Component.text

/-- The pieces of the spelling behind its lead, the last first. -/
def trail (path : Path) : List Text :=
  -- The separator of a leading dot leaves an empty piece.
  ((path.spelling.drop path.lead.length).splitOnP (· == '/')).reverse

/-- The pieces of the spelling of the directory that holds what a path leads to, the last first. -/
def trailAround (path : Path) : List Text :=
  -- What follows the last component goes with it.
  (path.trail.dropWhile fun piece => (Component.ofPiece? piece).isNone).drop 1

/-- The path with a given lead and given pieces behind it, the last first. -/
def ofTrail (lead : Text) (trail : List Text) : Path :=
  -- Pieces that stand for no component are spelled as well.
  ⟨lead ++ ['/'].intercalate trail.reverse⟩

/-- The spelling starts with its lead. -/
theorem lead_prefix (path : Path) : path.lead <+: path.spelling := by
  -- A first piece that is a dot is what the spelling starts with.
  have joined : ['/'].intercalate path.pieces = path.spelling :=
    List.intercalate_splitOn '/'
  unfold lead anchor
  split
  case isTrue absolute =>
    simpa [Component.text] using List.isPrefixOf_iff_prefix.mp absolute
  case isFalse =>
    split
    case isTrue current =>
      rw [← joined]
      cases found : path.pieces with
      | nil => simp [found] at current
      | cons first rest =>
        have dot : first = ['.'] := by simpa [found] using current
        cases rest <;> simp [dot, Component.text]
    case isFalse => simp

/-- The lead and the trail together are the whole spelling. -/
theorem ofTrail_trail (path : Path) : ofTrail path.lead path.trail = path := by
  -- Joining the pieces again gives back what was split.
  have joined : ['/'].intercalate
      ((path.spelling.drop path.lead.length).splitOnP (· == '/'))
        = path.spelling.drop path.lead.length :=
    List.intercalate_splitOn '/'
  obtain ⟨rest, whole⟩ := path.lead_prefix
  have dropped : path.spelling.drop path.lead.length = rest := by simp [← whole]
  cases path
  simp_all [ofTrail, trail]

/-- The name of the entry that a path leads to. -/
def fileName? (path : Path) : Option Text :=
  -- A path that ends with a step up names no entry.
  match path.components.getLast? with
  | some (.name text) => some text
  | _ => none

/-- What follows the last dot of a name, unless that dot comes first. -/
def nameExtension? (name : Text) : Option Text :=
  -- A name with a dot only in front has no extension.
  let extension := (name.reverse.takeWhile (· != '.')).reverse
  if extension.length + 1 < name.length then some extension else none

/-- The extension of the entry that a path leads to. -/
def extension? (path : Path) : Option Text :=
  -- Only names have extensions.
  path.fileName?.bind nameExtension?

/-- The components of a path below a directory, or all of them where it is not below. -/
def componentsBelow (root path : Path) : List Component :=
  -- The components of the directory are left out.
  if root.components.isPrefixOf path.components then
    path.components.drop root.components.length
  else path.components

/-- The path of an entry below a directory, with single separators. -/
def relative (root path : Path) : Text :=
  -- Components are joined as they are spelled.
  ['/'].intercalate ((componentsBelow root path).map Component.text)

end Path

end Smali
