import Smali.Text.Blank
import Smali.Text.Digits

/-! A text is cut into lines that remember where they stand, and joined they give it back. -/

namespace Smali

/-- One line of a text together with its place. -/
structure Line where
  /-- The number of lines before it. -/
  number : Nat
  /-- The byte offset of its first character. -/
  start : Nat
  /-- What it says, without its ending. -/
  content : Text
  /-- What ends it, which is a line feed or nothing, and a carriage return before that. -/
  ending : Text
  deriving DecidableEq, Repr

namespace Line

/-- The characters of a line together with its ending. -/
def piece (line : Line) : Text :=
  -- The ending follows the content.
  line.content ++ line.ending

/-- The byte offset just past the content. -/
def stop (line : Line) : Nat :=
  -- The content begins where the line does.
  line.start + Text.byteLength line.content

/-- The byte offset of what follows the line. -/
def next (line : Line) : Nat :=
  -- The ending follows the content.
  line.stop + Text.byteLength line.ending

/-- The content without blanks at its ends. -/
def trimmed (line : Line) : Text :=
  -- The ending is no part of the content.
  Text.trim line.content

/-- The span that the trimmed content takes in the text. -/
def trimmedSpan (line : Line) : Span :=
  -- The blanks before it are what the content loses at the start.
  let first := line.start +
    (Text.byteLength line.content - Text.byteLength (Text.trimStart line.content))
  ⟨first, first + Text.byteLength line.trimmed⟩

/-- The blanks before the first other character of the content. -/
def indent (line : Line) : Text :=
  -- They are the blanks that trimming the start removes.
  line.content.takeWhile Text.isBlank

/-- The blanks behind the last other character of the content. -/
def trail (line : Line) : Text :=
  -- They are the blanks that trimming the end removes.
  (line.content.reverse.takeWhile Text.isBlank).reverse

/-- The line opens with a directive, which ends there or at a blank. -/
def opensWith (directive : Text) (line : Line) : Bool :=
  -- Blanks may come first, and a longer word is another directive.
  match Text.afterPrefix? directive (Text.trimStart line.content) with
  | none => false
  | some [] => true
  | some (c :: _) => Text.isBlank c

/-- The line records a source line number and nothing else. -/
def recordsNumber (line : Line) : Bool :=
  -- The number need not be set apart from the directive.
  match Text.afterPrefix? ".line".toList line.trimmed with
  | none => false
  | some rest => !(Text.trim rest).isEmpty && (Text.trim rest).all Text.isDigit

/-- The line that a piece of text makes at a place. -/
def ofPiece (number start : Nat) (piece : Text) : Line :=
  -- One line feed is removed, and then one carriage return.
  let content := Text.dropFinal '\r' (Text.dropFinal '\n' piece)
  ⟨number, start, content, piece.drop content.length⟩

/-- A line made of a piece keeps all its characters. -/
theorem piece_ofPiece (number start : Nat) (piece : Text) :
    (ofPiece number start piece).piece = piece := by
  -- The content is the beginning of the piece, and the ending is the rest.
  have beginning : Text.dropFinal '\r' (Text.dropFinal '\n' piece) <+: piece :=
    (Text.dropFinal_prefix '\r' _).trans (Text.dropFinal_prefix '\n' piece)
  exact List.prefix_iff_eq_append.1 beginning

end Line

namespace Text

/-- Puts a character before the pieces of what follows it. -/
def consPiece (c : Char) : List Text → List Text
  -- A line feed closes a piece of its own, and any other character opens the next piece.
  | [] => [[c]]
  | piece :: rest => if c = '\n' then [c] :: piece :: rest else (c :: piece) :: rest

/-- The pieces of a text, each of which ends with its only line feed or at the end of the text. -/
def pieces (text : Text) : List Text :=
  -- The pieces are gathered from the end of the text.
  text.foldr consPiece []

/-- Putting a character before pieces puts it before the text that they make up. -/
theorem flatten_consPiece (c : Char) (pieces : List Text) :
    (consPiece c pieces).flatten = c :: pieces.flatten := by
  -- The character opens a piece or joins the first one.
  cases pieces with
  | nil => rfl
  | cons piece rest =>
    simp only [consPiece]
    split <;> simp_all

/-- The pieces of a text make it up. -/
theorem flatten_pieces (text : Text) : (pieces text).flatten = text := by
  -- Each character is put before what follows it.
  induction text with
  | nil => rfl
  | cons c rest ih =>
    rw [pieces, List.foldr_cons, flatten_consPiece]
    exact congrArg (c :: ·) ih

/-- Places pieces one behind the other, adding them to the reversed lines before them. -/
def placeFrom (before : List Line) (number start : Nat) : List Text → List Line
  -- Each line begins where the one before it ends.
  | [] => before.reverse
  | piece :: rest =>
    let line := Line.ofPiece number start piece
    placeFrom (line :: before) (number + 1) line.next rest

/-- The lines of a text. -/
def lines (text : Text) : List Line :=
  -- The first line has number zero and stands at offset zero.
  placeFrom [] 0 0 (pieces text)

/-- Lines before the first piece stand in front of the lines of the pieces. -/
theorem placeFrom_before (before : List Line) (number start : Nat) (pieces : List Text) :
    placeFrom before number start pieces = before.reverse ++ placeFrom [] number start pieces := by
  -- Every piece adds its line at the end.
  induction pieces generalizing before number start with
  | nil => simp [placeFrom]
  | cons piece rest ih =>
    simp only [placeFrom]
    rw [ih (_ :: before), ih [_]]
    simp

/-- The lines made of pieces have these pieces. -/
theorem map_piece_placeFrom (number start : Nat) (pieces : List Text) :
    (placeFrom [] number start pieces).map Line.piece = pieces := by
  -- Placing keeps the order.
  induction pieces generalizing number start with
  | nil => rfl
  | cons piece rest ih =>
    rw [placeFrom, placeFrom_before]
    simp [ih, Line.piece_ofPiece]

/-- The lines of a text make it up. -/
theorem flatMap_piece_lines (text : Text) : (lines text).flatMap Line.piece = text := by
  -- Lines have the pieces of the text.
  rw [List.flatMap_def, lines, map_piece_placeFrom, flatten_pieces]

/-- Removes the lines that record source line numbers, and keeps all else as it is. -/
def withoutLineNumbers (text : Text) : Text :=
  -- The kept pieces are joined again in order.
  ((lines text).filter fun line => !line.recordsNumber).flatMap Line.piece

end Text

end Smali
