import Smali.Proofs.Text.Lines
import Mathlib.Data.List.Forall2

/-! What changes a text without touching the ends of its lines changes it line by line. -/

namespace Smali

namespace Text

/-- A change of texts that leaves line feeds and carriage returns where they are. -/
structure Linewise (change : Text → Text) : Prop where
  /-- Nothing stays nothing. -/
  nil : change [] = []
  /-- Something stays something. -/
  ne_nil : ∀ {text}, text ≠ [] → change text ≠ []
  /-- What stands before and behind a line feed is changed for itself. -/
  feed : ∀ front back, change (front ++ '\n' :: back) = change front ++ '\n' :: change back
  /-- No line feed comes from other characters. -/
  single : ∀ {text}, '\n' ∉ text → '\n' ∉ change text
  /-- What stands before a final carriage return is changed for itself. -/
  carriage : ∀ front, change (front ++ ['\r']) = change front ++ ['\r']
  /-- No other end becomes a line feed or a carriage return. -/
  final : ∀ {text c}, c = '\n' ∨ c = '\r' → (change text).getLast? = some c →
    text.getLast? = some c

end Text

/-- A line becomes another one with the same number when its text is changed. -/
structure Line.Becomes (change : Text → Text) (line changed : Line) : Prop where
  /-- The line keeps its number. -/
  number : changed.number = line.number
  /-- The content is changed. -/
  content : changed.content = change line.content
  /-- The piece is changed. -/
  piece : changed.piece = change line.piece

namespace Text.Linewise

variable {change : Text → Text}

/-- A closed line stays closed. -/
theorem closed (linewise : Linewise change) {piece : Text} (here : Closed piece) :
    Closed (change piece) := by
  -- The line feed at its end is kept.
  obtain ⟨front, rfl⟩ := List.getLast?_eq_some_iff.1 here
  rw [Closed, linewise.feed, linewise.nil]
  exact List.getLast?_concat

/-- A single line stays a single line. -/
theorem isPiece (linewise : Linewise change) {piece : Text} (single : IsPiece piece) :
    IsPiece (change piece) := by
  -- A line feed can only be at the end.
  obtain ⟨front, last, rfl, open'⟩ := single
  by_cases feed : last = '\n'
  · rw [feed, linewise.feed, linewise.nil]
    exact isPiece_feed (linewise.single open')
  · have whole : '\n' ∉ front ++ [last] := by simp [open', Ne.symm feed]
    exact isPiece_iff.2 ⟨linewise.ne_nil (by simp),
      fun member => linewise.single whole (List.dropLast_subset _ member)⟩

/-- Lines that end with their line feeds are changed one by one. -/
theorem flatten (linewise : Linewise change) {lines : List Text}
    (apart : lines.Pairwise fun line _ => Closed line) :
    change lines.flatten = (lines.map change).flatten := by
  -- Each line feed parts what is changed.
  induction lines with
  | nil => exact linewise.nil
  | cons first rest ih =>
    rw [List.pairwise_cons] at apart
    have others := ih apart.2
    cases rest with
    | nil => simp
    | cons second rest =>
      -- The first line ends with the line feed at which the change may be parted.
      obtain ⟨front, ends⟩ := List.getLast?_eq_some_iff.1 (apart.1 second (by simp))
      calc change (first :: second :: rest).flatten
          = change (front ++ '\n' :: (second :: rest).flatten) := by
            rw [List.flatten_cons, ends, List.append_assoc]
            rfl
        _ = change first ++ change (second :: rest).flatten := by
            rw [linewise.feed, ends, linewise.feed, linewise.nil, List.append_assoc]
            rfl
        _ = ((first :: second :: rest).map change).flatten := by
            rw [others]
            rfl

/-- A text is cut into lines that are changed one by one. -/
theorem pieces (linewise : Linewise change) (text : Text) :
    Text.pieces (change text) = (Text.pieces text).map change := by
  -- The changed lines are lines that make up the changed text.
  have parted := linewise.flatten (pieces_pairwise text)
  rw [flatten_pieces] at parted
  rw [parted]
  refine pieces_flatten (fun line member => ?_) ?_
  · obtain ⟨piece, inside, rfl⟩ := List.mem_map.1 member
    exact linewise.isPiece (isPiece_of_mem_pieces inside)
  · rw [List.pairwise_map]
    exact (pieces_pairwise text).imp linewise.closed

/-- Removing a final line feed or carriage return and changing do not interfere. -/
theorem dropFinal (linewise : Linewise change) {c : Char} (ends : c = '\n' ∨ c = '\r')
    (text : Text) : Text.dropFinal c (change text) = change (Text.dropFinal c text) := by
  -- The character is at the end in both cases or in neither.
  have concat (front : Text) : change (front ++ [c]) = change front ++ [c] := by
    rcases ends with rfl | rfl
    · rw [linewise.feed, linewise.nil]
    · exact linewise.carriage front
  by_cases here : text.getLast? = some c
  · obtain ⟨front, rfl⟩ := List.getLast?_eq_some_iff.1 here
    simp [Text.dropFinal, endsWith, concat]
  · have there : (change text).getLast? ≠ some c := fun last => here (linewise.final ends last)
    simp [Text.dropFinal, endsWith, here, there]

/-- The lines of a text are changed one by one. -/
theorem lines (linewise : Linewise change) (text : Text) :
    List.Forall₂ (Line.Becomes change) (Text.lines text) (Text.lines (change text)) := by
  -- Only the offsets of the lines depend on the others.
  have placed (pieces : List Text) (number start start' : Nat) :
      List.Forall₂ (Line.Becomes change) (placeFrom [] number start pieces)
        (placeFrom [] number start' (pieces.map change)) := by
    induction pieces generalizing number start start' with
    | nil => exact .nil
    | cons piece rest ih =>
      rw [List.map_cons, placeFrom, placeFrom, placeFrom_before, placeFrom_before [_]]
      refine .cons ⟨rfl, ?_, ?_⟩ (ih _ _ _)
      · simp only [Line.ofPiece, linewise.dropFinal (.inl rfl), linewise.dropFinal (.inr rfl)]
      · rw [Line.piece_ofPiece, Line.piece_ofPiece]
  rw [Text.lines, Text.lines, linewise.pieces]
  exact placed _ _ _ _

end Text.Linewise

end Smali
