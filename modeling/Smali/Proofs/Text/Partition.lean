import Smali.Proofs.Text.Saying

/-! The lines of a text part it: each starts where those before it end, and its offsets cut out its
characters, its content and what it says. -/

namespace Smali

/-- What a text is without its last character, where that is a given one. -/
inductive Text.WithoutFinal (last : Char) : Text → Text → Prop
  /-- The character is there, and one of it is removed. -/
  | removed (front : Text) : WithoutFinal last (front ++ [last]) front
  /-- The text does not end with the character. -/
  | kept {text : Text} (other : text.getLast? ≠ some last) : WithoutFinal last text text

/-- Removing a last character removes it where it is there. -/
theorem Text.withoutFinal_dropFinal (last : Char) (text : Text) :
    WithoutFinal last text (dropFinal last text) := by
  -- The last character of the text decides.
  by_cases final : text.getLast? = some last
  · obtain ⟨front, rfl⟩ := List.getLast?_eq_some_iff.1 final
    have left : dropFinal last (front ++ [last]) = front := by simp [dropFinal, endsWith]
    rw [left]
    exact .removed front
  · have left : dropFinal last text = text := by simp [dropFinal, endsWith, final]
    rw [left]
    exact .kept final

namespace Line

/-- A line is the one of a text between the lines before it and those behind it. -/
structure StandsIn (text : Text) (before : List Line) (line : Line) (after : List Line) : Prop where
  /-- Its number counts the lines before it. -/
  number : line.number = before.length
  /-- It starts where they end. -/
  start : line.start = Text.byteLength (before.flatMap Line.piece)
  /-- Its characters are those of the text from its start to what follows it. -/
  piece : Text.slice ⟨line.start, line.next⟩ text = some line.piece
  /-- It has characters. -/
  nonempty : line.piece ≠ []
  /-- None of them but the last is a line feed. -/
  single : '\n' ∉ line.piece.dropLast
  /-- The last of them is a line feed if another line follows. -/
  closed : after ≠ [] → line.piece.getLast? = some '\n'
  /-- Its content is the text from its start to its stop. -/
  content : Text.slice ⟨line.start, line.stop⟩ text = some line.content
  /-- The content lacks one final line feed, and then one final carriage return. -/
  ended : ∃ unclosed, Text.WithoutFinal '\n' line.piece unclosed ∧
    Text.WithoutFinal '\r' unclosed line.content
  /-- The span of what it says lies within that of its content. -/
  within : line.start ≤ line.trimmedSpan.start ∧ line.trimmedSpan.start ≤ line.trimmedSpan.stop ∧
    line.trimmedSpan.stop ≤ line.stop
  /-- In that span is what it says. -/
  trimmed : Text.slice line.trimmedSpan text = some line.trimmed

variable {text : Text} {before after : List Line} {line : Line}

/-- A part of a line stands in the text as far behind the start of the line as in the line. -/
theorem slice_part (split : Text.lines text = before ++ line :: after) (lead part tail : Text)
    (parts : line.piece = lead ++ part ++ tail) :
    Text.slice ⟨line.start + Text.byteLength lead,
      line.start + Text.byteLength (lead ++ part)⟩ text = some part := by
  -- The lines before it and the lead stand in front of the part.
  have whole := Text.flatMap_piece_lines text
  rw [split, List.flatMap_append, List.flatMap_cons, parts] at whole
  have first : line.start + Text.byteLength lead =
      Text.byteLength (before.flatMap Line.piece ++ lead) := by
    rw [Text.start_of_lines split, Text.byteLength_append]
  have last : line.start + Text.byteLength (lead ++ part) =
      Text.byteLength (before.flatMap Line.piece ++ lead ++ part) := by
    rw [Text.start_of_lines split, ← Text.byteLength_append, List.append_assoc]
  refine Text.slice_eq_some.2 ⟨_, tail ++ after.flatMap Line.piece, ?_, first, last⟩
  rw [← whole]
  simp only [List.append_assoc]

/-- What a line says takes up no more than its content. -/
theorem trimmedSpan_within (line : Line) :
    line.start ≤ line.trimmedSpan.start ∧ line.trimmedSpan.start ≤ line.trimmedSpan.stop ∧
      line.trimmedSpan.stop ≤ line.stop := by
  -- Blanks before and behind it take up the rest.
  have length := congrArg Text.byteLength line.content_eq
  simp only [Text.byteLength_append] at length
  simp only [trimmedSpan_eq, stop, Text.byteLength_append]
  omega

/-- Every line of a text stands in it between the lines before it and those behind it. -/
theorem standsIn_of_lines (split : Text.lines text = before ++ line :: after) :
    line.StandsIn text before after := by
  -- Its piece is a single line, and its parts are found in the text from its start on.
  have member : line ∈ Text.lines text := by simp [split]
  obtain ⟨nonempty, open'⟩ := Text.isPiece_iff.1 (Text.isPiece_of_line member)
  exact {
    number := congrArg Line.number (Text.line_of_lines split)
    start := Text.start_of_lines split
    piece := by
      rw [next_eq]
      exact slice_part split [] line.piece [] (by simp)
    nonempty := nonempty
    single := open'
    closed := fun behind =>
      Text.closed_of_pieces (Text.pieces_of_lines split) (by simpa using behind)
    content := slice_part split [] line.content line.ending rfl
    ended := by
      -- The ending is what the content has lost, a line feed and a return before it.
      obtain ⟨number, start, piece, -, rfl⟩ := Text.exists_ofPiece member
      rw [piece_ofPiece]
      exact ⟨_, Text.withoutFinal_dropFinal '\n' piece, Text.withoutFinal_dropFinal '\r' _⟩
    within := trimmedSpan_within line
    trimmed := by
      -- The trimmed part stands between the indentation and the trail.
      have parts : line.piece = line.indent ++ line.trimmed ++
          (Text.trailing (Text.trimStart line.content) ++ line.ending) := by
        rw [← List.append_assoc, content_eq]
        rfl
      rw [trimmedSpan_eq]
      exact slice_part split _ _ _ parts }

end Line

/-- A text is parted into as many lines as it has line feeds, and one more if there is something
behind the last one; each line stands where it says it does, and lines that are taken out of the
text, in order, say the same in the text that they make up. -/
theorem Text.lines_partition (text : Text) :
    (lines text).length = text.count '\n' + (if text = [] ∨ Closed text then 0 else 1) ∧
      (lines text).flatMap Line.piece = text ∧
      (∀ before line after, lines text = before ++ line :: after →
        line.StandsIn text before after) ∧
      ∀ chosen : List Line, chosen.Sublist (lines text) →
        (lines (chosen.flatMap Line.piece)).map Line.content = chosen.map Line.content := by
  -- The chosen lines have moved to other places in their own text.
  refine ⟨?_, flatMap_piece_lines text, fun before line after => Line.standsIn_of_lines,
    fun chosen part => ?_⟩
  · rw [← length_pieces, ← map_piece_lines, List.length_map]
  · have moved := (lines_of_sublist part).imp fun line moved here => here.content.symm
    rw [eq_comm, ← List.forall₂_eq_eq_eq, List.forall₂_map_left_iff, List.forall₂_map_right_iff]
    exact moved

/-- A text whose lines end in different ways, with blanks of one, two and three bytes. -/
def unevenSample : Text :=
  -- One carriage return is the content of its line, and one ends the text.
  "a\r\n\u3000b\u00a0\r\n\r\r\n\t\nd\r".toList

/-- The padded line of the sample stands behind the first, and it says the same when only the last
line follows it. -/
theorem Text.lines_partition_sample : ∃ first padded third fourth last : Line,
    lines unevenSample = [first] ++ padded :: [third, fourth, last] ∧
      [first, padded, third, fourth, last].map Line.start = [0, 3, 11, 14, 16] ∧
      padded.StandsIn unevenSample [first] [third, fourth, last] ∧
      padded.trimmedSpan = ⟨6, 7⟩ ∧ padded.trimmed = ['b'] ∧
      [padded, last].Sublist (lines unevenSample) ∧
      (lines ([padded, last].flatMap Line.piece)).map Line.content =
        ["\u3000b\u00a0".toList, ['d']] := by
  -- The lines are evaluated.
  have split : lines unevenSample = [⟨0, 0, ['a'], ['\r', '\n']⟩] ++
      ⟨1, 3, "\u3000b\u00a0".toList, ['\r', '\n']⟩ :: [⟨2, 11, ['\r'], ['\r', '\n']⟩,
        ⟨3, 14, ['\t'], ['\n']⟩, ⟨4, 16, ['d'], ['\r']⟩] := by
    decide +kernel
  have part : [⟨1, 3, "\u3000b\u00a0".toList, ['\r', '\n']⟩, ⟨4, 16, ['d'], ['\r']⟩].Sublist
      (lines unevenSample) := by
    decide +kernel
  have partition := lines_partition unevenSample
  exact ⟨_, _, _, _, _, split, rfl, partition.2.2.1 _ _ _ split, by decide +kernel,
    by decide +kernel, part, partition.2.2.2 _ part⟩

end Smali
