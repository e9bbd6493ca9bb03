import Smali.Proofs.Pairing
import Smali.Proofs.Text.Blank
import Smali.Text.Line

/-! The pieces of a text are its lines, and what a line says does not depend on its ending. -/

namespace Smali

/-- A line that stands elsewhere has the same characters. -/
structure Line.Moved (line moved : Line) : Prop where
  /-- It says the same. -/
  content : moved.content = line.content
  /-- It ends in the same way. -/
  piece : moved.piece = line.piece

namespace Line

/-- What follows a line stands behind its piece. -/
theorem next_eq (line : Line) : line.next = line.start + Text.byteLength line.piece := by
  -- Content and ending make up the piece.
  rw [next, stop, piece, Text.byteLength_append, Nat.add_assoc]

/-- A line ends where its piece does. -/
theorem next_ofPiece (number start : Nat) (piece : Text) :
    (ofPiece number start piece).next = start + Text.byteLength piece := by
  -- No character of the piece is lost.
  rw [next_eq, piece_ofPiece]
  rfl

end Line

namespace Text

/-- A text ends with a line feed. -/
def Closed (text : Text) : Prop :=
  -- Whatever follows it starts a new line.
  text.getLast? = some '\n'

/-- Whether a text ends with a line feed can be decided. -/
instance (text : Text) : Decidable text.Closed :=
  -- The last character tells.
  inferInstanceAs (Decidable (_ = _))

/-- A text is a single line, with or without its line feed. -/
def IsPiece (piece : Text) : Prop :=
  -- A line feed can only be the last character.
  ∃ front last, piece = front ++ [last] ∧ '\n' ∉ front

/-- A first character is put before the pieces of the rest. -/
theorem pieces_cons (c : Char) (rest : Text) : pieces (c :: rest) = consPiece c (pieces rest) := by
  -- This is how pieces are gathered.
  rfl

/-- A text with a character has a piece. -/
theorem pieces_cons_ne_nil (c : Char) (rest : Text) : pieces (c :: rest) ≠ [] := by
  -- The character opens a piece or joins one.
  rw [pieces_cons]
  cases pieces rest with
  | nil => simp [consPiece]
  | cons piece others => simp only [consPiece]; split <;> simp

/-- A character goes to the first piece, whatever follows. -/
theorem consPiece_append {front : List Text} (nonempty : front ≠ []) (c : Char)
    (back : List Text) : consPiece c (front ++ back) = consPiece c front ++ back := by
  -- Only the first piece is looked at.
  cases front with
  | nil => exact absurd rfl nonempty
  | cons piece others => simp only [List.cons_append, consPiece]; split <;> rfl

/-- Behind a line feed the pieces start anew. -/
theorem pieces_append {front : Text} (closed : front = [] ∨ Closed front) (back : Text) :
    pieces (front ++ back) = pieces front ++ pieces back := by
  -- The last character of the front is the line feed that keeps the two parts apart.
  induction front with
  | nil => rfl
  | cons c rest ih =>
    cases rest with
    | nil =>
      have feed : c = '\n' := by simpa [Closed] using closed
      subst feed
      rw [List.cons_append, List.nil_append, pieces_cons]
      cases pieces back <;> simp [pieces, consPiece]
    | cons d rest =>
      have closed' : Closed (d :: rest) := by simpa [Closed] using closed
      rw [List.cons_append, pieces_cons, ih (.inr closed'),
        consPiece_append (pieces_cons_ne_nil d rest), ← pieces_cons]

/-- A text has a piece for each of its line feeds, and one for what stands behind the last. -/
theorem length_pieces (text : Text) : (pieces text).length =
    text.count '\n' + if text = [] ∨ Closed text then 0 else 1 := by
  -- The last character opens a piece, and so does every line feed before it.
  induction text with
  | nil => rfl
  | cons c rest ih =>
    cases rest with
    | nil => by_cases feed : c = '\n' <;> simp [pieces, consPiece, Closed, feed]
    | cons d rest =>
      have last : Closed (c :: d :: rest) ↔ Closed (d :: rest) := by simp [Closed]
      obtain ⟨first, others, found⟩ := List.exists_cons_of_ne_nil (pieces_cons_ne_nil d rest)
      rw [found] at ih
      rw [pieces_cons, found, List.count_cons]
      by_cases feed : c = '\n'
      · simp only [consPiece, feed, if_true, List.length_cons] at ih ⊢
        simp_all
        omega
      · simp_all [consPiece]

/-- A single line is its only piece. -/
theorem pieces_of_isPiece {piece : Text} (single : IsPiece piece) : pieces piece = [piece] := by
  -- No character before the last one closes a piece.
  obtain ⟨front, last, rfl, open'⟩ := single
  induction front with
  | nil => rfl
  | cons c rest ih =>
    have other : c ≠ '\n' := fun same => open' (by simp [same])
    rw [List.cons_append, pieces_cons, ih fun member => open' (by simp [member])]
    simp [consPiece, other]

/-- Every piece of a text is a single line. -/
theorem isPiece_of_mem_pieces {text piece : Text} (member : piece ∈ pieces text) :
    IsPiece piece := by
  -- A piece grows only by characters other than the line feed.
  induction text generalizing piece with
  | nil => simp [pieces] at member
  | cons c rest ih =>
    rw [pieces_cons] at member
    cases found : pieces rest with
    | nil =>
      rw [found, consPiece, List.mem_singleton] at member
      exact ⟨[], c, by simp [member], by simp⟩
    | cons first others =>
      rw [found] at member ih
      simp only [consPiece] at member
      split at member
      · -- The line feed is a piece of its own.
        rcases List.mem_cons.1 member with rfl | later
        · exact ⟨[], c, by simp, by simp⟩
        · exact ih later
      · next other =>
        rcases List.mem_cons.1 member with rfl | later
        · -- The character joins the first piece.
          obtain ⟨front, last, rfl, open'⟩ := ih (List.mem_cons_self ..)
          exact ⟨c :: front, last, rfl, by simp [Ne.symm other, open']⟩
        · exact ih (List.mem_cons_of_mem _ later)

/-- Of two pieces of a text the one in front ends with its line feed. -/
theorem pieces_pairwise (text : Text) : (pieces text).Pairwise fun piece _ => Closed piece := by
  -- A character that joins a piece leaves the end of that piece as it is.
  induction text with
  | nil => exact .nil
  | cons c rest ih =>
    rw [pieces_cons]
    cases found : pieces rest with
    | nil => simp [consPiece]
    | cons first others =>
      rw [found] at ih
      have single : IsPiece first := isPiece_of_mem_pieces
        (show first ∈ pieces rest by simp [found])
      obtain ⟨front, last, rfl, -⟩ := single
      simp only [consPiece]
      split
      · next feed =>
        -- The new piece is the line feed, which closes it.
        exact List.pairwise_cons.2 ⟨fun _ _ => by simp [Closed, feed], ih⟩
      · rw [List.pairwise_cons] at ih ⊢
        refine ⟨fun piece member => ?_, ih.2⟩
        -- The last character of the joined piece is that of the old one.
        have closed : (front ++ [last]).getLast? = some '\n' := ih.1 piece member
        rw [List.getLast?_concat] at closed
        exact (List.getLast?_concat (l := c :: front)).trans closed

/-- A piece with others behind it ends with its line feed. -/
theorem closed_of_pieces {text piece : Text} {front back : List Text}
    (split : pieces text = front ++ piece :: back) (behind : back ≠ []) : Closed piece := by
  -- One of the others is enough.
  obtain ⟨other, others, rfl⟩ := List.exists_cons_of_ne_nil behind
  have apart := pieces_pairwise text
  rw [split, List.pairwise_append, List.pairwise_cons] at apart
  exact apart.2.1.1 other (List.mem_cons_self ..)

/-- Lines of which only the last may lack its line feed are the pieces of what they make up. -/
theorem pieces_flatten {lines : List Text} (single : ∀ line ∈ lines, IsPiece line)
    (closed : lines.Pairwise fun line _ => Closed line) : pieces lines.flatten = lines := by
  -- Each line but the last keeps the rest apart from itself.
  induction lines with
  | nil => rfl
  | cons first rest ih =>
    have others := ih (fun line member => single line (by simp [member]))
      (List.pairwise_cons.1 closed).2
    cases rest with
    | nil => simpa using pieces_of_isPiece (single first (by simp))
    | cons second rest =>
      have feed : Closed first := (List.pairwise_cons.1 closed).1 second (by simp)
      rw [List.flatten_cons, pieces_append (.inr feed), others,
        pieces_of_isPiece (single first (by simp))]
      rfl

/-- When lines are placed, the back ones stand behind all that the front ones take. -/
theorem placeFrom_append (number start : Nat) (front back : List Text) :
    placeFrom [] number start (front ++ back) =
      placeFrom [] number start front ++
        placeFrom [] (number + front.length) (start + byteLength front.flatten) back := by
  -- Each piece moves the place of the next one.
  induction front generalizing number start with
  | nil => simp [placeFrom]
  | cons piece rest ih =>
    have length := Line.next_ofPiece number start piece
    simp only [List.cons_append, placeFrom, List.length_cons, List.flatten_cons,
      byteLength_append]
    rw [placeFrom_before, ih, placeFrom_before [_], length, List.append_assoc,
      show number + 1 + rest.length = number + (rest.length + 1) by omega, Nat.add_assoc]

/-- The lines of a text have its pieces. -/
theorem map_piece_lines (text : Text) : (lines text).map Line.piece = pieces text := by
  -- Placing keeps the pieces.
  exact map_piece_placeFrom 0 0 (pieces text)

/-- The characters of a line are a piece of the text. -/
theorem piece_mem_pieces {text : Text} {line : Line} (member : line ∈ lines text) :
    line.piece ∈ pieces text := by
  -- The lines have the pieces.
  rw [← map_piece_lines]
  exact List.mem_map_of_mem member

/-- A line of a text is a single line. -/
theorem isPiece_of_line {text : Text} {line : Line} (member : line ∈ lines text) :
    IsPiece line.piece := by
  -- Its characters are one of the pieces of the text.
  exact isPiece_of_mem_pieces (piece_mem_pieces member)

/-- A text is cut into pieces where it is cut into lines. -/
theorem pieces_of_lines {text : Text} {before after : List Line} {line : Line}
    (split : lines text = before ++ line :: after) :
    pieces text = before.map Line.piece ++ line.piece :: after.map Line.piece := by
  -- The lines have the pieces.
  rw [← map_piece_lines, split, List.map_append, List.map_cons]

/-- A text is a single line exactly when it has characters and no line feed before the last. -/
theorem isPiece_iff {piece : Text} : IsPiece piece ↔ piece ≠ [] ∧ '\n' ∉ piece.dropLast := by
  -- The last character is told apart from those before it.
  constructor
  · rintro ⟨front, last, rfl, open'⟩
    simpa using open'
  · rintro ⟨nonempty, open'⟩
    rcases List.eq_nil_or_concat piece with rfl | ⟨front, last, rfl⟩
    · exact absurd rfl nonempty
    · rw [List.concat_eq_append] at open' ⊢
      exact ⟨front, last, rfl, by simpa using open'⟩

/-- Characters other than line feeds before a single line join it. -/
theorem IsPiece.append {front piece : Text} (single : IsPiece piece) (open' : '\n' ∉ front) :
    IsPiece (front ++ piece) := by
  -- The last character stays the last.
  obtain ⟨before, last, rfl, inside⟩ := single
  refine ⟨front ++ before, last, by simp, fun member => ?_⟩
  rcases List.mem_append.1 member with member | member
  · exact open' member
  · exact inside member

/-- A text without line feeds is a single line once a line feed closes it. -/
theorem isPiece_feed {front : Text} (open' : '\n' ∉ front) : IsPiece (front ++ ['\n']) := by
  -- The line feed is the last character.
  exact ⟨front, '\n', rfl, open'⟩

/-- A piece may give way to another single line that is closed where the piece was. -/
theorem pieces_replace {text piece other : Text} {front back : List Text}
    (split : pieces text = front ++ piece :: back) (single : IsPiece other)
    (closed : Closed piece → Closed other) :
    pieces (front.flatten ++ other ++ back.flatten) = front ++ other :: back := by
  -- Only a piece with others behind it has to be closed.
  have whole : front.flatten ++ other ++ back.flatten = (front ++ other :: back).flatten := by
    simp
  have apart := pieces_pairwise text
  rw [split, List.pairwise_append, List.pairwise_cons] at apart
  obtain ⟨before, ⟨here, behind⟩, across⟩ := apart
  rw [whole]
  refine pieces_flatten (fun line member => ?_) ?_
  · rcases List.mem_append.1 member with member | member
    · exact isPiece_of_mem_pieces (show line ∈ pieces text by simp [split, member])
    · rcases List.mem_cons.1 member with rfl | member
      · exact single
      · exact isPiece_of_mem_pieces (show line ∈ pieces text by simp [split, member])
  · refine List.pairwise_append.2 ⟨before, List.pairwise_cons.2
      ⟨fun line member => closed (here line member), behind⟩, fun line member later _ => ?_⟩
    exact across line member piece (by simp)

/-- Some of the pieces of a text, in order, are the pieces of what they make up. -/
theorem pieces_of_sublist {text : Text} {chosen : List Text}
    (part : chosen.Sublist (pieces text)) : pieces chosen.flatten = chosen := by
  -- Leaving pieces out keeps the others closed.
  exact pieces_flatten (fun line member => isPiece_of_mem_pieces (part.subset member))
    ((pieces_pairwise text).sublist part)

/-- What stands before a piece ends with a line feed. -/
theorem closed_front {text piece : Text} {front back : List Text}
    (split : pieces text = front ++ piece :: back) :
    front.flatten = [] ∨ Closed front.flatten := by
  -- The last piece before it has another one behind it.
  rcases List.eq_nil_or_concat front with rfl | ⟨before, last, rfl⟩
  · exact .inl rfl
  · rw [List.concat_eq_append] at split ⊢
    have apart := pieces_pairwise text
    rw [split, List.pairwise_append] at apart
    have closed : last.getLast? = some '\n' := apart.2.2 last (by simp) piece (by simp)
    refine .inr ?_
    rw [Closed, List.flatten_append, List.flatten_singleton, List.getLast?_append, closed]
    rfl

/-- The lines of a text that are kept are the pieces of what they make up. -/
theorem pieces_filter (text : Text) (keeps : Line → Bool) :
    pieces (((lines text).filter keeps).flatMap Line.piece) =
      ((lines text).filter keeps).map Line.piece := by
  -- They are some of the pieces.
  rw [List.flatMap_def]
  have part : (((lines text).filter keeps).map Line.piece).Sublist (pieces text) := by
    rw [← map_piece_lines]
    exact List.filter_sublist.map Line.piece
  exact pieces_of_sublist part

/-- The line of a piece stands in the text behind those of the pieces before it. -/
theorem lines_of_pieces {text : Text} {front back : List Text} {piece : Text}
    (split : pieces text = front ++ piece :: back) :
    ∃ before after, lines text =
        before ++ Line.ofPiece front.length (byteLength front.flatten) piece :: after ∧
      before.map Line.piece = front ∧ after.map Line.piece = back := by
  -- The line stands behind the lines of the pieces before it.
  refine ⟨placeFrom [] 0 0 front,
    placeFrom [] (front.length + 1)
      (Line.ofPiece front.length (byteLength front.flatten) piece).next back,
    ?_, map_piece_placeFrom .., map_piece_placeFrom ..⟩
  rw [lines, split, placeFrom_append]
  simp only [Nat.zero_add, placeFrom]
  rw [placeFrom_before [_]]
  rfl

/-- A line stands behind all the lines before it. -/
theorem line_of_lines {text : Text} {before after : List Line} {line : Line}
    (split : lines text = before ++ line :: after) :
    line = Line.ofPiece before.length (byteLength (before.flatMap Line.piece)) line.piece := by
  -- Placing the pieces gives a line with these coordinates at the same position.
  obtain ⟨before', after', split', front, -⟩ := lines_of_pieces (pieces_of_lines split)
  have count : before'.length = before.length := by
    simpa using congrArg List.length front
  rw [split] at split'
  obtain ⟨-, rest⟩ := List.append_inj split' count.symm
  simpa [List.flatMap_def] using (List.cons.inj rest).1

/-- A line starts where the lines before it end. -/
theorem start_of_lines {text : Text} {before after : List Line} {line : Line}
    (split : lines text = before ++ line :: after) :
    line.start = byteLength (before.flatMap Line.piece) := by
  -- Its place is that of its piece.
  rw [line_of_lines split]
  rfl

/-- What follows a line starts where that line and those before it end. -/
theorem next_of_lines {text : Text} {before after : List Line} {line : Line}
    (split : lines text = before ++ line :: after) :
    line.next = byteLength ((before ++ [line]).flatMap Line.piece) := by
  -- The line begins where those before it end.
  rw [Line.next_eq, start_of_lines split, List.flatMap_append, List.flatMap_singleton,
    byteLength_append]

/-- A line of a text is found at its number. -/
theorem getElem?_number {text : Text} {line : Line} (member : line ∈ lines text) :
    (lines text)[line.number]? = some line := by
  -- The number counts the lines before it.
  obtain ⟨before, after, split⟩ := List.append_of_mem member
  have number : line.number = before.length := congrArg Line.number (line_of_lines split)
  rw [number, split, List.getElem?_append_right (Nat.le_refl _), Nat.sub_self]
  rfl

/-- A line of a text is the line of its piece. -/
theorem exists_ofPiece {text : Text} {line : Line} (member : line ∈ lines text) :
    ∃ number start piece, IsPiece piece ∧ line = Line.ofPiece number start piece := by
  -- The lines before it give its place.
  obtain ⟨before, after, split⟩ := List.append_of_mem member
  exact ⟨_, _, line.piece, isPiece_of_line member, line_of_lines split⟩

/-- Lines with the same characters say the same. -/
theorem content_eq_of_piece {text text' : Text} {line line' : Line} (member : line ∈ lines text)
    (member' : line' ∈ lines text') (same : line.piece = line'.piece) :
    line.content = line'.content := by
  -- The content is made of the piece alone.
  obtain ⟨number, start, piece, -, rfl⟩ := exists_ofPiece member
  obtain ⟨number', start', piece', -, rfl⟩ := exists_ofPiece member'
  rw [Line.piece_ofPiece, Line.piece_ofPiece] at same
  rw [same]
  rfl

/-- What the lines of a text say, one by one. -/
theorem map_content_lines (text : Text) : (lines text).map Line.content =
    (pieces text).map fun piece => dropFinal '\r' (dropFinal '\n' piece) := by
  -- Each line is the line of its piece.
  rw [← map_piece_lines, List.map_map]
  refine List.map_congr_left fun line member => ?_
  obtain ⟨number, start, piece, -, rfl⟩ := exists_ofPiece member
  rw [Function.comp_apply, Line.piece_ofPiece]
  rfl

/-- Some of the lines of a text, in order, are the lines of what they make up. -/
theorem lines_of_sublist {text : Text} {chosen : List Line} (part : chosen.Sublist (lines text)) :
    List.Forall₂ Line.Moved chosen (lines (chosen.flatMap Line.piece)) := by
  -- They have the same pieces, and these tell what the lines say.
  have part' := part.map Line.piece
  rw [map_piece_lines] at part'
  have pieces' : chosen.map Line.piece = (lines (chosen.flatMap Line.piece)).map Line.piece := by
    rw [map_piece_lines, List.flatMap_def, pieces_of_sublist part']
  rw [← List.forall₂_eq_eq_eq, List.forall₂_map_left_iff, List.forall₂_map_right_iff] at pieces'
  exact pieces'.imp_mem fun line member moved member' here =>
    ⟨content_eq_of_piece member' (part.subset member) here.symm, here.symm⟩

/-- The text that some of the lines make up says what these lines say. -/
theorem exists_line_iff {text : Text} {chosen : List Line} (part : chosen.Sublist (lines text))
    (Says : Text → Prop) : (∃ line ∈ lines (chosen.flatMap Line.piece), Says line.content) ↔
      ∃ line ∈ chosen, Says line.content := by
  -- Its lines are these lines.
  refine ((lines_of_sublist part).exists_iff fun line moved same => ?_).symm
  rw [same.content]

/-- Removing a line feed at the end of a single line leaves none. -/
theorem open_dropFinal {piece : Text} (single : IsPiece piece) : '\n' ∉ dropFinal '\n' piece := by
  -- A line feed could only be the last character.
  obtain ⟨front, last, rfl, open'⟩ := single
  by_cases feed : last = '\n'
  · simpa [dropFinal, endsWith, feed] using open'
  · have other : '\n' ∉ front ++ [last] := by simp [open', Ne.symm feed]
    simpa [dropFinal, endsWith, feed] using other

end Text

namespace Line

/-- The content of a line holds no line feed. -/
theorem open_content {text : Text} {line : Line} (member : line ∈ Text.lines text) :
    '\n' ∉ line.content := by
  -- The content is the beginning of the piece without its line feed.
  obtain ⟨number, start, piece, single, rfl⟩ := Text.exists_ofPiece member
  intro inside
  refine Text.open_dropFinal single ((Text.dropFinal_prefix '\r' _).subset inside)

/-- Another content before the same ending makes a single line that is closed where it was. -/
theorem isPiece_content {text content : Text} {line : Line} (member : line ∈ Text.lines text)
    (nonempty : content ≠ []) (open' : '\n' ∉ content) :
    Text.IsPiece (content ++ line.ending) ∧
      (Text.Closed line.piece → Text.Closed (content ++ line.ending)) := by
  -- The line feed that closes the line is the end of its ending.
  have inside := open_content member
  obtain ⟨number, start, piece, single, same⟩ := Text.exists_ofPiece member
  have whole : line.content ++ line.ending = piece := by
    rw [same]; exact piece_ofPiece number start piece
  rcases List.eq_nil_or_concat line.ending with none' | ⟨front, last, some'⟩
  · -- Without an ending the line is not closed.
    rw [none', List.append_nil]
    obtain ⟨front, last, rfl⟩ := (List.eq_nil_or_concat content).resolve_left nonempty
    rw [List.concat_eq_append] at open' ⊢
    refine ⟨⟨front, last, rfl, fun member => open' (by simp [member])⟩, fun closed => ?_⟩
    rw [Line.piece, none', List.append_nil] at closed
    exact absurd (List.mem_of_getLast? closed) inside
  · rw [List.concat_eq_append] at some'
    -- The ending holds no line feed before its last character.
    have single' := (Text.isPiece_iff.1 single).2
    rw [← whole, some', ← List.append_assoc, List.dropLast_concat] at single'
    rw [some']
    refine ⟨Text.IsPiece.append ⟨front, last, rfl, fun member => single' (by simp [member])⟩ open',
      fun closed => ?_⟩
    rw [Line.piece, some', Text.Closed, ← List.append_assoc, List.getLast?_concat] at closed
    rw [Text.Closed, ← List.append_assoc, List.getLast?_concat]
    exact closed

end Line

end Smali
