import Smali.Method.ArrayBlock
import Smali.Method.Assignments
import Smali.Proofs.Text.Saying

/-! Changes of fields take whole lines out of a body, put whole lines in and raise one count. -/

namespace Smali

/-- A body without the assignments to a field has the other lines, and it had an assignment. -/
theorem Method.withoutAssignments_some {field body stripped : Text}
    (removed : Method.withoutAssignments field body = some stripped) :
    Text.pieces stripped =
        ((Text.lines body).filter (isNoAssignment field)).map Line.piece ∧
      ∃ line ∈ Text.lines body, isNoAssignment field line = false := by
  -- A body without assignments is not touched.
  unfold Method.withoutAssignments at removed
  simp only at removed
  split at removed
  · simp at removed
  · next assigned =>
    cases removed
    exact ⟨Text.pieces_filter body _, by simpa using assigned⟩

namespace ArrayBlock

/-- A directive for the number of registers ends with a character that is not blank. -/
theorem solid_countDirectives {directive : Text} (member : directive ∈ countDirectives) :
    Text.endsSolid directive := by
  -- Both end with the same letter.
  rcases List.mem_cons.1 member with rfl | member
  · decide
  · rw [List.mem_singleton.1 member]
    decide

/-- A count behind its directive says that and nothing else, whatever blanks stand around it. -/
theorem trim_count {directive : Text} (member : directive ∈ countDirectives) :
    Text.trim (directive ++ ' ' :: Text.decimal registerCount) =
      directive ++ ' ' :: Text.decimal registerCount := by
  -- It begins with a dot and ends with a digit.
  rcases List.mem_cons.1 member with rfl | member
  · decide
  · rw [List.mem_singleton.1 member]
    decide

/-- A count behind its directive holds no line feed. -/
theorem open_count {directive : Text} (member : directive ∈ countDirectives) :
    '\n' ∉ directive ++ ' ' :: Text.decimal registerCount := by
  -- There are two directives.
  rcases List.mem_cons.1 member with rfl | member
  · decide
  · rw [List.mem_singleton.1 member]
    decide

/-- A line is either left as it is or gives the least count behind the same directive. -/
theorem raiseCount_cases (least : Nat) (line : Line) :
    raiseCount least line = line.piece ∨
      ∃ directive ∈ countDirectives, line.opensWith directive ∧
        raiseCount least line =
          line.indent ++ (directive ++ ' ' :: Text.decimal least) ++ line.trail ++ line.ending := by
  -- The directive and a smaller count have to be there.
  unfold raiseCount
  split
  · exact .inl rfl
  · next directive found =>
    split
    · exact .inl rfl
    · split
      · have opened : line.opensWith directive :=
          List.find?_some (p := fun other => line.opensWith other) found
        exact .inr ⟨directive, List.mem_of_find?_eq_some found, opened, by simp⟩
      · exact .inl rfl

/-- A raised line says its directive and the count, and it is closed where it was. -/
theorem raised_line {body directive : Text} {line : Line} (inside : line ∈ Text.lines body)
    (member : directive ∈ countDirectives) :
    let raised := line.indent ++ (directive ++ ' ' :: Text.decimal registerCount) ++ line.trail ++
      line.ending
    Text.IsPiece raised ∧ (Text.Closed line.piece → Text.Closed raised) ∧
      Text.trim raised = directive ++ ' ' :: Text.decimal registerCount := by
  -- Indentation, trail and ending are blank.
  intro raised
  have whole : line.indent ++ Text.trimStart line.content = line.content :=
    List.takeWhile_append_dropWhile
  have clean := Line.open_content inside
  have lead : ∀ c ∈ line.indent, Text.isBlank c := fun c => Text.isBlank_of_mem_takeWhile
  have trail : ∀ c ∈ line.trail, Text.isBlank c := fun c behind =>
    Text.isBlank_of_mem_takeWhile (List.mem_reverse.1 behind)
  have ending : ∀ c ∈ line.ending, Text.isBlank c := by
    obtain ⟨number, start, piece, -, rfl⟩ := Text.exists_ofPiece inside
    exact fun c => Line.isBlank_of_mem_ending
  -- Neither the count nor anything around it has a line feed.
  have open' : '\n' ∉ line.indent ++ (directive ++ ' ' :: Text.decimal registerCount) ++
      line.trail := by
    intro feed
    rcases List.mem_append.1 feed with feed | feed
    · rcases List.mem_append.1 feed with feed | feed
      · exact clean ((List.takeWhile_sublist _).subset feed)
      · exact open_count member feed
    · have reversed := (List.takeWhile_sublist _).subset (List.mem_reverse.1 feed)
      exact clean (List.mem_reverse.1 reversed)
  obtain ⟨single, closed⟩ := Line.isPiece_content inside (by simp) open'
  refine ⟨single, closed, ?_⟩
  -- Around the count there is nothing but blanks.
  have tail : ∀ c ∈ line.trail ++ line.ending, Text.isBlank c := by
    intro c behind
    rcases List.mem_append.1 behind with behind | behind
    · exact trail c behind
    · exact ending c behind
  have said := Text.trim_append lead tail (directive ++ ' ' :: Text.decimal registerCount)
  rw [trim_count member] at said
  rw [← said]
  simp only [raised, List.append_assoc]

/-- Raising the register count changes at most one line, which gives a count before and after. -/
theorem pieces_ensureRegisters (body : Text) :
    ensureRegisters registerCount body = body ∨
      ∃ front piece raised back directive, Text.pieces body = front ++ piece :: back ∧
        Text.pieces (ensureRegisters registerCount body) = front ++ raised :: back ∧
        (Text.Closed piece → Text.Closed raised) ∧ directive ∈ countDirectives ∧
        Text.opens directive (Text.trim piece) ∧
        Text.trim raised = directive ++ ' ' :: Text.decimal registerCount := by
  -- The first line that opens with a directive for the count is the one.
  have split := List.takeWhile_append_dropWhile
    (p := fun line => (countDirective? line).isNone) (l := Text.lines body)
  unfold ensureRegisters
  simp only
  generalize (Text.lines body).takeWhile _ = before at split ⊢
  cases found : (Text.lines body).dropWhile fun line => (countDirective? line).isNone with
  | nil => exact .inl rfl
  | cons line after =>
    rw [found] at split
    have inside : line ∈ Text.lines body := by rw [← split]; simp
    have parts := Text.pieces_of_lines split.symm
    simp only
    rcases raiseCount_cases registerCount line with same | ⟨directive, member, opened, raised⟩
    · -- A count that is large enough stays, and with it the body.
      left
      rw [same, ← Text.flatten_pieces body, parts]
      simp [List.flatMap_def]
    · -- The raised line takes the place of the old one.
      obtain ⟨single, closed, said⟩ := raised_line inside member
      obtain ⟨number, start, piece, -, same⟩ := Text.exists_ofPiece inside
      rw [Line.opensWith_eq_opens _ (solid_countDirectives member), same, Line.trimmed_ofPiece]
        at opened
      refine .inr ⟨_, _, _, _, directive, parts, ?_, closed, member, ?_, said⟩
      · rw [raised, List.flatMap_def, List.flatMap_def]
        exact Text.pieces_replace parts single closed
      · rw [same, Line.piece_ofPiece]
        exact opened

/-- A body without a return is refused. -/
theorem inject_refused {body : Text} (silent : ∀ line ∈ Text.lines body, isNoReturn line)
    (values : List Text) (field : Text) : inject body values field = refuse (.noReturn field) := by
  -- There is no line for the block to stand before.
  have nothing : (Text.lines body).dropWhile isNoReturn = [] :=
    List.dropWhile_eq_nil_iff.2 silent
  rw [inject, nothing]

/-- A body with a return gets the block. -/
theorem exists_inject {body : Text} {line : Line} (inside : line ∈ Text.lines body)
    (returns : isNoReturn line = false) (values : List Text) (field : Text) :
    ∃ injected, inject body values field = .ok injected := by
  -- The first line with a return is found.
  cases found : (Text.lines body).dropWhile isNoReturn with
  | nil =>
    have silent := List.dropWhile_eq_nil_iff.1 found line inside
    rw [returns] at silent
    cases silent
  | cons first after =>
    rw [inject, found]
    exact ⟨_, rfl⟩

/-- The block ends with an empty line. -/
theorem exists_lines (indent : Text) (values : List Text) (field : Text) :
    ∃ front, lines indent values field = front ++ ['\n'] ++ ['\n'] := by
  -- The line before the empty one stores the array.
  have feeds : "\n\n".toList = ['\n'] ++ ['\n'] := rfl
  rw [lines, feeds, ← List.append_assoc]
  exact ⟨_, rfl⟩

/-- Building an array puts the lines of the block before a return and raises the count. -/
theorem inject_ok {body injected field : Text} {values : List Text}
    (done : inject body values field = .ok injected) :
    ∃ front line back widened, Text.lines body = front ++ line :: back ∧
      isNoReturn line = false ∧ injected = ensureRegisters registerCount widened ∧
      Text.pieces widened = front.map Line.piece ++
        Text.pieces (lines line.indent values field) ++ (line :: back).map Line.piece ∧
      ∀ other ∈ front, isNoReturn other := by
  -- The first return is the place, and the lines around it stay.
  have split := List.takeWhile_append_dropWhile (p := isNoReturn) (l := Text.lines body)
  have passed : ∀ other ∈ (Text.lines body).takeWhile isNoReturn, isNoReturn other :=
    fun _ => List.mem_takeWhile_imp
  unfold inject at done
  generalize (Text.lines body).takeWhile _ = front at split done passed
  cases found : (Text.lines body).dropWhile isNoReturn with
  | nil => simp [found, refuse] at done
  | cons line back =>
    rw [found] at split
    simp only [found, Except.ok.injEq] at done
    have returns : isNoReturn line = false := by
      have first := List.head?_dropWhile_not isNoReturn (Text.lines body)
      simpa [found] using first
    -- The body is cut between two of its lines.
    have parts := Text.pieces_of_lines split.symm
    have before : Text.pieces (front.map Line.piece).flatten = front.map Line.piece :=
      Text.pieces_of_sublist (parts ▸ List.sublist_append_left ..)
    have behind : Text.pieces ((line :: back).map Line.piece).flatten =
        (line :: back).map Line.piece :=
      Text.pieces_of_sublist (parts ▸ List.sublist_append_right ..)
    -- The block ends with a line feed, so that the line behind it stays a line.
    obtain ⟨start, block⟩ := exists_lines line.indent values field
    have closed : Text.Closed (lines line.indent values field) := by
      simp [block, Text.Closed]
    refine ⟨front, line, back, _, split.symm, returns, done.symm, ?_, passed⟩
    rw [List.flatMap_def, List.flatMap_def, List.append_assoc,
      Text.pieces_append (Text.closed_front parts), Text.pieces_append (.inr closed), before,
      behind, List.append_assoc]

end ArrayBlock

namespace Method

/-- The number of lines of a body that say nothing. -/
def blankCount (body : Text) : Nat :=
  -- Removing assignments keeps these lines, and every array block brings some.
  (Text.pieces body).countP fun piece => (Text.trim piece).isEmpty

/-- A body is what changes of fields may leave of another one. -/
def Rewritten (body changed : Text) : Prop :=
  -- Lines that say nothing are gained, or else lines are lost.
  blankCount body < blankCount changed ∨
    blankCount changed = blankCount body ∧
      (Text.pieces changed).length < (Text.pieces body).length

/-- A change may follow another one. -/
theorem Rewritten.trans {body middle last : Text} (first : Rewritten body middle)
    (second : Rewritten middle last) : Rewritten body last := by
  -- Both counts move in one direction.
  unfold Rewritten at *
  omega

/-- A change is never undone. -/
theorem Rewritten.ne {body changed : Text} (rewritten : Rewritten body changed) :
    changed ≠ body := by
  -- One of the counts has moved.
  rintro rfl
  unfold Rewritten at rewritten
  omega

/-- A line that writes a field says something. -/
theorem trim_piece_ne_nil {body field : Text} {line : Line} (inside : line ∈ Text.lines body)
    (assigns : isNoAssignment field line = false) : Text.trim line.piece ≠ [] := by
  -- A line that says nothing is decoded as such.
  intro nothing
  obtain ⟨number, start, piece, -, rfl⟩ := Text.exists_ofPiece inside
  rw [Line.piece_ofPiece, ← Line.trimmed_ofPiece number start, Line.trimmed] at nothing
  simp [isNoAssignment, Instruction.decode, nothing, Instruction.assigns] at assigns

/-- Removing assignments changes the body. -/
theorem rewritten_withoutAssignments {field body stripped : Text}
    (removed : Method.withoutAssignments field body = some stripped) :
    Rewritten body stripped := by
  -- The lines that are removed say something.
  obtain ⟨parts, line, inside, assigns⟩ := withoutAssignments_some removed
  refine .inr ⟨?_, ?_⟩
  · rw [blankCount, blankCount, parts, ← Text.map_piece_lines, List.countP_map, List.countP_map,
      List.countP_filter]
    refine List.countP_congr fun other member => ?_
    simp only [Function.comp_apply, Bool.and_eq_true, List.isEmpty_iff]
    refine ⟨And.left, fun nothing => ⟨nothing, ?_⟩⟩
    by_contra writes
    exact trim_piece_ne_nil member (Bool.not_eq_true _ ▸ writes) nothing
  · rw [parts, ← Text.map_piece_lines, List.length_map, List.length_map]
    exact List.length_filter_lt_length_iff_exists.2 ⟨line, inside, by simp [assigns]⟩

/-- Raising the register count keeps the lines that say nothing. -/
theorem blankCount_ensureRegisters (body : Text) :
    blankCount (ArrayBlock.ensureRegisters ArrayBlock.registerCount body) = blankCount body := by
  -- The line that is raised says something before and after.
  rcases ArrayBlock.pieces_ensureRegisters body with same |
    ⟨front, piece, raised, back, directive, parts, parts', -, member, opened, said⟩
  · rw [same]
  · have before : Text.trim piece ≠ [] := by
      intro nothing
      have beginning := Text.prefix_of_opens opened
      rw [nothing, List.prefix_nil] at beginning
      rw [beginning] at member
      exact absurd member (by decide)
    have after : Text.trim raised ≠ [] := by simp [said]
    simp [blankCount, parts, parts', before, after]

/-- Building an array changes the body. -/
theorem rewritten_inject {body injected field : Text} {values : List Text}
    (done : ArrayBlock.inject body values field = .ok injected) : Rewritten body injected := by
  -- The block brings an empty line, and no line is lost.
  obtain ⟨front, line, back, widened, split, -, rfl, parts, -⟩ := ArrayBlock.inject_ok done
  obtain ⟨start, block⟩ := ArrayBlock.exists_lines line.indent values field
  left
  rw [blankCount_ensureRegisters, blankCount, blankCount, parts, block,
    Text.pieces_append (.inr (by simp [Text.Closed])), ← Text.map_piece_lines, split]
  have empty : Text.pieces ['\n'] = [['\n']] := rfl
  have nothing : Text.trim ['\n'] = [] := by decide
  simp only [empty, List.map_append, List.countP_append, List.countP_singleton, nothing,
    List.isEmpty_nil, if_true]
  omega

end Method

end Smali
