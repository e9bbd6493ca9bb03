import Smali.Proofs.ClassText.Members
import Smali.Proofs.ClassText.Planning
import Smali.Proofs.Instruction
import Smali.Proofs.Method.Rewriting

/-! Removing the assignments to several fields one after the other removes exactly their lines. -/

namespace Smali

namespace Instruction

/-- The instruction writes none of some fields. -/
def spares (references : List Text) (instruction : Instruction) : Bool :=
  -- Fields are given by their references.
  !references.any fun reference => instruction.assigns reference

/-- A line of a text holds the instruction that its piece holds. -/
theorem decode_content {text : Text} {line : Line} (member : line ∈ Text.lines text) :
    decode line.content = decode line.piece := by
  -- Both say the same between their blanks.
  rw [← decode_trim line.content, ← decode_trim line.piece]
  exact congrArg decode (Line.trimmed_eq member)

/-- A line that says a directive is decoded as one. -/
theorem decode_of_tells {directive piece : Text} (said : Text.tells ('.' :: directive) piece) :
    ∃ text, decode piece = .directive text := by
  -- It begins with a dot.
  obtain ⟨rest, whole⟩ := Text.prefix_of_opens said
  exact ⟨'.' :: (directive ++ rest), by rw [decode, ← whole]; rfl⟩

/-- A line that says a directive writes no field. -/
theorem spares_of_tells {directive piece : Text} (said : Text.tells ('.' :: directive) piece)
    (references : List Text) : spares references (decode piece) = true := by
  -- It is a directive and no access to a field.
  obtain ⟨text, directive'⟩ := decode_of_tells said
  rw [directive', spares, List.any_eq_false.2 fun reference _ => by simp [assigns]]
  rfl

end Instruction

/-- A line that gives the number of registers is decoded as a directive. -/
theorem ArrayBlock.decode_count {directive piece : Text} (member : directive ∈ countDirectives)
    (said : Text.tells directive piece) : ∃ text, Instruction.decode piece = .directive text := by
  -- Both directives begin with a dot.
  have dotted : ∃ rest, directive = '.' :: rest := by
    rcases List.mem_cons.1 member with rfl | member
    · exact ⟨_, rfl⟩
    · exact ⟨_, List.mem_singleton.1 member⟩
  obtain ⟨rest, rfl⟩ := dotted
  exact Instruction.decode_of_tells said

namespace Method

/-- A body without the lines that write one of some fields. -/
def cleared (references : List Text) (body : Text) : Text :=
  -- The other lines are joined as they were.
  ((Text.pieces body).filter fun piece =>
    Instruction.spares references (Instruction.decode piece)).flatten

/-- The lines that are left are those that write none of the fields. -/
theorem pieces_cleared (references : List Text) (body : Text) :
    Text.pieces (cleared references body) = (Text.pieces body).filter fun piece =>
      Instruction.spares references (Instruction.decode piece) :=
  -- They are some of the lines of the body.
  Text.pieces_of_sublist List.filter_sublist

/-- Without fields nothing is removed. -/
@[simp] theorem cleared_nil (body : Text) : cleared [] body = body := by
  -- Every line writes none of no fields.
  have all : (Text.pieces body).filter (fun piece =>
      Instruction.spares [] (Instruction.decode piece)) = Text.pieces body :=
    List.filter_eq_self.2 fun _ _ => rfl
  rw [cleared, all, Text.flatten_pieces]

/-- Fields can be taken one after the other. -/
theorem cleared_cleared (first rest : List Text) (body : Text) :
    cleared rest (cleared first body) = cleared (first ++ rest) body := by
  -- A line that is left both times writes none of all the fields.
  rw [cleared, pieces_cleared, List.filter_filter, cleared]
  congr 1
  refine List.filter_congr fun piece _ => ?_
  simp only [Instruction.spares, List.any_append, Bool.not_or, Bool.and_comm]

/-- Only which fields there are counts. -/
theorem cleared_congr {references others : List Text}
    (same : ∀ reference, reference ∈ references ↔ reference ∈ others) (body : Text) :
    cleared references body = cleared others body := by
  -- A line writes one of both or none of both.
  have tests : Instruction.spares references = Instruction.spares others := by
    funext instruction
    unfold Instruction.spares
    rw [Bool.eq_iff_iff]
    simp [same]
  rw [cleared, cleared, tests]

/-- The assignments to a single field are removed if there are any. -/
theorem withoutAssignments_getD (field body : Text) :
    (withoutAssignments field body).getD body = cleared [field] body := by
  -- The lines of the body are its pieces.
  have tests : ∀ line ∈ Text.lines body, isNoAssignment field line =
      Instruction.spares [field] (Instruction.decode line.piece) := by
    intro line member
    rw [isNoAssignment, Instruction.decode_content member, Instruction.spares, List.any_cons,
      List.any_nil, Bool.or_false]
  have kept : ((Text.lines body).filter (isNoAssignment field)).flatMap Line.piece =
      cleared [field] body := by
    rw [List.filter_congr tests, cleared, ← Text.map_piece_lines, List.filter_map,
      List.flatMap_def]
    rfl
  unfold withoutAssignments
  dsimp only
  split
  · next none' =>
    rw [Option.getD_none, ← kept, List.filter_eq_self.2 (List.all_eq_true.1 none'),
      Text.flatMap_piece_lines]
  · rw [Option.getD_some, kept]

/-- The instructions of a method are those of the pieces of its body. -/
theorem instructions_eq (method : Method) :
    method.instructions = (Text.pieces method.body).map Instruction.decode := by
  -- The endings of lines do not count.
  rw [instructions, ← Text.map_piece_lines, List.map_map]
  exact List.map_congr_left fun line member => Instruction.decode_content member

/-- Exactly the instructions that write one of the fields are removed, and the others stay in
order. -/
theorem instructions_cleared {method after : Method} {references : List Text}
    (body : after.body = cleared references method.body) :
    after.instructions = method.instructions.filter (Instruction.spares references) := by
  -- Each line holds one instruction.
  rw [instructions_eq, instructions_eq, body, pieces_cleared, List.filter_map]
  rfl

/-- Nothing is removed exactly if no instruction writes one of the fields. -/
theorem cleared_eq_iff {method : Method} {references : List Text} :
    cleared references method.body = method.body ↔
      ∀ instruction ∈ method.instructions, instruction.spares references := by
  -- Then all lines are left.
  rw [instructions_eq, List.forall_mem_map, ← List.filter_eq_self, ← pieces_cleared]
  exact ⟨congrArg Text.pieces, fun same => by
    rw [← Text.flatten_pieces (cleared references method.body), same, Text.flatten_pieces]⟩

/-- The lines that are removed tell no directive, so that the first line that tells one stays. -/
theorem firstSaying_cleared (directive : Text) (references : List Text) (body : Text) :
    ClassText.firstSaying ('.' :: directive) (Text.pieces (cleared references body)) =
      ClassText.firstSaying ('.' :: directive) (Text.pieces body) := by
  -- A line that tells it writes no field.
  rw [ClassText.firstSaying, ClassText.firstSaying, pieces_cleared, List.find?_filter]
  congr 1
  refine List.find?_congr fun piece _ => ?_
  cases said : Text.tells ('.' :: directive) piece with
  | false => simp
  | true => simp [Instruction.spares_of_tells said]

end Method

namespace ClassText.Draft

/-- The draft without the assignments to some fields. -/
def clear (references : List Text) (draft : Draft) : Draft :=
  -- The fields are taken one after the other.
  references.foldl (fun draft reference => draft.withoutAssignments reference) draft

/-- The removal of assignments does not change which method a draft is for. -/
theorem method_clear (references : List Text) (draft : Draft) :
    (draft.clear references).method = draft.method := by
  -- Only the body is rewritten.
  induction references generalizing draft with
  | nil => rfl
  | cons reference rest ih =>
    have first : (draft.withoutAssignments reference).method = draft.method := by
      unfold withoutAssignments
      split <;> rfl
    exact (ih _).trans first

/-- The draft gets the body without the lines that write one of the fields. -/
theorem body_clear (references : List Text) (draft : Draft) :
    (draft.clear references).body = Method.cleared references draft.body := by
  -- Each field leaves the lines that do not write it.
  induction references generalizing draft with
  | nil => exact (Method.cleared_nil _).symm
  | cons reference rest ih =>
    have first : (draft.withoutAssignments reference).body =
        Method.cleared [reference] draft.body := by
      rw [← Method.withoutAssignments_getD]
      unfold withoutAssignments
      split
      · next body removed => rw [removed]; rfl
      · next none' => rw [none']; rfl
    rw [clear, List.foldl_cons]
    refine (ih _).trans ?_
    rw [first, Method.cleared_cleared]
    rfl

end ClassText.Draft

end Smali
