import Smali.Proofs.ClassText.Layout
import Smali.Proofs.ClassText.Sites

/-! What a flush leaves of a text is read again line by line, whatever the text repeats. -/

namespace Smali.ClassText

/-- A line may take the place of another one. -/
structure Replaces (old new : Text) : Prop where
  /-- It is a single line if the other one is. -/
  single : Text.IsPiece old → Text.IsPiece new
  /-- It is closed if the other one is. -/
  closed : Text.Closed old → Text.Closed new
  /-- It is the same line, or neither says a directive that makes up a class text. -/
  told : new = old ∨ ∀ directive ∈ Method.structuralDirectives,
    Text.tells directive new = false ∧ Text.tells directive old = false

namespace Replaces

/-- A line says the directives that make up a class text if the line before it did. -/
theorem tells_eq {old new directive : Text} (replaces : Replaces old new)
    (structural : directive ∈ Method.structuralDirectives) :
    Text.tells directive new = Text.tells directive old := by
  -- Otherwise neither says one.
  rcases replaces.told with rfl | silent
  · rfl
  · rw [(silent directive structural).1, (silent directive structural).2]

/-- Lines that take the place of others name a class or a superclass as those do. -/
theorem firstSaying_eq {olds news : List Text} (replaces : List.Forall₂ Replaces olds news)
    {directive : Text} (structural : directive ∈ Method.structuralDirectives) :
    firstSaying directive news = firstSaying directive olds := by
  -- The first line that says the directive stays.
  induction replaces with
  | nil => rfl
  | @cons old new _ _ here _ ih =>
    have same := here.tells_eq structural
    rw [firstSaying, firstSaying, List.find?_cons, List.find?_cons, same]
    cases said : Text.tells directive old with
    | false => exact ih
    | true =>
      rcases here.told with rfl | silent
      · rfl
      · rw [(silent directive structural).2] at said
        cases said

/-- Lines that take the place of lines of a body neither open nor close a method. -/
theorem inside {olds news : List Text} (replaces : List.Forall₂ Replaces olds news)
    (between : Inside olds) : Inside news := by
  -- The lines before them did not.
  intro new member
  obtain ⟨old, member', here⟩ := List.exists_of_mem_right replaces member
  rw [here.tells_eq (by decide), here.tells_eq (by decide)]
  exact between old member'

end Replaces

/-- A line that neither opens nor closes a method declares a field, or nothing. -/
theorem Reads.exists_cons {owner piece : Text} {pieces : List Text} {fields : List Field}
    {methods : List Method} (reads : Reads owner pieces fields methods)
    (noHeader : Text.tells ".method".toList piece = false)
    (noTerminator : Text.tells ".end method".toList piece = false) :
    ∃ fields', Reads owner (piece :: pieces) fields' methods := by
  -- A declaration may be one that cannot be read.
  by_cases said : Text.tells ".field".toList piece
  · cases parsed : Field.parse owner (Text.trim piece) with
    | ok field => exact ⟨_, .field said parsed reads⟩
    | error error =>
      refine ⟨_, .plain noHeader noTerminator (fun field _ done => ?_) reads⟩
      rw [parsed] at done
      cases done
  · exact ⟨_, .plain noHeader noTerminator (fun field said' => absurd said' said) reads⟩

section Becomes

variable {fields : List Field} {drafts : List Draft} {front : List Line}
  (declarable : ∀ field ∈ fields,
    Declarable field.declaration ∧ Declarable field.declarationText)

include declarable

/-- What becomes of a line may take its place. -/
theorem LineBecomes.replaces {line : Line} {piece : Text}
    (become : LineBecomes fields front line piece) : Replaces line.piece piece := by
  -- A declaration gives way to a declaration.
  cases become with
  | kept => exact ⟨id, id, .inl rfl⟩
  | @said field lead tail only parts blankLead blankTail =>
    have member : field ∈ fieldsIn fields front [line] := by
      rw [only]
      exact List.mem_singleton_self field
    obtain ⟨old, new⟩ := declarable field (mem_fieldsIn.1 member).1
    have spoken {declaration : Text} (declarable : Declarable declaration) :
        Text.tells ".field".toList (lead ++ declaration ++ tail) := by
      rw [Text.tells, Text.trim_append blankLead blankTail, declarable.trimmed]
      exact declarable.opens
    rw [parts]
    refine ⟨fun single => single.replace old.ne_nil new.ne_nil new.single,
      fun closed => closed.replace old.ne_nil old.single _, .inr fun directive structural => ?_⟩
    -- No directive that structures a text begins like that of a declaration.
    have apart : (".field".toList.isPrefixOf directive ||
        directive.isPrefixOf ".field".toList) = false := by
      simp only [Method.structuralDirectives, List.mem_cons, List.not_mem_nil, or_false]
        at structural
      rcases structural with rfl | rfl | rfl | rfl <;> decide
    exact ⟨Text.tells_other directive (spoken new) apart,
      Text.tells_other directive (spoken old) apart⟩

/-- What becomes of lines may take their place. -/
theorem LinesBecome.replaces {lines : List Line} {pieces : List Text}
    (become : LinesBecome fields front lines pieces) :
    List.Forall₂ Replaces (lines.map Line.piece) pieces := by
  -- The lines are taken one by one.
  induction become with
  | done => exact .nil
  | line here _ ih => exact .cons (here.replaces declarable) ih

/-- What becomes of closed lines are the pieces of what they make up. -/
theorem LinesBecome.pieces_flatten {lines : List Line} {pieces : List Text}
    (become : LinesBecome fields front lines pieces)
    (single : ∀ line ∈ lines, Text.IsPiece line.piece)
    (closed : ∀ line ∈ lines, Text.Closed line.piece) :
    Text.pieces pieces.flatten = pieces ∧ ∀ piece ∈ pieces, Text.Closed piece := by
  -- They are single and closed as those before them.
  have kept : ∀ piece ∈ pieces, Text.IsPiece piece ∧ Text.Closed piece := by
    intro piece member
    obtain ⟨old, inside, here⟩ :=
      List.exists_of_mem_right (become.replaces declarable) member
    obtain ⟨line, listed, rfl⟩ := List.mem_map.1 inside
    exact ⟨here.single (single line listed), here.closed (closed line listed)⟩
  exact ⟨Text.pieces_flatten (fun piece member => (kept piece member).1)
    (List.pairwise_of_forall_mem_list fun piece member _ _ => (kept piece member).2),
    fun piece member => (kept piece member).2⟩

/-- The body that a flush leaves may stand in its block. -/
theorem BodyBecomes.enclosable {text : Text} {block : Block} {body : Text}
    (become : BodyBecomes fields drafts front block body)
    (genuine : ∀ line ∈ block.inside, line ∈ Text.lines text)
    (between : ∀ line ∈ block.inside, line.isBracket = false)
    (closed : ∀ line ∈ block.inside, Text.Closed line.piece)
    (drafted : ∀ draft ∈ drafts, Enclosable draft.body) : Enclosable body := by
  -- Its lines take the place of those before, or it is the body of a draft.
  cases become with
  | @kept pieces _ lines =>
    obtain ⟨same, closed'⟩ := lines.pieces_flatten declarable
      (fun line member => Text.isPiece_of_line (genuine line member)) closed
    constructor <;> rw [same]
    · exact closed'
    · exact Replaces.inside (lines.replaces declarable) (inside_of_lines genuine between)
  | @written draft only _ =>
    have member : draft ∈ draftsIn drafts front
        (block.header :: (block.inside ++ [block.terminator])) := by
      rw [only]
      exact List.mem_singleton_self draft
    exact drafted draft (mem_draftsIn.1 member).1

/-- The lines that a flush leaves are single lines, of which only the last may lack its line feed,
and its bodies may stand in their blocks. -/
theorem PartsBecome.apart {text : Text} {rest : List Line} {blocks : List Block}
    {pieces bodies : List Text} (become : PartsBecome fields drafts front rest blocks pieces bodies)
    (genuine : ∀ line ∈ rest, line ∈ Text.lines text)
    (apart : (rest.map Line.piece).Pairwise fun piece _ => Text.Closed piece)
    (drafted : ∀ draft ∈ drafts, Enclosable draft.body) :
    (∀ piece ∈ pieces, Text.IsPiece piece) ∧
      (pieces.Pairwise fun piece _ => Text.Closed piece) ∧ ∀ body ∈ bodies, Enclosable body := by
  -- A line with others behind it was closed before, and stays so.
  have last {front : List Line} {rest : List Line} {blocks : List Block} {pieces bodies : List Text}
      (become : PartsBecome fields drafts front rest blocks pieces bodies) {other piece : Text}
      (member : other ∈ pieces)
      (closed : ∀ other ∈ rest.map Line.piece, Text.Closed piece) : Text.Closed piece := by
    cases become with
    | done => cases member
    | outside => exact closed _ (List.mem_cons_self ..)
    | block => exact closed _ (List.mem_cons_self ..)
  induction become with
  | done => exact ⟨by simp, .nil, by simp⟩
  | @outside front rest line blocks piece pieces bodies noBracket here behind ih =>
    rw [List.forall_mem_cons] at genuine
    rw [List.map_cons, List.pairwise_cons] at apart
    obtain ⟨single, apart', enclosable⟩ := ih genuine.2 apart.2
    -- What takes the place of a line is a line, and it is closed if that line was.
    have replaces := here.replaces declarable
    refine ⟨List.forall_mem_cons.2 ⟨replaces.single (Text.isPiece_of_line genuine.1), single⟩,
      List.pairwise_cons.2 ⟨fun other member => ?_, apart'⟩, enclosable⟩
    exact replaces.closed (last behind member apart.1)
  | @block front rest block blocks body pieces bodies opened between closed here behind ih =>
    simp only [List.forall_mem_cons, List.forall_mem_append] at genuine
    simp only [List.map_cons, List.map_append, List.pairwise_cons, List.pairwise_append] at apart
    obtain ⟨genuineHeader, genuineInside, genuineTerminator, genuineRest⟩ := genuine
    obtain ⟨closedHeader, -, ⟨closedTerminator, apartRest⟩, closedInside⟩ := apart
    obtain ⟨single, apart', enclosable⟩ := ih genuineRest apartRest
    -- A body stays between its header and its terminator, whether or not it is written.
    have encloses : Enclosable body :=
      here.enclosable declarable genuineInside between
        (fun line member => closedInside _ (List.mem_map_of_mem member) block.terminator.piece
          (List.mem_cons_self ..)) drafted
    refine ⟨List.forall_mem_cons.2 ⟨Text.isPiece_of_line genuineHeader, List.forall_mem_append.2
        ⟨fun piece => Text.isPiece_of_mem_pieces,
          List.forall_mem_cons.2 ⟨Text.isPiece_of_line genuineTerminator, single⟩⟩⟩,
      List.pairwise_cons.2 ⟨fun _ _ => ?_, List.pairwise_append.2 ⟨Text.pieces_pairwise _,
        List.pairwise_cons.2 ⟨fun other member => last behind member closedTerminator, apart'⟩,
        fun piece member _ _ => encloses.closed piece member⟩⟩,
      List.forall_mem_cons.2 ⟨encloses, enclosable⟩⟩
    exact closedHeader block.terminator.piece (by simp)

/-- The lines that a flush leaves declare the methods of the blocks, for every class, with the
bodies that it leaves. -/
theorem PartsBecome.exists_reads {text owner : Text} {rest : List Line} {blocks : List Block}
    {pieces bodies : List Text} (become : PartsBecome fields drafts front rest blocks pieces bodies)
    (genuine : ∀ line ∈ rest, line ∈ Text.lines text) {methods : List Method}
    (declared : List.Forall₂ (Block.Declares owner) blocks methods)
    (enclosable : ∀ body ∈ bodies, Enclosable body) (other : Text) :
    ∃ fields' methods', Reads other pieces fields' methods' ∧
      methods'.map Method.signature = methods.map Method.signature ∧
      methods'.map Method.body = bodies := by
  -- Headers and terminators stay, and no other line becomes one.
  induction become generalizing methods with
  | done =>
    cases declared
    exact ⟨[], [], .done, rfl, rfl⟩
  | @outside front rest line blocks piece pieces bodies noBracket here _ ih =>
    rw [List.forall_mem_cons] at genuine
    obtain ⟨fields', methods', reads, signatures, bodies'⟩ := ih genuine.2 declared enclosable
    -- No line outside the methods becomes a bracket.
    have silent := Bool.or_eq_false_iff.1 noBracket
    rw [Line.opensMethod_eq genuine.1, Line.closesMethod_eq genuine.1,
      ← (here.replaces declarable).tells_eq (by decide),
      ← (here.replaces declarable).tells_eq (by decide)] at silent
    obtain ⟨fields', reads'⟩ := reads.exists_cons silent.1 silent.2
    exact ⟨fields', methods', reads', signatures, bodies'⟩
  | @block front rest block blocks body pieces bodies opened between closed _ _ ih =>
    simp only [List.forall_mem_cons, List.forall_mem_append] at genuine
    rw [List.forall_mem_cons] at enclosable
    cases declared with
    | @cons _ method _ methods declares declared =>
      obtain ⟨fields', methods', reads, signatures, bodies'⟩ :=
        ih genuine.2.2.2 declared enclosable.2
      rw [Line.opensMethod_eq genuine.1] at opened
      rw [Line.closesMethod_eq genuine.2.2.1] at closed
      -- A header is read in the same way for any class and any body.
      have parsed : Method.parse other (Text.trim block.header.piece)
          (Text.pieces body).flatten = .ok { method with owner := other, body := body } := by
        rw [Text.flatten_pieces, ← Line.trimmed_eq genuine.1, parse_method_trimmed]
        exact Method.parse_elsewhere declares other body
      exact ⟨fields', _, .method opened enclosable.1.between closed parsed reads,
        congrArg (method.signature :: ·) signatures, congrArg (body :: ·) bodies'⟩

end Becomes

/-- Some lines, in a method or outside, without some of the bodies that begin there. -/
def linesWithout : List Bool → Bool → List Line → List Line
  -- It is told for each method in order whether the body goes, and for the present one.
  | _, _, [] => []
  | emptied, gone, line :: rest =>
    if line.opensWith ".method".toList then
      line :: linesWithout emptied.tail (emptied.headD false) rest
    else if line.opensWith ".end method".toList then line :: linesWithout emptied false rest
    else if gone then linesWithout emptied gone rest
    else line :: linesWithout emptied gone rest

/-- The lines of a body go or stay all together. -/
theorem linesWithout_append (emptied : List Bool) (gone : Bool) {inside : List Line}
    (between : ∀ line ∈ inside, line.isBracket = false) (rest : List Line) :
    linesWithout emptied gone (inside ++ rest) =
      (if gone then [] else inside) ++ linesWithout emptied gone rest := by
  -- None of them begins or ends a method.
  induction inside with
  | nil => simp
  | cons line inside ih =>
    rw [List.forall_mem_cons] at between
    obtain ⟨opens, closes⟩ := Bool.or_eq_false_iff.1 between.1
    rw [List.cons_append, linesWithout, if_neg (ne_true_of_eq_false opens),
      if_neg (ne_true_of_eq_false closes), ih between.2]
    cases gone <;> rfl

/-- A block keeps its header and its terminator. -/
theorem linesWithout_block (emptied : List Bool) {block : Block}
    (opened : block.header.opensWith ".method".toList)
    (between : ∀ line ∈ block.inside, line.isBracket = false)
    (closed : block.terminator.opensWith ".end method".toList) (rest : List Line) :
    linesWithout emptied false (block.header :: (block.inside ++ block.terminator :: rest)) =
      (block.header :: ((if emptied.headD false then [] else block.inside) ++
        [block.terminator])) ++ linesWithout emptied.tail false rest := by
  -- Only the lines between them may go.
  rw [linesWithout, if_pos opened, linesWithout_append _ _ between, linesWithout,
    if_neg (ne_true_of_eq_false (opensMethod_of_closes closed)), if_pos closed]
  simp

/-- What a flush leaves names a class or a superclass as the text without the bodies that it
empties, if every other body names them as before. -/
theorem PartsBecome.firstSaying_eq {text directive : Text} {fields : List Field}
    {drafts : List Draft} {front rest : List Line} {blocks : List Block}
    {pieces bodies : List Text}
    (declarable : ∀ field ∈ fields,
      Declarable field.declaration ∧ Declarable field.declarationText)
    (become : PartsBecome fields drafts front rest blocks pieces bodies)
    (genuine : ∀ line ∈ rest, line ∈ Text.lines text) (member : directive ∈ headDirectives)
    {emptied : List Bool}
    (heads : List.Forall₂ (fun (pair : Block × Text) gone =>
      firstSaying directive (Text.pieces pair.2) =
        firstSaying directive (if gone then [] else pair.1.inside.map Line.piece))
      (blocks.zip bodies) emptied) :
    firstSaying directive pieces =
      firstSaying directive ((linesWithout emptied false rest).map Line.piece) := by
  -- The parts are taken one by one.
  induction become generalizing emptied with
  | done => rfl
  | @outside front rest line blocks piece pieces bodies noBracket here _ ih =>
    rw [List.forall_mem_cons] at genuine
    -- A declaration names no class, neither before nor after it is written.
    have first : firstSaying directive [piece] = firstSaying directive [line.piece] :=
      Replaces.firstSaying_eq (.cons (here.replaces declarable) .nil)
        ((by decide : headDirectives ⊆ Method.structuralDirectives) member)
    have single : ∀ other ∈ [line], other.isBracket = false :=
      List.forall_mem_singleton.2 noBracket
    have lines : linesWithout emptied false (line :: rest) =
        [line] ++ linesWithout emptied false rest :=
      linesWithout_append emptied false single rest
    rw [← List.singleton_append, Segment.firstSaying_append, first, ih genuine.2 heads, lines,
      List.map_append, List.map_singleton, Segment.firstSaying_append]
  | @block front rest block blocks body pieces bodies opened between closed _ _ ih =>
    simp only [List.forall_mem_cons, List.forall_mem_append] at genuine
    cases heads with
    | @cons _ gone _ emptied here heads =>
      have opened' := opened
      have closed' := closed
      rw [Line.opensMethod_eq genuine.1] at opened'
      rw [Line.closesMethod_eq genuine.2.2.1] at closed'
      -- Of a block only the body can name a class, because its ends say something else.
      have parts : block.header.piece :: (Text.pieces body ++ block.terminator.piece :: pieces) =
          block.header.piece :: (Text.pieces body ++ [block.terminator.piece]) ++ pieces := by
        simp
      rw [parts, Segment.firstSaying_append, Segment.firstSaying_method opened' closed' member,
        ih genuine.2.2.2 heads, here, linesWithout_block _ opened between closed,
        List.map_append, Segment.firstSaying_append, List.map_cons, List.map_append,
        List.map_singleton, Segment.firstSaying_method opened' closed' member]
      cases gone <;> rfl

end Smali.ClassText
