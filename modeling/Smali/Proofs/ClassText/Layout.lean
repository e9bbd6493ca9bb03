import Smali.Proofs.ClassText.Coherence
import Smali.Proofs.Method.Assignments

/-! The layout of a class text is what stays when its declarations and its bodies are written
again. -/

namespace Smali

/-- A flush leaves the declaration that it writes, or the one that was there. -/
theorem Field.declaration_flushed (field : Field) : field.flushed.declaration =
    if field.rewritesDeclaration then field.declarationText else field.declaration := by
  -- A field without changes is not written.
  by_cases dirty : field.dirty
  · by_cases rewrites : field.rewritesDeclaration <;>
      simp [Field.flushed, dirty, rewrites, settled]
  · have kept : field.rewritesDeclaration = false := by simp [Field.rewritesDeclaration, dirty]
    simp [Field.flushed, dirty, kept]

namespace ClassText

/-- One stretch of a class text. -/
inductive Stretch where
  /-- A line that declares no member. -/
  | line (piece : Text)
  /-- What stands on a line around the declaration of a field. -/
  | field (lead tail : Text)
  /-- The lines around the body of a method. -/
  | method (header terminator : Text)

/-- The lines of a layout that is filled with declarations and bodies, each kind in order. -/
def filled : List Stretch → List Text → List Text → List Text
  -- A declaration joins the blanks around it, and a body has lines of its own.
  | [], _, _ => []
  | .line piece :: rest, declarations, bodies => piece :: filled rest declarations bodies
  | .field lead tail :: rest, declarations, bodies =>
    (lead ++ declarations.headD [] ++ tail) :: filled rest declarations.tail bodies
  | .method header terminator :: rest, declarations, bodies =>
    header :: (Text.pieces (bodies.headD []) ++
      terminator :: filled rest declarations bodies.tail)

/-- A text may stand between the header and the terminator of a method. -/
structure Enclosable (body : Text) : Prop where
  /-- All lines are closed. -/
  closed : ∀ piece ∈ Text.pieces body, Text.Closed piece
  /-- No line opens or closes a method. -/
  between : Inside (Text.pieces body)

/-- A body may stand in a method if its lines are closed and clear of both directives of methods. -/
theorem enclosable_iff {body : Text} : Enclosable body ↔
    Method.ClearOf [".method".toList, ".end method".toList] body := by
  -- Both say the same line by line.
  constructor
  · intro enclosable piece member
    refine ⟨enclosable.closed piece member, ?_⟩
    simpa using enclosable.between piece member
  · intro clear
    refine ⟨fun piece member => (clear piece member).1, fun piece member => ?_⟩
    simpa using (clear piece member).2

/-- A body may stand in a class text without some of its lines. -/
theorem Enclosable.cleared {body : Text} (enclosable : Enclosable body) (references : List Text) :
    Enclosable (Method.cleared references body) := by
  -- The lines that are left were there before.
  have part : ∀ piece ∈ Text.pieces (Method.cleared references body),
      piece ∈ Text.pieces body := by
    intro piece member
    rw [Method.pieces_cleared] at member
    exact List.mem_of_mem_filter member
  exact ⟨fun piece member => enclosable.closed piece (part piece member),
    fun piece member => enclosable.between piece (part piece member)⟩

/-- A layout is filled with declarations, and with bodies for methods with given signatures. -/
inductive Fits : List Stretch → List Text → List Text → List Text → Prop where
  /-- Nothing is filled into nothing. -/
  | done : Fits [] [] [] []
  /-- A line that opens no method takes nothing. -/
  | line {piece : Text} {rest : List Stretch} {declarations signatures bodies : List Text}
      (single : Text.IsPiece piece) (silent : Text.tells ".method".toList piece = false)
      (apart : rest = [] ∨ Text.Closed piece) (others : Fits rest declarations signatures bodies) :
      Fits (.line piece :: rest) declarations signatures bodies
  /-- Blanks take the declaration between them. -/
  | field {lead tail declaration : Text} {rest : List Stretch}
      {declarations signatures bodies : List Text} (blankLead : ∀ c ∈ lead, Text.isBlank c)
      (blankTail : ∀ c ∈ tail, Text.isBlank c) (declarable : Declarable declaration)
      (single : Text.IsPiece (lead ++ declaration ++ tail))
      (apart : rest = [] ∨ Text.Closed (lead ++ declaration ++ tail))
      (others : Fits rest declarations signatures bodies) :
      Fits (.field lead tail :: rest) (declaration :: declarations) signatures bodies
  /-- A header and a terminator take the body between them. -/
  | method {header terminator signature body : Text} {rest : List Stretch}
      {declarations signatures bodies : List Text} (named : HeaderOf signature header)
      (single : Text.IsPiece header) (single' : Text.IsPiece terminator)
      (closed : Text.Closed header) (closes : Text.tells ".end method".toList terminator)
      (enclosable : Enclosable body) (apart : rest = [] ∨ Text.Closed terminator)
      (others : Fits rest declarations signatures bodies) :
      Fits (.method header terminator :: rest) declarations (signature :: signatures)
        (body :: bodies)

namespace Fits

variable {layout : List Stretch} {declarations signatures bodies : List Text}

/-- Filling a layout gives single lines, of which only the last may lack its line feed. -/
theorem pairwise_filled (fits : Fits layout declarations signatures bodies) :
    (∀ piece ∈ filled layout declarations bodies, Text.IsPiece piece) ∧
      (filled layout declarations bodies).Pairwise fun piece _ => Text.Closed piece := by
  -- Lines with a stretch behind them are closed.
  have empty {rest : List Stretch} {others : List Text} (last : rest = []) (bodies : List Text) :
      filled rest others bodies = [] := by
    rw [last]
    rfl
  induction fits with
  | done => exact ⟨by simp [filled], .nil⟩
  | line single silent apart others ih =>
    refine ⟨List.forall_mem_cons.2 ⟨single, ih.1⟩, List.pairwise_cons.2 ⟨fun other member => ?_,
      ih.2⟩⟩
    -- A line with others behind it is closed.
    rcases apart with last | closed
    · rw [empty last] at member
      cases member
    · exact closed
  | field blankLead blankTail declarable single apart others ih =>
    refine ⟨List.forall_mem_cons.2 ⟨single, ih.1⟩, List.pairwise_cons.2 ⟨fun other member => ?_,
      ih.2⟩⟩
    rcases apart with last | closed
    · rw [List.tail_cons, empty last] at member
      cases member
    · exact closed
  | @method header terminator signature body rest declarations signatures bodies named single
      single' closed closes enclosable apart others ih =>
    -- The header and the lines of the body are closed because a terminator follows them.
    refine ⟨List.forall_mem_cons.2 ⟨single, List.forall_mem_append.2
      ⟨fun piece => Text.isPiece_of_mem_pieces, List.forall_mem_cons.2 ⟨single', ih.1⟩⟩⟩,
      List.pairwise_cons.2 ⟨fun _ _ => closed, List.pairwise_append.2
        ⟨Text.pieces_pairwise _, List.pairwise_cons.2 ⟨fun other member => ?_, ih.2⟩,
          fun piece member _ _ => enclosable.closed piece member⟩⟩⟩
    rcases apart with last | closed
    · rw [List.tail_cons, empty last] at member
      cases member
    · exact closed

/-- The lines of a filled layout are the pieces of the text that they make up. -/
theorem pieces_filled (fits : Fits layout declarations signatures bodies) :
    Text.pieces (filled layout declarations bodies).flatten =
      filled layout declarations bodies :=
  -- They are kept apart.
  Text.pieces_flatten fits.pairwise_filled.1 fits.pairwise_filled.2

/-- Other declarations and other bodies may be filled in. -/
theorem refill (fits : Fits layout declarations signatures bodies)
    {declarations' bodies' : List Text}
    (declarable : ∀ declaration ∈ declarations', Declarable declaration)
    (enclosable : ∀ body ∈ bodies', Enclosable body)
    (same : declarations'.length = declarations.length)
    (same' : bodies'.length = bodies.length) :
    Fits layout declarations' signatures bodies' := by
  -- Blanks, headers and terminators stay.
  induction fits generalizing declarations' bodies' with
  | done =>
    rw [List.eq_nil_of_length_eq_zero same, List.eq_nil_of_length_eq_zero same']
    exact .done
  | line single silent apart others ih =>
    exact .line single silent apart (ih declarable enclosable same same')
  | @field lead tail declaration rest _ _ _ blankLead blankTail old single apart others ih =>
    obtain ⟨first, more, rfl⟩ := List.exists_cons_of_length_eq_add_one same
    rw [List.forall_mem_cons] at declarable
    refine .field blankLead blankTail declarable.1
      (single.replace old.ne_nil declarable.1.ne_nil declarable.1.single) ?_
      (ih declarable.2 enclosable (Nat.succ.inj same) same')
    exact apart.imp_right fun closed => closed.replace old.ne_nil old.single first
  | method named single single' closed closes old apart others ih =>
    obtain ⟨first, more, rfl⟩ := List.exists_cons_of_length_eq_add_one same'
    rw [List.forall_mem_cons] at enclosable
    exact .method named single single' closed closes enclosable.1 apart
      (ih declarable enclosable.2 same (Nat.succ.inj same'))

/-- Each signature has its body. -/
theorem length_bodies (fits : Fits layout declarations signatures bodies) :
    bodies.length = signatures.length := by
  -- Both are taken for each method.
  induction fits with
  | done => rfl
  | line _ _ _ _ ih | field _ _ _ _ _ _ ih => exact ih
  | method _ _ _ _ _ _ _ _ ih => exact congrArg Nat.succ ih

/-- All declarations that are filled in may stand on lines. -/
theorem declarable (fits : Fits layout declarations signatures bodies) :
    ∀ declaration ∈ declarations, Declarable declaration := by
  -- Each was looked at when it was filled in.
  induction fits with
  | done => simp
  | line _ _ _ _ ih => exact ih
  | field _ _ declarable _ _ _ ih => exact List.forall_mem_cons.2 ⟨declarable, ih⟩
  | method _ _ _ _ _ _ _ _ ih => exact ih

/-- All bodies that are filled in may stand between headers and terminators. -/
theorem enclosable (fits : Fits layout declarations signatures bodies) :
    ∀ body ∈ bodies, Enclosable body := by
  -- Each was looked at when it was filled in.
  induction fits with
  | done => simp
  | line _ _ _ _ ih => exact ih
  | field _ _ _ _ _ _ ih => exact ih
  | method _ _ _ _ _ enclosable _ _ ih => exact List.forall_mem_cons.2 ⟨enclosable, ih⟩

/-- A declaration that is filled in stands on a line. -/
theorem exists_said (fits : Fits layout declarations signatures bodies) {declaration : Text}
    (member : declaration ∈ declarations) :
    ∃ piece ∈ filled layout declarations bodies, Text.trim piece = declaration := by
  -- Blanks are around it.
  induction fits with
  | done => cases member
  | line _ _ _ _ ih =>
    obtain ⟨piece, inside, said⟩ := ih member
    exact ⟨piece, List.mem_cons_of_mem _ inside, said⟩
  | field blankLead blankTail declarable _ _ _ ih =>
    rcases List.mem_cons.1 member with rfl | member
    · exact ⟨_, List.mem_cons_self .., by
        rw [List.headD_cons, Text.trim_append blankLead blankTail, declarable.trimmed]⟩
    · obtain ⟨piece, inside, said⟩ := ih member
      exact ⟨piece, List.mem_cons_of_mem _ inside, said⟩
  | method _ _ _ _ _ _ _ _ ih =>
    obtain ⟨piece, inside, said⟩ := ih member
    exact ⟨piece, by simp [filled, inside], said⟩

end Fits

/-- What a text says is said by a part of the layout that is always there, by a declaration or by a
body. -/
theorem exists_count (layout : List Stretch) (said : Text) : ∃ around,
    ∀ {declarations signatures bodies : List Text}, Fits layout declarations signatures bodies →
      (filled layout declarations bodies).countP (fun piece => Text.trim piece == said) =
        around + declarations.count said +
          (bodies.flatMap Text.pieces).countP fun piece => Text.trim piece == said := by
  -- The stretches are counted one behind the other.
  induction layout with
  | nil =>
    refine ⟨0, fun fits => ?_⟩
    cases fits
    rfl
  | cons first rest ih =>
    obtain ⟨around, counted⟩ := ih
    -- Whatever a stretch is filled with, its own lines are counted once and for all.
    cases first with
    | line piece =>
      refine ⟨around + [piece].countP (fun piece => Text.trim piece == said), fun fits => ?_⟩
      cases fits with
      | line _ _ _ others =>
        rw [filled, List.countP_cons, counted others, List.countP_singleton]
        omega
    | field lead tail =>
      refine ⟨around, fun fits => ?_⟩
      cases fits with
      | field blankLead blankTail declarable _ _ others =>
        rw [filled, List.headD_cons, List.tail_cons, List.countP_cons, counted others,
          List.count_cons, Text.trim_append blankLead blankTail, declarable.trimmed]
        omega
    | method header terminator =>
      refine ⟨around + [header, terminator].countP (fun piece => Text.trim piece == said),
        fun fits => ?_⟩
      cases fits with
      | method _ _ _ _ _ _ _ others =>
        rw [filled, List.headD_cons, List.tail_cons, List.countP_cons, List.countP_append,
          List.countP_cons, counted others, List.flatMap_cons, List.countP_append,
          List.countP_cons, List.countP_singleton]
        omega

/-- A stretch has a line. -/
theorem filled_ne_nil {layout : List Stretch} (nonempty : layout ≠ [])
    (declarations bodies : List Text) : filled layout declarations bodies ≠ [] := by
  -- Each kind of stretch has one.
  cases layout with
  | nil => exact absurd rfl nonempty
  | cons first rest => cases first <;> simp [filled]

/-- A line with other lines behind it is closed. -/
theorem closed_or_last {layout : List Stretch} {piece : Text}
    {declarations bodies rest : List Text} (same : filled layout declarations bodies = rest)
    (apart : ∀ other ∈ rest, Text.Closed piece) : layout = [] ∨ Text.Closed piece := by
  -- Further stretches have lines.
  by_cases last : layout = []
  · exact .inl last
  · obtain ⟨other, member⟩ := List.exists_mem_of_ne_nil _ (filled_ne_nil last declarations bodies)
    exact .inr (apart other (same ▸ member))

/-- Lines that are read are a layout that is filled with the declarations and the bodies of the
members. -/
theorem Reads.exists_layout {owner : Text} {pieces : List Text} {fields : List Field}
    {methods : List Method} (reads : Reads owner pieces fields methods)
    (single : ∀ piece ∈ pieces, Text.IsPiece piece)
    (apart : pieces.Pairwise fun piece _ => Text.Closed piece) :
    ∃ layout, filled layout (fields.map Field.declaration) (methods.map Method.body) = pieces ∧
      Fits layout (fields.map Field.declaration) (methods.map Method.signature)
        (methods.map Method.body) := by
  -- Each line or block of lines that is read is one stretch.
  induction reads with
  | done => exact ⟨[], rfl, .done⟩
  | @plain piece rest fields methods noHeader noTerminator noField others ih =>
    -- A line that declares nothing is a stretch that is filled with nothing.
    rw [List.forall_mem_cons] at single
    rw [List.pairwise_cons] at apart
    obtain ⟨layout, same, fits⟩ := ih single.2 apart.2
    exact ⟨.line piece :: layout, congrArg (piece :: ·) same,
      .line single.1 noHeader (closed_or_last same apart.1) fits⟩
  | @field piece field rest fields methods said parsed others ih =>
    rw [List.forall_mem_cons] at single
    rw [List.pairwise_cons] at apart
    obtain ⟨layout, same, fits⟩ := ih single.2 apart.2
    -- The declaration is what its line says between the blanks.
    obtain ⟨lead, tail, blankLead, blankTail, parts⟩ := Text.exists_trim piece
    have declaration : field.declaration = Text.trim piece :=
      (Field.declaration_of_parse parsed).trans (Text.trim_trim piece)
    rw [← declaration] at parts
    have declarable : Declarable field.declaration := declaration ▸ declarable_trim said single.1
    refine ⟨.field lead tail :: layout, ?_, .field blankLead blankTail declarable
      (parts ▸ single.1) (parts ▸ closed_or_last same apart.1) fits⟩
    rw [List.map_cons, filled, List.headD_cons, List.tail_cons, same, ← parts]
  | @method header terminator inside rest method fields methods opened between closes parsed others
      ih =>
    simp only [List.forall_mem_cons, List.forall_mem_append] at single
    simp only [List.pairwise_cons, List.pairwise_append] at apart
    obtain ⟨singleHeader, singleInside, singleTerminator, singleRest⟩ := single
    obtain ⟨closedHeader, apartInside, ⟨closedTerminator, apartRest⟩, closedInside⟩ := apart
    obtain ⟨layout, same, fits⟩ := ih singleRest apartRest
    obtain ⟨-, -, -, body, -⟩ := Method.exists_of_parse parsed
    -- The lines between header and terminator are those of the body.
    have pieces : Text.pieces method.body = inside := by
      rw [body]
      exact Text.pieces_flatten singleInside apartInside
    have named := headerOf_of_parse opened parsed
    have enclosable : Enclosable method.body := by
      constructor <;> rw [pieces]
      · exact fun piece member => closedInside piece member terminator (by simp)
      · exact between
    refine ⟨.method header terminator :: layout, ?_,
      .method named singleHeader singleTerminator (closedHeader terminator (by simp)) closes
        enclosable (closed_or_last same closedTerminator) fits⟩
    rw [List.map_cons, filled, List.headD_cons, List.tail_cons, same, pieces]

/-- The body that a flush leaves between the lines of a method. -/
def Draft.leaves (draft : Draft) (body : Text) : Text :=
  -- A body that is not written stays.
  if draft.isWritten then draft.body else body

/-- A flush leaves the drafted body where the body of the method stands. -/
theorem Draft.leaves_body (draft : Draft) : draft.leaves draft.method.body = draft.body := by
  -- A body that is not written is that of the method.
  unfold leaves
  split
  · rfl
  · next unwritten => exact (body_unwritten (by simpa using unwritten)).symm

/-- Changes of fields leave a body that may stand in a method. -/
theorem Draft.Run.enclosable {fields : List Field} {draft last : Draft}
    (run : Run fields draft last)
    (open' : ∀ field ∈ fields, ∀ values, field.pending = .composite values → '\n' ∉ field.reference)
    (enclosable : Enclosable draft.body) : Enclosable last.body := by
  -- No step brings in a directive of methods.
  refine run.induct (fun next => Enclosable next.body) enclosable ?_
  intro field member draft next step before
  have structural : [".method".toList, ".end method".toList] ⊆ Method.structuralDirectives := by
    decide
  cases step with
  | same => exact before
  | built pending initializer injected =>
    exact enclosable_iff.2
      ((enclosable_iff.1 before).inject structural (open' field member _ pending) injected)
  | stripped pending removed =>
    exact enclosable_iff.2 ((enclosable_iff.1 before).withoutAssignments removed)

/-- The line of a declaration is cut around it, if it is written again. -/
theorem cutting_field {text lead tail : Text} {before behind : List Text} {field : Field}
    (split : Text.pieces text = before ++ (lead ++ field.declaration ++ tail) :: behind)
    (blankLead : ∀ c ∈ lead, Text.isBlank c) (blankTail : ∀ c ∈ tail, Text.isBlank c)
    (declarable : Declarable field.declaration)
    (once : field.rewritesDeclaration →
      (Text.lines text).countP (fun line => line.trimmed == field.declaration) = 1) :
    Nonempty (Cutting text before [lead ++ field.declaration ++ tail] [field] []
      (lead ++ field.flushed.declaration ++ tail)) := by
  -- Otherwise the line is kept.
  rw [Field.declaration_flushed]
  by_cases rewrites : field.rewritesDeclaration
  · rw [if_pos rewrites]
    refine Cutting.declaration split blankLead blankTail declarable.trimmed declarable.ne_nil
      (first_of_once split ?_ (once rewrites)) rewrites
    rw [Text.trim_append blankLead blankTail, declarable.trimmed]
  · have kept : Nonempty (Cutting text before [lead ++ field.declaration ++ tail] [field] []
        [lead ++ field.declaration ++ tail].flatten) :=
      Cutting.kept (by simp [rewrites]) rfl
    rw [List.flatten_singleton] at kept
    rwa [if_neg rewrites]

/-- The lines of a method are cut around its body, if it is written. -/
theorem cutting_method {text header terminator body : Text} {before behind : List Text}
    {draft : Draft}
    (split : Text.pieces text = before ++ header :: (Text.pieces body ++ terminator :: behind))
    (named : HeaderOf draft.method.signature header) (between : Inside (Text.pieces body))
    (closes : Text.tells ".end method".toList terminator)
    (first : ∀ piece ∈ before, HeaderOf draft.method.signature piece = false) :
    Nonempty (Cutting text before (header :: (Text.pieces body ++ [terminator])) [] [draft]
      (header ++ draft.leaves body ++ terminator)) := by
  -- Otherwise the lines are kept.
  rw [Draft.leaves]
  by_cases written : draft.isWritten
  · rw [if_pos written]
    exact Cutting.body split named between closes first written
  · have lines : header ++ body ++ terminator =
        (header :: (Text.pieces body ++ [terminator])).flatten := by
      simp [Text.flatten_pieces]
    rw [if_neg written, lines]
    exact Cutting.kept rfl (by simp [written])

namespace Fits

variable {layout : List Stretch} {declarations signatures bodies : List Text}

/-- The lines of a filled layout are cut by the edits of a flush, and what takes their place is the
layout filled with the new declarations and the new bodies. -/
theorem exists_cutting (fits : Fits layout declarations signatures bodies) {text : Text}
    {before : List Text} {fields : List Field} {drafts : List Draft}
    (declared : fields.map Field.declaration = declarations)
    (signed : drafts.map (fun draft => draft.method.signature) = signatures)
    (split : Text.pieces text = before ++ filled layout declarations bodies)
    (once : ∀ field ∈ fields, field.rewritesDeclaration →
      (Text.lines text).countP (fun line => line.trimmed == field.declaration) = 1)
    (distinct : signatures.Nodup)
    (first : ∀ piece ∈ before, ∀ signature ∈ signatures, HeaderOf signature piece = false) :
    Nonempty (Cutting text before (filled layout declarations bodies) fields drafts
      (filled layout (fields.map fun field => field.flushed.declaration)
        (List.zipWith Draft.leaves drafts bodies)).flatten) := by
  -- The stretches are taken one behind the other.
  induction fits generalizing before fields drafts with
  | done =>
    rw [List.map_eq_nil_iff] at declared signed
    subst declared signed
    exact Cutting.kept rfl rfl
  | @line piece rest declarations signatures bodies single silent apart others ih =>
    obtain ⟨here⟩ : Nonempty (Cutting text before [piece] [] [] [piece].flatten) :=
      Cutting.kept rfl rfl
    -- A line that opens no method is the header of none.
    have first' : ∀ piece' ∈ before ++ [piece], ∀ signature ∈ signatures,
        HeaderOf signature piece' = false :=
      List.forall_mem_append.2 ⟨first, List.forall_mem_singleton.2 fun signature _ =>
        headerOf_of_silent silent signature⟩
    obtain ⟨later⟩ := ih declared signed (by simp [split, filled]) once distinct first'
    have whole := here.append later
    simpa only [filled, List.singleton_append, List.nil_append, List.flatten_cons,
      List.flatten_nil, List.append_nil] using whole
  | @field lead tail declaration rest declarations signatures bodies blankLead blankTail declarable
      single apart others ih =>
    obtain ⟨field, fields, rfl, rfl, rfl⟩ := List.map_eq_cons_iff.1 declared
    obtain ⟨cutting⟩ := cutting_field split blankLead blankTail declarable
      (once field (List.mem_cons_self ..))
    -- Nor does the line of a declaration open one.
    have said : Text.tells ".field".toList (lead ++ field.declaration ++ tail) := by
      rw [Text.tells, Text.trim_append blankLead blankTail, declarable.trimmed]
      exact declarable.opens
    have first' : ∀ piece' ∈ before ++ [lead ++ field.declaration ++ tail],
        ∀ signature ∈ signatures, HeaderOf signature piece' = false :=
      List.forall_mem_append.2 ⟨first, List.forall_mem_singleton.2 fun signature _ =>
        headerOf_of_tells said (by decide) signature⟩
    obtain ⟨later⟩ := ih rfl signed (by simp [split, filled])
      (fun other member => once other (by simp [member])) distinct first'
    have whole := cutting.append later
    simpa only [filled, List.singleton_append, List.nil_append, List.flatten_cons, List.map_cons,
      List.headD_cons, List.tail_cons] using whole
  | @method header terminator signature body rest declarations signatures bodies named single
      single' closed closes enclosable apart others ih =>
    obtain ⟨draft, drafts, rfl, rfl, rfl⟩ := List.map_eq_cons_iff.1 signed
    have split' : Text.pieces text = before ++ header :: (Text.pieces body ++
        terminator :: filled rest declarations bodies) := split
    obtain ⟨cutting⟩ := cutting_method split' named enclosable.between closes
      fun piece member => first piece member _ (List.mem_cons_self ..)
    -- The header names no other method, since no signature is there twice.
    rw [List.nodup_cons] at distinct
    obtain ⟨later⟩ := ih declared rfl (by simp [split', List.append_assoc]) once distinct.2
      (List.forall_mem_append.2 ⟨fun piece member signature listed =>
        first piece member signature (List.mem_cons_of_mem _ listed),
        fun piece member signature listed => headerOf_other named enclosable.between closes
          (fun same => distinct.1 (same ▸ listed)) piece member⟩)
    have whole := cutting.append later
    simpa [filled, Text.flatten_pieces] using whole

end Fits

end ClassText

end Smali
