import Smali.Proofs.ClassText.Rereading

/-! A flush leaves each body in its method if nothing that it writes is found earlier. -/

namespace Smali.ClassText

/-- What follows some lines stands in a method. -/
def standsInside (front : List Line) : Bool :=
  -- The last line that opens or closes a method opens one.
  (front.reverse.find? Line.isBracket).any fun line => line.opensWith ".method".toList

/-- A line that opens a method brings what follows into it. -/
theorem standsInside_header (front : List Line) {header : Line}
    (opened : header.opensWith ".method".toList) : standsInside (front ++ [header]) = true := by
  -- It is the last bracket.
  have bracket : header.isBracket := Bool.or_eq_true_iff.2 (.inl opened)
  rw [standsInside, List.reverse_append, List.reverse_singleton, List.singleton_append,
    List.find?_cons_of_pos bracket]
  exact opened

/-- A line that closes a method leaves what follows outside. -/
theorem standsInside_terminator (front : List Line) {terminator : Line}
    (closed : terminator.opensWith ".end method".toList) :
    standsInside (front ++ [terminator]) = false := by
  -- It is the last bracket.
  have bracket : terminator.isBracket := Bool.or_eq_true_iff.2 (.inr closed)
  rw [standsInside, List.reverse_append, List.reverse_singleton, List.singleton_append,
    List.find?_cons_of_pos bracket]
  exact opensMethod_of_closes closed

/-- Any other line leaves what follows where it is. -/
theorem standsInside_other (front : List Line) {line : Line} (noBracket : line.isBracket = false) :
    standsInside (front ++ [line]) = standsInside front := by
  -- The last bracket stays.
  simp [standsInside, noBracket]

/-- No declaration that is first said in a method, on some lines that stand behind others, changes
when it is written. -/
def Spared (fields : List Field) (front lines : List Line) : Prop :=
  -- A flush would change the body.
  ∀ before line behind, lines = before ++ line :: behind → standsInside (front ++ before) →
    ∀ field ∈ fieldsIn fields (front ++ before) [line], field.declarationText = field.declaration

section Spared

variable {fields : List Field} {front : List Line}

/-- The lines may be taken one by one. -/
theorem spared_cons {line : Line} {rest : List Line} : Spared fields front (line :: rest) ↔
    (standsInside front → ∀ field ∈ fieldsIn fields front [line],
      field.declarationText = field.declaration) ∧ Spared fields (front ++ [line]) rest := by
  -- A place on them is the first line or behind it.
  constructor
  · intro spared
    have first := spared [] line rest rfl
    rw [List.append_nil] at first
    refine ⟨first, fun before other behind split => ?_⟩
    have later := spared (line :: before) other behind (by rw [split, List.cons_append])
    rwa [List.append_cons] at later
  · rintro ⟨first, others⟩ before other behind split
    cases before with
    | nil =>
      obtain ⟨rfl, rfl⟩ := List.cons.inj split
      rw [List.append_nil]
      exact first
    | cons _ before =>
      obtain ⟨rfl, rfl⟩ := List.cons.inj split
      rw [List.append_cons]
      exact others before other behind rfl

/-- Lines that follow each other may be taken one part after the other. -/
theorem spared_append {lines more : List Line} : Spared fields front (lines ++ more) ↔
    Spared fields front lines ∧ Spared fields (front ++ lines) more := by
  -- The first part is taken line by line.
  induction lines generalizing front with
  | nil => simp [Spared]
  | cons line rest ih =>
    rw [List.cons_append, spared_cons, ih, spared_cons, and_assoc, ← List.append_cons]

/-- A field that is found first on lines that follow each other is found on some of them. -/
theorem mem_fieldsIn_append {lines more : List Line} {field : Field} :
    field ∈ fieldsIn fields front (lines ++ more) ↔
      field ∈ fieldsIn fields front lines ∨ field ∈ fieldsIn fields (front ++ lines) more := by
  -- What is found on both is found on one of them.
  have perm : (fieldsIn fields front (lines ++ more)).Perm
      (fieldsIn fields front lines ++ fieldsIn fields (front ++ lines) more) :=
    filter_firstIn _ fields front lines more
  rw [perm.mem_iff, List.mem_append]

/-- Where no declaration is first said, none changes. -/
theorem spared_of_silent {lines : List Line} (silent : fieldsIn fields front lines = []) :
    Spared fields front lines := by
  -- A declaration on one of the lines would be said first on all of them.
  intro before line behind split _ field member
  have found : field ∈ fieldsIn fields front lines := by
    rw [split, mem_fieldsIn_append, ← List.singleton_append, mem_fieldsIn_append]
    exact .inr (.inl member)
  rw [silent] at found
  cases found

/-- For a block only the lines of its body count. -/
theorem spared_block (declarable : ∀ field ∈ fields, Declarable field.declaration)
    (outside : standsInside front = false) (block : Block)
    (closed : block.terminator.opensWith ".end method".toList) (rest : List Line) :
    Spared fields front (block.header :: (block.inside ++ block.terminator :: rest)) ↔
      Spared fields (front ++ [block.header]) block.inside ∧
        Spared fields (front ++ block.header :: (block.inside ++ [block.terminator])) rest := by
  -- The header stands outside, and the terminator says no declaration.
  have noTerminator := fieldsIn_bracket declarable (front ++ [block.header] ++ block.inside)
    (Bool.or_eq_true_iff.2 (.inr closed))
  have whole : front ++ block.header :: (block.inside ++ [block.terminator]) =
      front ++ [block.header] ++ block.inside ++ [block.terminator] := by simp
  rw [spared_cons, and_iff_right fun inside => absurd inside (by simp [outside]),
    spared_append, spared_cons, noTerminator, whole]
  exact and_congr_right fun _ => and_iff_right fun _ _ member => absurd member List.not_mem_nil

/-- A line stays exactly if no declaration that is first said on it changes. -/
theorem LineBecomes.eq_iff {line : Line} {piece : Text}
    (become : LineBecomes fields front line piece) : piece = line.piece ↔
      ∀ field ∈ fieldsIn fields front [line], field.declarationText = field.declaration := by
  -- Only one declaration can be said on it.
  cases become with
  | kept silent => simp [silent]
  | said only parts _ _ => simp [only, parts]

/-- The lines of a body stay exactly if no declaration that is first said on them changes. -/
theorem LinesBecome.eq_iff {lines : List Line} {pieces : List Text}
    (become : LinesBecome fields front lines pieces) (inside : standsInside front)
    (between : ∀ line ∈ lines, line.isBracket = false) :
    pieces = lines.map Line.piece ↔ Spared fields front lines := by
  -- The lines are taken one by one, and none of them ends the body.
  induction become with
  | done => simp [Spared]
  | @line front rest line piece pieces here _ ih =>
    rw [List.forall_mem_cons] at between
    rw [List.map_cons, List.cons.injEq, here.eq_iff, spared_cons,
      ih ((standsInside_other front between.1).trans inside) between.2]
    simp [inside]

/-- As many lines are left as there were. -/
theorem LinesBecome.length_eq {lines : List Line} {pieces : List Text}
    (become : LinesBecome fields front lines pieces) : pieces.length = lines.length := by
  -- Each line becomes one.
  induction become with
  | done => rfl
  | line _ _ ih => rw [List.length_cons, ih, List.length_cons]

end Spared

/-- The drafts that pass a test have their signatures neither from an earlier draft nor on a header
among some lines. -/
def Firsts (test : Draft → Bool) (front : List Line) (drafts : List Draft) : Prop :=
  -- Each of them is found at its own method.
  (∀ draft ∈ drafts, test draft → ∀ earlier ∈ front,
      isHeaderOf draft.method.signature earlier = false) ∧
    drafts.Pairwise fun draft later => test later → later.method.signature ≠ draft.method.signature

/-- A header has one signature. -/
theorem isHeaderOf_eq_false_iff {signature other : Text} {header : Line}
    (named : isHeaderOf signature header) :
    isHeaderOf other header = false ↔ other ≠ signature := by
  -- It is the last word.
  obtain ⟨opened, last⟩ := Bool.and_eq_true_iff.1 named
  rw [isHeaderOf, opened, Bool.true_and, beq_iff_eq.1 last, beq_eq_false_iff_ne, Ne,
    Option.some.injEq, eq_comm]

section Firsts

variable {test : Draft → Bool} {front : List Line} {drafts : List Draft}

/-- Lines that open no method do not matter for the first headers. -/
theorem firsts_append {lines : List Line}
    (silent : ∀ line ∈ lines, line.opensWith ".method".toList = false) :
    Firsts test (front ++ lines) drafts ↔ Firsts test front drafts := by
  -- None of them is a header.
  have none' (signature : Text) : ∀ line ∈ lines, isHeaderOf signature line = false :=
    fun line member => by rw [isHeaderOf, silent line member, Bool.false_and]
  simp only [Firsts, List.forall_mem_append]
  refine and_congr_left fun _ => ⟨fun first draft member passes => (first draft member passes).1,
    fun first draft member passes => ⟨first draft member passes, none' _⟩⟩

/-- The first draft may be taken with its header. -/
theorem firsts_cons {draft : Draft} {header : Line}
    (named : isHeaderOf draft.method.signature header) : Firsts test front (draft :: drafts) ↔
      (test draft → ∀ earlier ∈ front, isHeaderOf draft.method.signature earlier = false) ∧
        Firsts test (front ++ [header]) drafts := by
  -- A later draft has the signature exactly if the header has its signature.
  simp only [Firsts, List.forall_mem_cons, List.forall_mem_append, List.not_mem_nil, false_implies,
    implies_true, and_true, List.pairwise_cons, isHeaderOf_eq_false_iff named]
  constructor
  · rintro ⟨⟨here, behind⟩, later, others⟩
    exact ⟨here, fun draft member passes => ⟨behind draft member passes, later draft member passes⟩,
      others⟩
  · rintro ⟨here, behind, others⟩
    exact ⟨⟨here, fun draft member passes => (behind draft member passes).1⟩,
      fun draft member passes => (behind draft member passes).2, others⟩

/-- A draft that is written where no header with its signature stands before is the one whose header
comes next, if later ones are found at their own headers. -/
theorem Firsts.eq_of_placed {draft other : Draft} {header : Line}
    (firsts : Firsts Draft.isWritten (front ++ [header]) drafts)
    (named : isHeaderOf draft.method.signature header)
    (placed : other.isWritten ∧ (other ∈ draft :: drafts ∨
      ∃ earlier ∈ front, isHeaderOf other.method.signature earlier))
    (same : other.method.signature = draft.method.signature)
    (clean : ∀ earlier ∈ front, isHeaderOf draft.method.signature earlier = false) :
    other = draft := by
  -- A later draft would not have the signature of this header.
  obtain ⟨written, place | ⟨earlier, inside, named'⟩⟩ := placed
  · rcases List.mem_cons.1 place with equal | place
    · exact equal
    · have unnamed := firsts.1 other place written header (by simp)
      rw [same, named] at unnamed
      cases unnamed
  · rw [same, clean earlier inside] at named'
    cases named'

end Firsts

/-- A block holds the method of a draft. -/
structure Block.Awaits (block : Block) (draft : Draft) : Prop where
  /-- The header has the signature. -/
  named : isHeaderOf draft.method.signature block.header
  /-- A body that is not written is that of the block. -/
  unwritten : draft.isWritten = false → draft.body = block.body
  /-- A body that is written without having been set has lost lines. -/
  shorter : draft.isWritten → draft.method.dirty = false →
    (Text.pieces draft.body).length < block.inside.length

section Bodies

variable {fields : List Field} {drafts : List Draft} {front : List Line}
  (declarable : ∀ field ∈ fields,
    Declarable field.declaration ∧ Declarable field.declarationText)

include declarable

/-- The body that is left in a block is that of its draft exactly if the draft, if it is written,
is found there, and no declaration in the block changes. -/
theorem BodyBecomes.eq_iff {text : Text} {block : Block} {body : Text} {draft : Draft}
    (become : BodyBecomes fields drafts front block body) (awaits : block.Awaits draft)
    (opened : block.header.opensWith ".method".toList)
    (between : ∀ line ∈ block.inside, line.isBracket = false)
    (ends : block.terminator.opensWith ".end method".toList)
    (genuine : ∀ line ∈ block.inside, line ∈ Text.lines text)
    (closed : ∀ line ∈ block.inside, Text.Closed line.piece)
    (own : draft.isWritten → draft ∈ drafts)
    (only : ∀ other ∈ drafts, other.method.signature = draft.method.signature →
      (∀ earlier ∈ front, isHeaderOf draft.method.signature earlier = false) → other = draft)
    (first : draft.method.dirty → ∀ earlier ∈ front,
      isHeaderOf draft.method.signature earlier = false) :
    body = draft.body ↔
      (draft.isWritten → ∀ earlier ∈ front, isHeaderOf draft.method.signature earlier = false) ∧
        Spared fields (front ++ [block.header]) block.inside := by
  -- What is written here is the draft, and a draft that is written elsewhere has lost lines.
  have single : ∀ line ∈ block.inside, Text.IsPiece line.piece :=
    fun line member => Text.isPiece_of_line (genuine line member)
  cases become with
  | @written other found silent =>
    -- A draft that is written here has the signature that the header names.
    have member : other ∈ draftsIn drafts front
        (block.header :: (block.inside ++ [block.terminator])) := by
      rw [found]
      exact List.mem_singleton_self other
    obtain ⟨inside, clean, -⟩ := mem_draftsIn.1 member
    have same : other.method.signature = draft.method.signature := by
      by_contra apart
      have unnamed := (isHeaderOf_eq_false_iff awaits.named).2 apart
      rw [header_of_mem between ends member] at unnamed
      cases unnamed
    rw [same] at clean
    obtain rfl := only other inside same clean
    have spared := spared_of_silent silent
    rw [← List.singleton_append, spared_append, spared_append] at spared
    exact iff_of_true rfl ⟨fun _ => clean, spared.2.1⟩
  | @kept pieces unwritten lines =>
    -- The lines are kept, apart from declarations that are first said in this body.
    obtain ⟨same, -⟩ := lines.pieces_flatten declarable single closed
    by_cases written : draft.isWritten
    -- A draft that is not written here is written behind an earlier header.
    · have elsewhere :
          ¬ ∀ earlier ∈ front, isHeaderOf draft.method.signature earlier = false := by
        intro clean
        have member : draft ∈ draftsIn drafts front
            (block.header :: (block.inside ++ [block.terminator])) :=
          mem_draftsIn.2 ⟨own written, clean, block.header, List.mem_cons_self .., awaits.named⟩
        rw [unwritten] at member
        cases member
      refine iff_of_false (fun equal => ?_) fun both => elsewhere (both.1 written)
      -- Its body was not set, so that lines were removed from it.
      have clean : draft.method.dirty = false := by
        by_contra dirty
        exact elsewhere (first (by simpa using dirty))
      have shorter := awaits.shorter written clean
      rw [← equal, same, lines.length_eq] at shorter
      exact absurd shorter (Nat.lt_irrefl _)
    · -- A draft that is not written at all has the old body.
      have old : Text.pieces (block.inside.map Line.piece).flatten =
          block.inside.map Line.piece :=
        Text.pieces_flatten (List.forall_mem_map.2 single)
          (List.pairwise_of_forall_mem_list fun piece member _ _ =>
            List.forall_mem_map.2 closed piece member)
      rw [awaits.unwritten (by simpa using written), Block.body, List.flatMap_def,
        ← lines.eq_iff (standsInside_header front opened) between,
        and_iff_right fun written' => absurd written' written]
      exact ⟨fun equal => by rw [← same, equal, old], fun equal => by rw [equal]⟩

/-- All bodies that are left are those of the drafts exactly if each draft that is written is found
at its own method, and no declaration in a method changes. -/
theorem PartsBecome.bodies_iff {text : Text} {rest : List Line} {blocks : List Block}
    {pieces bodies : List Text} {list : List Draft}
    (become : PartsBecome fields drafts front rest blocks pieces bodies)
    (outside : standsInside front = false) (genuine : ∀ line ∈ rest, line ∈ Text.lines text)
    (apart : (rest.map Line.piece).Pairwise fun piece _ => Text.Closed piece)
    (awaits : List.Forall₂ Block.Awaits blocks list)
    (own : ∀ draft ∈ list, draft.isWritten → draft ∈ drafts)
    (placed : ∀ draft ∈ drafts, draft.isWritten ∧ (draft ∈ list ∨
      ∃ earlier ∈ front, isHeaderOf draft.method.signature earlier))
    (first : Firsts (fun draft => draft.method.dirty) front list) :
    bodies = list.map Draft.body ↔
      Firsts Draft.isWritten front list ∧ Spared fields front rest := by
  -- The parts are taken one by one, and the drafts with their blocks.
  induction become generalizing list with
  | done =>
    cases awaits
    simp [Firsts, Spared]
  | @outside front rest line blocks piece pieces bodies noBracket here _ ih =>
    rw [List.forall_mem_cons] at genuine
    rw [List.map_cons, List.pairwise_cons] at apart
    -- A line outside all blocks is the header of no draft.
    have silent : ∀ other ∈ [line], other.opensWith ".method".toList = false :=
      List.forall_mem_singleton.2 (Bool.or_eq_false_iff.1 noBracket).1
    have behind := ih ((standsInside_other front noBracket).trans outside) genuine.2 apart.2 awaits
      own (fun draft member => (placed draft member).imp_right fun place =>
        place.imp_right fun ⟨earlier, inside, named⟩ =>
          ⟨earlier, List.mem_append_left _ inside, named⟩) ((firsts_append silent).2 first)
    rw [behind, firsts_append silent, spared_cons,
      and_iff_right fun inside => absurd inside (by simp [outside])]
  | @block front rest block blocks body pieces bodies opened between closed here _ ih =>
    cases awaits with
    | @cons _ draft _ list awaits others =>
      simp only [List.forall_mem_cons, List.forall_mem_append] at genuine
      simp only [List.map_cons, List.map_append, List.pairwise_cons, List.pairwise_append] at apart
      obtain ⟨-, genuineInside, -, genuineRest⟩ := genuine
      obtain ⟨-, -, ⟨-, apartRest⟩, closedInside⟩ := apart
      have silent : ∀ line ∈ block.inside ++ [block.terminator],
          line.opensWith ".method".toList = false :=
        List.forall_mem_append.2 ⟨fun line member =>
          (Bool.or_eq_false_iff.1 (between line member)).1,
          List.forall_mem_singleton.2 (opensMethod_of_closes closed)⟩
      have whole : front ++ block.header :: (block.inside ++ [block.terminator]) =
          (front ++ [block.header]) ++ (block.inside ++ [block.terminator]) := by simp
      obtain ⟨ownFirst, first⟩ := (firsts_cons awaits.named).1 first
      have behind := (standsInside_terminator (front ++ block.header :: block.inside) closed)
      rw [List.append_assoc, List.cons_append] at behind
      -- What holds of the parts behind this block does not look at its lines.
      have later := ih behind genuineRest apartRest others
        (fun draft member => own draft (List.mem_cons_of_mem _ member))
        (fun other member => (placed other member).imp_right fun place => ?_)
        (by rw [whole, firsts_append silent]; exact first)
      -- The draft alone may be written here if those behind it are the first of their signatures.
      · have equal (firsts : Firsts Draft.isWritten (front ++ [block.header]) list) :=
          here.eq_iff declarable awaits opened between closed genuineInside
            (fun line member => closedInside _ (List.mem_map_of_mem member) block.terminator.piece
              (List.mem_cons_self ..)) (own draft (List.mem_cons_self ..))
            (fun other member => firsts.eq_of_placed awaits.named (placed other member)) ownFirst
        have parts := spared_block (fun field member => (declarable field member).1) outside
          block closed rest
        rw [whole, firsts_append silent, ← whole] at later
        rw [List.map_cons, List.cons.injEq, later, firsts_cons awaits.named, parts]
        constructor
        · rintro ⟨same, firsts, spared⟩
          obtain ⟨clean, spared'⟩ := (equal firsts).1 same
          exact ⟨⟨clean, firsts⟩, spared', spared⟩
        · rintro ⟨⟨clean, firsts⟩, spared', spared⟩
          exact ⟨(equal firsts).2 ⟨clean, spared'⟩, firsts, spared⟩
      -- A draft with an earlier header is one of those before it or that of this block.
      · rcases place with inside | ⟨earlier, inside, named⟩
        · rcases List.mem_cons.1 inside with rfl | inside
          · exact .inr ⟨block.header, by simp, awaits.named⟩
          · exact .inl inside
        · exact .inr ⟨earlier, List.mem_append_left _ inside, named⟩

end Bodies

end Smali.ClassText
