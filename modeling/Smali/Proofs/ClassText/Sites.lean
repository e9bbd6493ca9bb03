import Smali.Proofs.ClassText.Brackets
import Smali.Proofs.ClassText.Success
import Mathlib.Data.List.Perm.Basic

/-! Whatever a text repeats, each edit of a flush lands on the first lines that say what it looks
for. -/

namespace Smali.ClassText

/-- A test passes on one of some lines and on no line before them. -/
def firstIn (test : Line → Bool) (front lines : List Line) : Bool :=
  -- What stands behind does not count.
  !front.any test && lines.any test

/-- A test passes first on lines or on those that follow them. -/
theorem firstIn_append (test : Line → Bool) (front lines more : List Line) :
    firstIn test front (lines ++ more) =
      (firstIn test front lines || firstIn test (front ++ lines) more) := by
  -- It passes on the first of them that passes.
  simp only [firstIn, List.any_append, Bool.not_or]
  cases front.any test <;> cases lines.any test <;> simp

/-- A test does not pass first on lines and again on those that follow them. -/
theorem firstIn_once {test : Line → Bool} {front lines : List Line}
    (passes : firstIn test front lines) (more : List Line) :
    firstIn test (front ++ lines) more = false := by
  -- The earlier line counts.
  simp only [firstIn, Bool.and_eq_true] at passes
  simp [firstIn, List.any_append, passes.2]

/-- What passes first on some lines and what passes first on those that follow them is all that
passes first on both. -/
theorem filter_firstIn {α : Type} (test : α → Line → Bool) (list : List α)
    (front lines more : List Line) :
    (list.filter fun a => firstIn (test a) front (lines ++ more)).Perm
      ((list.filter fun a => firstIn (test a) front lines) ++
        list.filter fun a => firstIn (test a) (front ++ lines) more) := by
  -- Nothing passes first on both.
  refine (List.filter_append_perm (fun a => firstIn (test a) front lines) _).symm.trans ?_
  rw [List.filter_filter, List.filter_filter]
  refine .of_eq (congrArg₂ (· ++ ·) (List.filter_congr fun a _ => ?_)
    (List.filter_congr fun a _ => ?_))
  · rw [firstIn_append]
    cases firstIn (test a) front lines <;> simp
  · rw [firstIn_append]
    cases passes : firstIn (test a) front lines with
    | false => simp
    | true => simp [firstIn_once passes]

/-- The fields whose declarations are said first on some lines that stand behind others. -/
def fieldsIn (fields : List Field) (front lines : List Line) : List Field :=
  -- A flush writes them there.
  fields.filter fun field => firstIn (fun line => line.trimmed == field.declaration) front lines

/-- The drafts whose signatures have their first headers among some lines that stand behind
others. -/
def draftsIn (drafts : List Draft) (front lines : List Line) : List Draft :=
  -- A flush writes them there.
  drafts.filter fun draft => firstIn (isHeaderOf draft.method.signature) front lines

/-- Cuttings do not depend on the order of the members. -/
theorem Cutting.perm {text result : Text} {before lines : List Text}
    {fields fields' : List Field} {drafts drafts' : List Draft}
    (cutting : Cutting text before lines fields drafts result) (same : fields.Perm fields')
    (same' : drafts.Perm drafts') :
    Nonempty (Cutting text before lines fields' drafts' result) := by
  -- The edits are put in order with the members.
  obtain ⟨declarations, declared, perm⟩ :=
    List.perm_comp_forall₂ (same.symm.filter _) cutting.declared
  obtain ⟨bodies, written, perm'⟩ := List.perm_comp_forall₂ (same'.symm.filter _) cutting.written
  exact ⟨⟨cutting.parts, declarations, bodies, cutting.old, cutting.new, declared, written,
    cutting.edits.trans (perm.symm.append perm'.symm)⟩⟩

/-- What a flush that writes some members makes of lines that stand behind others. -/
def Becomes (text : Text) (fields : List Field) (drafts : List Draft) (front lines : List Line)
    (result : Text) : Prop :=
  -- Only the members that are found on these lines count.
  Nonempty (Cutting text (front.map Line.piece) (lines.map Line.piece)
    (fieldsIn fields front lines) (draftsIn drafts front lines) result)

section Becomes

variable {text : Text} {fields : List Field} {drafts : List Draft} {front lines : List Line}

/-- What becomes of lines is followed by what becomes of the lines behind them. -/
theorem Becomes.append {more : List Line} {result result' : Text}
    (first : Becomes text fields drafts front lines result)
    (second : Becomes text fields drafts (front ++ lines) more result') :
    Becomes text fields drafts front (lines ++ more) (result ++ result') := by
  -- The members of both are found on the lines together.
  obtain ⟨first⟩ := first
  obtain ⟨second⟩ := second
  rw [List.map_append] at second
  obtain ⟨both⟩ := first.append second
  rw [Becomes, List.map_append]
  exact both.perm (filter_firstIn _ fields front lines more).symm
    (filter_firstIn _ drafts front lines more).symm

/-- Lines on which nothing is found first stay as they are. -/
theorem Becomes.kept (noField : fieldsIn fields front lines = [])
    (noDraft : draftsIn drafts front lines = []) :
    Becomes text fields drafts front lines (lines.flatMap Line.piece) := by
  -- They are not cut.
  rw [Becomes, noField, noDraft, List.flatMap_def]
  exact Cutting.kept rfl rfl

/-- The members that a flush writes, none of which is found where another one is written. -/
structure Sites (text : Text) (fields : List Field) (drafts : List Draft) : Prop where
  /-- The declarations of the fields are written again. -/
  rewrites : ∀ field ∈ fields, field.rewritesDeclaration
  /-- The bodies of the methods are written again. -/
  written : ∀ draft ∈ drafts, draft.isWritten
  /-- The fields say declarations. -/
  declarable : ∀ field ∈ fields, Declarable field.declaration
  /-- No two fields say the same declaration. -/
  declarations : fields.Pairwise fun field other => field.declaration ≠ other.declaration
  /-- No two methods have the same signature. -/
  signatures : drafts.Pairwise fun draft other =>
    draft.method.signature ≠ other.method.signature
  /-- No declaration is said first in a body that is written. -/
  apart : ∀ field ∈ fields, ∀ draft ∈ drafts, ∀ {front inside inside' back : List Line}
    {header line terminator : Line},
    MethodAt text draft.method.signature front header (inside ++ line :: inside') terminator back →
      ¬ SaidAt text field.declaration (front ++ header :: inside) line
        (inside' ++ terminator :: back)

/-- What becomes of a line on which no method begins. -/
inductive LineBecomes (fields : List Field) (front : List Line) (line : Line) : Text → Prop where
  /-- The line stays if it is not the first to say what is written. -/
  | kept (silent : fieldsIn fields front [line] = []) : LineBecomes fields front line line.piece
  /-- Otherwise the declaration on it gives way to the new one. -/
  | said {field : Field} {lead tail : Text} (only : fieldsIn fields front [line] = [field])
      (parts : line.piece = lead ++ field.declaration ++ tail)
      (blankLead : ∀ c ∈ lead, Text.isBlank c) (blankTail : ∀ c ∈ tail, Text.isBlank c) :
      LineBecomes fields front line (lead ++ field.declarationText ++ tail)

/-- What becomes of lines among which no method begins. -/
inductive LinesBecome (fields : List Field) : List Line → List Line → List Text → Prop where
  /-- Nothing stays nothing. -/
  | done {front : List Line} : LinesBecome fields front [] []
  /-- The lines are taken one by one. -/
  | line {front rest : List Line} {line : Line} {piece : Text} {pieces : List Text}
      (here : LineBecomes fields front line piece)
      (behind : LinesBecome fields (front ++ [line]) rest pieces) :
      LinesBecome fields front (line :: rest) (piece :: pieces)

/-- The body that a flush leaves between the lines of a method. -/
inductive BodyBecomes (fields : List Field) (drafts : List Draft) (front : List Line)
    (block : Block) : Text → Prop where
  /-- A body that is not written stays but for declarations that are said first in it. -/
  | kept {pieces : List Text}
      (unwritten :
        draftsIn drafts front (block.header :: (block.inside ++ [block.terminator])) = [])
      (lines : LinesBecome fields (front ++ [block.header]) block.inside pieces) :
      BodyBecomes fields drafts front block pieces.flatten
  /-- The body that is written is that of the draft with the signature. -/
  | written {draft : Draft}
      (only :
        draftsIn drafts front (block.header :: (block.inside ++ [block.terminator])) = [draft])
      (silent : fieldsIn fields front (block.header :: (block.inside ++ [block.terminator])) = []) :
      BodyBecomes fields drafts front block draft.body

/-- What becomes of parted lines that stand behind others, and the bodies of their blocks. -/
inductive PartsBecome (fields : List Field) (drafts : List Draft) :
    List Line → List Line → List Block → List Text → List Text → Prop where
  /-- Nothing stays nothing. -/
  | done {front : List Line} : PartsBecome fields drafts front [] [] [] []
  /-- A line may stand outside. -/
  | outside {front rest : List Line} {line : Line} {blocks : List Block} {piece : Text}
      {pieces bodies : List Text} (noBracket : line.isBracket = false)
      (here : LineBecomes fields front line piece)
      (behind : PartsBecome fields drafts (front ++ [line]) rest blocks pieces bodies) :
      PartsBecome fields drafts front (line :: rest) blocks (piece :: pieces) bodies
  /-- The body of a block stands between its header and its terminator. -/
  | block {front rest : List Line} {block : Block} {blocks : List Block} {body : Text}
      {pieces bodies : List Text} (opened : block.header.opensWith ".method".toList)
      (between : ∀ line ∈ block.inside, line.isBracket = false)
      (closed : block.terminator.opensWith ".end method".toList)
      (here : BodyBecomes fields drafts front block body)
      (behind : PartsBecome fields drafts
        (front ++ block.header :: (block.inside ++ [block.terminator])) rest blocks pieces bodies) :
      PartsBecome fields drafts front
        (block.header :: (block.inside ++ block.terminator :: rest)) (block :: blocks)
        (block.header.piece :: (Text.pieces body ++ block.terminator.piece :: pieces))
        (body :: bodies)

/-- A line that says a declaration is no bracket. -/
theorem isBracket_of_said {line : Line} {declaration : Text} (declarable : Declarable declaration)
    (said : line.trimmed = declaration) : line.isBracket = false := by
  -- It says another directive.
  have tells : Text.tells ".field".toList line.trimmed := by
    rw [Text.tells, said, declarable.trimmed]
    exact declarable.opens
  have other (directive : Text) (solid : Text.endsSolid directive)
      (apart : (".field".toList.isPrefixOf directive || directive.isPrefixOf ".field".toList) =
        false) : line.opensWith directive = false := by
    have silent := Text.tells_other directive tells apart
    rwa [Text.tells, said, declarable.trimmed, ← said, ← Line.opensWith_eq_opens directive solid]
      at silent
  rw [Line.isBracket, other _ (by decide) (by decide), other _ (by decide) (by decide),
    Bool.or_false]

/-- A field is found first on lines exactly if one of them says its declaration, and none before
them. -/
theorem mem_fieldsIn {field : Field} : field ∈ fieldsIn fields front lines ↔ field ∈ fields ∧
    (∀ earlier ∈ front, earlier.trimmed ≠ field.declaration) ∧
      ∃ line ∈ lines, line.trimmed = field.declaration := by
  -- Both parts of the test are spelled out.
  simp [fieldsIn, firstIn]

/-- No declaration is said by a bracket. -/
theorem fieldsIn_bracket (declarable : ∀ field ∈ fields, Declarable field.declaration)
    (front : List Line) {line : Line} (bracket : line.isBracket) :
    fieldsIn fields front [line] = [] := by
  -- Brackets say other directives.
  refine List.eq_nil_iff_forall_not_mem.2 fun field member => ?_
  obtain ⟨inside, -, other, here, said⟩ := mem_fieldsIn.1 member
  rw [List.mem_singleton.1 here] at said
  rw [isBracket_of_said (declarable field inside) said] at bracket
  cases bracket

/-- A draft is found first on lines exactly if one of them is a header with its signature, and none
before them. -/
theorem mem_draftsIn {draft : Draft} : draft ∈ draftsIn drafts front lines ↔ draft ∈ drafts ∧
    (∀ earlier ∈ front, isHeaderOf draft.method.signature earlier = false) ∧
      ∃ line ∈ lines, isHeaderOf draft.method.signature line := by
  -- Both parts of the test are spelled out.
  simp [draftsIn, firstIn]

/-- No method begins on a line that opens none. -/
theorem draftsIn_of_silent (front : List Line) {line : Line}
    (silent : line.opensWith ".method".toList = false) : draftsIn drafts front [line] = [] := by
  -- A header opens its method.
  refine List.eq_nil_iff_forall_not_mem.2 fun draft member => ?_
  obtain ⟨-, -, other, here, named⟩ := mem_draftsIn.1 member
  rw [List.mem_singleton.1 here, isHeaderOf, silent, Bool.false_and] at named
  cases named

/-- No method is found first on lines exactly if none is on their parts. -/
theorem draftsIn_append_eq_nil {more : List Line} :
    draftsIn drafts front (lines ++ more) = [] ↔
      draftsIn drafts front lines = [] ∧ draftsIn drafts (front ++ lines) more = [] := by
  -- What is found on both is found on one of them.
  have perm : (draftsIn drafts front (lines ++ more)).Perm
      (draftsIn drafts front lines ++ draftsIn drafts (front ++ lines) more) :=
    filter_firstIn _ drafts front lines more
  rw [← List.append_eq_nil_iff, ← List.length_eq_zero_iff, perm.length_eq,
    List.length_eq_zero_iff]

/-- The lines of a block are lines of the text. -/
theorem lines_of_split {block : Block} {back : List Line}
    (split : Text.lines text =
      front ++ block.header :: (block.inside ++ block.terminator :: back)) :
    ∀ line ∈ block.header :: (block.inside ++ [block.terminator]), line ∈ Text.lines text := by
  -- Others stand before them and behind them.
  intro line member
  rw [split]
  simp only [List.mem_cons, List.mem_append, List.not_mem_nil, or_false] at member ⊢
  rcases member with rfl | member | rfl
  · exact .inr (.inl rfl)
  · exact .inr (.inr (.inl member))
  · exact .inr (.inr (.inr (.inl rfl)))

/-- Lines that are no brackets stand inside a method. -/
theorem inside_of_lines (genuine : ∀ line ∈ lines, line ∈ Text.lines text)
    (between : ∀ line ∈ lines, line.isBracket = false) : Inside (lines.map Line.piece) := by
  -- Their pieces say what they say.
  rw [Inside, List.forall_mem_map]
  intro line member
  have silent := Bool.or_eq_false_iff.1 (between line member)
  rwa [Line.opensMethod_eq (genuine line member), Line.closesMethod_eq (genuine line member)]
    at silent

section Block

variable {block : Block} (between : ∀ line ∈ block.inside, line.isBracket = false)
  (closed : block.terminator.opensWith ".end method".toList) {draft : Draft}
  (member : draft ∈ draftsIn drafts front (block.header :: (block.inside ++ [block.terminator])))

include between closed member

/-- A method that is found first in a block has the signature of its header. -/
theorem header_of_mem : isHeaderOf draft.method.signature block.header := by
  -- No other line of the block is a header.
  obtain ⟨-, first, line, inside, named⟩ := mem_draftsIn.1 member
  have opens : line.opensWith ".method".toList := (Bool.and_eq_true_iff.1 named).1
  simp only [List.mem_cons, List.mem_append, List.not_mem_nil, or_false] at inside
  rcases inside with rfl | inside | rfl
  · exact named
  · rw [(Bool.or_eq_false_iff.1 (between line inside)).1] at opens
    cases opens
  · rw [opensMethod_of_closes closed] at opens
    cases opens

/-- A method that is found first in a block is found there in the text. -/
theorem methodAt_of_mem {back : List Line}
    (split : Text.lines text =
      front ++ block.header :: (block.inside ++ block.terminator :: back)) :
    MethodAt text draft.method.signature front block.header block.inside block.terminator back :=
  -- The terminator is the first one behind the header.
  ⟨split, header_of_mem between closed member, (mem_draftsIn.1 member).2.1, closed,
    fun line member => (Bool.or_eq_false_iff.1 (between line member)).2⟩

end Block

namespace Sites

variable (sites : Sites text fields drafts)

include sites

/-- Something becomes of every line on which no method is found first. -/
theorem exists_line {line : Line} {back : List Line}
    (split : Text.lines text = front ++ line :: back)
    (noDraft : draftsIn drafts front [line] = []) :
    ∃ piece, LineBecomes fields front line piece ∧
      Becomes text fields drafts front [line] piece := by
  -- At most one field says the declaration that the line says.
  cases found : fieldsIn fields front [line] with
  | nil =>
    have kept : Becomes text fields drafts front [line] _ := .kept found noDraft
    rw [List.flatMap_singleton] at kept
    exact ⟨line.piece, .kept found, kept⟩
  | cons field others =>
    have saying : ∀ other ∈ field :: others, other ∈ fields ∧
        (∀ earlier ∈ front, earlier.trimmed ≠ other.declaration) ∧
          line.trimmed = other.declaration := by
      intro other member
      obtain ⟨inside, first, here, at', said⟩ := mem_fieldsIn.1 (found ▸ member)
      exact ⟨inside, first, List.mem_singleton.1 at' ▸ said⟩
    -- Two fields found on one line have one declaration, which only one of them may have.
    have single : others = [] := by
      have apart := sites.declarations.filter
        fun field => firstIn (fun line => line.trimmed == field.declaration) front [line]
      rw [show fields.filter _ = field :: others from found, List.pairwise_cons] at apart
      refine List.eq_nil_iff_forall_not_mem.2 fun other member => apart.1 other member ?_
      rw [← (saying field (by simp)).2.2, (saying other (by simp [member])).2.2]
    subst single
    obtain ⟨inside, first, said⟩ := saying field (by simp)
    have genuine : ∀ other ∈ front ++ line :: back, other ∈ Text.lines text :=
      fun other member => by
        rw [split]
        exact member
    -- Around the declaration the line has blanks only.
    obtain ⟨lead, tail, blankLead, blankTail, parts⟩ := Text.exists_trim line.piece
    rw [← Line.trimmed_eq (genuine line (by simp)), said] at parts
    have declarable := sites.declarable field inside
    refine ⟨_, .said found parts blankLead blankTail, ?_⟩
    have split' : Text.pieces text =
        front.map Line.piece ++ (lead ++ field.declaration ++ tail) :: back.map Line.piece := by
      rw [Text.pieces_of_lines split, parts]
    rw [Becomes, found, noDraft, List.map_singleton, parts]
    refine Cutting.declaration split' blankLead blankTail declarable.trimmed declarable.ne_nil ?_
      (sites.rewrites field inside)
    rw [List.forall_mem_map]
    intro earlier member
    rw [← Line.trimmed_eq (genuine earlier (by simp [member]))]
    exact first earlier member

/-- Something becomes of all lines among which no method begins. -/
theorem exists_lines {lines back : List Line} (split : Text.lines text = front ++ (lines ++ back))
    (silent : ∀ line ∈ lines, line.isBracket = false) :
    ∃ pieces, LinesBecome fields front lines pieces ∧
      Becomes text fields drafts front lines pieces.flatten := by
  -- The lines are taken one by one.
  induction lines generalizing front with
  | nil => exact ⟨[], .done, .kept (by simp [fieldsIn, firstIn]) (by simp [draftsIn, firstIn])⟩
  | cons line rest ih =>
    rw [List.forall_mem_cons] at silent
    obtain ⟨piece, here, first⟩ := sites.exists_line split
      (draftsIn_of_silent front (Bool.or_eq_false_iff.1 silent.1).1)
    have split' : Text.lines text = (front ++ [line]) ++ (rest ++ back) := by
      simp [split]
    obtain ⟨pieces, behind, second⟩ := ih split' silent.2
    exact ⟨piece :: pieces, .line here behind, first.append second⟩

section Block

variable {block : Block} {back : List Line}
  (split : Text.lines text = front ++ block.header :: (block.inside ++ block.terminator :: back))
  (opened : block.header.opensWith ".method".toList)
  (between : ∀ line ∈ block.inside, line.isBracket = false)
  (closed : block.terminator.opensWith ".end method".toList)

include split opened between closed

/-- No declaration is said first in a block in which a method is written. -/
theorem fieldsIn_written {draft : Draft}
    (member : draft ∈ draftsIn drafts front
      (block.header :: (block.inside ++ [block.terminator]))) :
    fieldsIn fields front (block.header :: (block.inside ++ [block.terminator])) = [] := by
  -- It would be said first on a line of the body.
  have place := methodAt_of_mem between closed member split
  refine List.eq_nil_iff_forall_not_mem.2 fun field member' => ?_
  obtain ⟨inside, first, line, here, said⟩ := mem_fieldsIn.1 member'
  have declarable := sites.declarable field inside
  -- A declaration is no bracket, so that neither end of the block says it.
  have header : block.header.trimmed ≠ field.declaration := fun said => by
    have noBracket := isBracket_of_said declarable said
    rw [Line.isBracket, opened] at noBracket
    cases noBracket
  have terminator : block.terminator.trimmed ≠ field.declaration := fun said => by
    have noBracket := isBracket_of_said declarable said
    rw [Line.isBracket, closed, Bool.or_true] at noBracket
    cases noBracket
  have body : line ∈ block.inside := by
    simp only [List.mem_cons, List.mem_append, List.not_mem_nil, or_false] at here
    rcases here with rfl | here | rfl
    · exact absurd said header
    · exact here
    · exact absurd said terminator
  -- The first line of the body that says it would share its bytes with the edit of the body.
  cases found : block.inside.find? fun line => line.trimmed == field.declaration with
  | none => exact List.find?_eq_none.1 found line body (by simpa using said)
  | some line =>
    obtain ⟨said, before, behind, parts, earlier⟩ := List.find?_eq_some_iff_append.1 found
    rw [parts] at place
    refine sites.apart field inside draft (mem_draftsIn.1 member).1 place
      ⟨by rw [place.split]; simp, by simpa using said, fun other member => ?_⟩
    rcases List.mem_append.1 member with member | member
    · exact first other member
    · rcases List.mem_cons.1 member with rfl | member
      · exact header
      · simpa using earlier other member

/-- Where no method is written the lines of a block are taken one by one. -/
theorem exists_body_kept
    (unwritten : draftsIn drafts front (block.header :: (block.inside ++ [block.terminator])) = []) :
    ∃ pieces, LinesBecome fields (front ++ [block.header]) block.inside pieces ∧
      Becomes text fields drafts front (block.header :: (block.inside ++ [block.terminator]))
        (block.header.piece ++ (pieces.flatten ++ block.terminator.piece)) := by
  -- The header and the terminator stay.
  rw [← List.singleton_append, draftsIn_append_eq_nil, draftsIn_append_eq_nil] at unwritten
  obtain ⟨noHeader, -, noTerminator⟩ := unwritten
  have bracket {front : List Line} {line : Line} (bracket : line.isBracket)
      (noDraft : draftsIn drafts front [line] = []) :
      Becomes text fields drafts front [line] line.piece := by
    rw [← List.flatMap_singleton Line.piece line]
    exact .kept (fieldsIn_bracket sites.declarable front bracket) noDraft
  have first := bracket (Bool.or_eq_true_iff.2 (.inl opened)) noHeader
  have last := bracket (Bool.or_eq_true_iff.2 (.inr closed)) noTerminator
  have split' : Text.lines text =
      (front ++ [block.header]) ++ (block.inside ++ block.terminator :: back) := by
    simp [split]
  obtain ⟨pieces, lines, middle⟩ := sites.exists_lines split' between
  exact ⟨pieces, lines, first.append (middle.append last)⟩

omit opened in
/-- A method that is written in a block is the only one. -/
theorem draftsIn_written {draft : Draft} {others : List Draft}
    (found : draftsIn drafts front (block.header :: (block.inside ++ [block.terminator])) =
      draft :: others) : others = [] := by
  -- Two of them would have the signature of the header.
  have header : block.header ∈ Text.lines text := lines_of_split split _ (List.mem_cons_self ..)
  have named : ∀ other ∈ draft :: others,
      HeaderOf other.method.signature block.header.piece := fun other inside => by
    rw [← Cutting.isHeaderOf_eq header]
    rw [← found] at inside
    exact header_of_mem between closed inside
  have apart := sites.signatures.filter fun draft =>
    firstIn (isHeaderOf draft.method.signature) front
      (block.header :: (block.inside ++ [block.terminator]))
  rw [show drafts.filter _ = draft :: others from found, List.pairwise_cons] at apart
  exact List.eq_nil_iff_forall_not_mem.2 fun other inside => apart.1 other inside
    (headerOf_inj (named draft (by simp)) (named other (by simp [inside]))).symm

/-- The body of a block in which a method is written gives way to that of the draft. -/
theorem becomes_written {draft : Draft}
    (only : draftsIn drafts front (block.header :: (block.inside ++ [block.terminator])) =
      [draft]) :
    Becomes text fields drafts front (block.header :: (block.inside ++ [block.terminator]))
      (block.header.piece ++ (draft.body ++ block.terminator.piece)) := by
  -- The pieces say what the lines say.
  have genuine := lines_of_split split
  have member : draft ∈ draftsIn drafts front
      (block.header :: (block.inside ++ [block.terminator])) := by
    rw [only]
    exact List.mem_singleton_self draft
  have named := header_of_mem between closed member
  rw [Cutting.isHeaderOf_eq (genuine block.header (by simp))] at named
  have silent := sites.fieldsIn_written split opened between closed member
  obtain ⟨listed, earlier, -⟩ := mem_draftsIn.1 member
  have pieces : Text.pieces text = front.map Line.piece ++ block.header.piece ::
      (block.inside.map Line.piece ++ block.terminator.piece :: back.map Line.piece) := by
    rw [Text.pieces_of_lines split, List.map_append, List.map_cons]
  have inside : Inside (block.inside.map Line.piece) :=
    inside_of_lines (fun line member => genuine line (by simp [member])) between
  rw [Line.closesMethod_eq (genuine block.terminator (by simp))] at closed
  -- No header of the method stands before this one.
  have first : ∀ piece ∈ front.map Line.piece, HeaderOf draft.method.signature piece = false := by
    rw [List.forall_mem_map]
    intro line member
    rw [← Cutting.isHeaderOf_eq (show line ∈ Text.lines text by rw [split]; simp [member])]
    exact earlier line member
  rw [Becomes, only, silent, List.map_cons, List.map_append, List.map_singleton,
    ← List.append_assoc]
  exact Cutting.body pieces named inside closed first (sites.written draft listed)

/-- Something becomes of the body of every block. -/
theorem exists_body : ∃ body, BodyBecomes fields drafts front block body ∧
    Becomes text fields drafts front (block.header :: (block.inside ++ [block.terminator]))
      (block.header.piece ++ (body ++ block.terminator.piece)) := by
  -- At most one draft is written in the block.
  cases found : draftsIn drafts front (block.header :: (block.inside ++ [block.terminator])) with
  | nil =>
    obtain ⟨pieces, lines, become⟩ := sites.exists_body_kept split opened between closed found
    exact ⟨pieces.flatten, .kept found lines, become⟩
  | cons draft others =>
    obtain rfl := sites.draftsIn_written split between closed found
    have member : draft ∈ draftsIn drafts front
        (block.header :: (block.inside ++ [block.terminator])) := by
      rw [found]
      exact List.mem_singleton_self draft
    exact ⟨draft.body,
      .written found (sites.fieldsIn_written split opened between closed member),
      sites.becomes_written split opened between closed found⟩

end Block

/-- Something becomes of all parted lines. -/
theorem exists_parts {rest others : List Line} {blocks : List Block}
    (parted : Parted rest others blocks) (split : Text.lines text = front ++ rest) :
    ∃ pieces bodies, PartsBecome fields drafts front rest blocks pieces bodies ∧
      Becomes text fields drafts front rest pieces.flatten := by
  -- The parts are taken one by one.
  induction parted generalizing front with
  | done =>
    exact ⟨[], [], .done, .kept (by simp [fieldsIn, firstIn]) (by simp [draftsIn, firstIn])⟩
  | @outside line rest others blocks noBracket _ ih =>
    -- A line outside the methods is no header, so that no draft is written at it.
    obtain ⟨piece, here, first⟩ := sites.exists_line split
      (draftsIn_of_silent front (Bool.or_eq_false_iff.1 noBracket).1)
    have split' : Text.lines text = (front ++ [line]) ++ rest := by simp [split]
    obtain ⟨pieces, bodies, behind, second⟩ := ih split'
    exact ⟨piece :: pieces, bodies, .outside noBracket here behind, first.append second⟩
  | @block header terminator inside rest others blocks opened between closed _ ih =>
    obtain ⟨body, here, first⟩ :
        ∃ body, BodyBecomes fields drafts front ⟨header, inside, terminator⟩ body ∧ _ :=
      sites.exists_body split opened between closed
    have split' : Text.lines text =
        (front ++ header :: (inside ++ [terminator])) ++ rest := by simp [split]
    obtain ⟨pieces, bodies, behind, second⟩ := ih split'
    refine ⟨_, body :: bodies, .block opened between closed here behind, ?_⟩
    have whole := first.append second
    simpa [Text.flatten_pieces] using whole

end Sites

end Becomes

/-- Members whose edits share no byte differ in whatever determines the place of the edit. -/
theorem pairwise_of_edits {α : Type} {relates : α → Edit → Prop} {members : List α}
    {edits : List Edit} {same : α → α → Prop} (related : List.Forall₂ relates members edits)
    (apart : edits.Pairwise fun edit other => edit.span.overlaps other.span = false)
    (collide : ∀ a edit b other, relates a edit → relates b other → same a b →
      edit.span.overlaps other.span) : members.Pairwise fun a b => ¬ same a b := by
  -- The members are taken one by one, each with its edit.
  induction related with
  | nil => exact .nil
  | @cons a edit _ _ here behind ih =>
    rw [List.pairwise_cons] at apart
    refine .cons (fun b member equal => ?_) (ih apart.2)
    obtain ⟨other, inside, there⟩ := List.exists_of_mem_left behind member
    have together := collide a edit b other here there equal
    rw [apart.1 other inside] at together
    cases together

/-- Edits at the same place share a byte. -/
theorem overlaps_self {edit : Edit} (covers : edit.span.start < edit.span.stop) :
    edit.span.overlaps edit.span := by
  -- There is one.
  simp [Span.overlaps, covers]

/-- The declaration of a field does not share a byte with the body in which it is said. -/
theorem overlaps_of_said {text : Text} {field : Field} {draft : Draft} {edit other : Edit}
    (declared : DeclarationEdit text field edit) (written : BodyEdit text draft other)
    (spoken : field.declaration ≠ []) {front inside inside' back : List Line}
    {header line terminator : Line}
    (place : MethodAt text draft.method.signature front header (inside ++ line :: inside')
      terminator back)
    (said : SaidAt text field.declaration (front ++ header :: inside) line
      (inside' ++ terminator :: back)) : edit.span.overlaps other.span := by
  -- The body begins before the line and ends behind it.
  have covers := declared.covers spoken
  have located : edit.span = _ := Option.some.inj
    (declared.1.symm.trans (locateDeclaration_eq_some.2 ⟨_, _, _, said, rfl⟩))
  obtain ⟨found, located', rfl⟩ := written
  have located' : found = _ := Option.some.inj
    (located'.symm.trans (locateMethod_eq_some.2 ⟨_, _, _, _, _, place, rfl⟩))
  rw [located] at covers ⊢
  rw [located']
  have parts := congrArg Text.byteLength (congrArg (· ++ line.ending) line.content_eq)
  have whole : line.content ++ line.ending = line.piece := rfl
  simp only [whole, Text.byteLength_append] at parts
  simp only [Span.overlaps, Bool.and_eq_true, decide_eq_true_eq, Text.byteLength_append,
    List.flatMap_append, List.flatMap_cons, List.flatMap_nil, List.append_nil] at covers ⊢
  omega

section Flushing

variable {source flushed : ClassText} (flushing : Flushing source flushed)
  (declarable : ∀ field ∈ source.fields, field.rewritesDeclaration → Declarable field.declaration)

include declarable

/-- The members that a flush writes are not found where another one is written. -/
theorem Flushing.sites : Sites source.text (source.fields.filter Field.rewritesDeclaration)
    (flushing.drafts.filter Draft.isWritten) := by
  -- No two edits share a byte.
  -- The edits have been accepted by the list, so that they do not overlap.
  have apart := (EditList.pushable_empty flushing.perm (fun edit member =>
    flushing.edits.nonempty edit (flushing.perm.symm.subset member)) flushing.edits.ordered).apart
  have covers : ∀ edit ∈ flushing.declarations ++ flushing.bodies,
      edit.span.start < edit.span.stop := fun edit member =>
    flushing.edits.nonempty edit (flushing.perm.symm.subset member)
  rw [show EditList.empty.edits = [] from rfl, List.nil_append, List.pairwise_append] at apart
  have declarable' : ∀ field ∈ source.fields.filter Field.rewritesDeclaration,
      Declarable field.declaration := fun field member =>
    declarable field (List.mem_filter.1 member).1 (List.mem_filter.1 member).2
  refine ⟨fun field member => (List.mem_filter.1 member).2,
    fun draft member => (List.mem_filter.1 member).2, declarable', ?_, ?_, ?_⟩
  · -- Two fields with one declaration would both be written where it is said first.
    refine pairwise_of_edits (flushing.declared.imp_mem
      fun field member edit _ declared => And.intro declared (declarable' field member)) apart.1 ?_
    intro field edit other edit' ⟨declared, declarable⟩ ⟨declared', _⟩ same
    have here := declared.1
    rw [same, declared'.1, Option.some.injEq] at here
    rw [here]
    exact overlaps_self (declared.covers declarable.ne_nil)
  · -- Two drafts with one signature would both be written at its first header.
    refine pairwise_of_edits flushing.written apart.2.1 ?_
    intro draft edit other edit' written written' same
    have covers := written.covers
    obtain ⟨place, located, rfl⟩ := written
    obtain ⟨place', located', rfl⟩ := written'
    rw [same, located', Option.some.injEq] at located
    rw [located]
    exact overlaps_self covers
  · -- A declaration said in a body is written inside of what replaces the body.
    intro field member draft member' front inside inside' back header line terminator place said
    obtain ⟨edit, inside, declared⟩ := List.exists_of_mem_left flushing.declared member
    obtain ⟨other, inside', written⟩ := List.exists_of_mem_left flushing.written member'
    have together :=
      overlaps_of_said declared written (declarable' field member).ne_nil place said
    rw [apart.2.2 edit inside other inside'] at together
    cases together

/-- The lines of a text give way one by one to those that a flush leaves. -/
theorem Flushing.exists_parts {outside : List Line} {blocks : List Block}
    (parted : Parted (Text.lines source.text) outside blocks) :
    ∃ pieces bodies, PartsBecome (source.fields.filter Field.rewritesDeclaration)
        (flushing.drafts.filter Draft.isWritten) [] (Text.lines source.text) blocks pieces bodies ∧
      flushed.text = pieces.flatten := by
  -- All members that are written are found on some line.
  obtain ⟨pieces, bodies, become, ⟨cutting⟩⟩ :=
    (flushing.sites declarable).exists_parts parted (List.nil_append _).symm
  refine ⟨pieces, bodies, become, ?_⟩
  -- Every edit has been located, so that each field and each draft is met on its way.
  have fields : fieldsIn (source.fields.filter Field.rewritesDeclaration) []
      (Text.lines source.text) = source.fields.filter Field.rewritesDeclaration := by
    refine List.filter_eq_self.2 fun field member => ?_
    obtain ⟨edit, -, declared⟩ := List.exists_of_mem_left flushing.declared member
    obtain ⟨front, line, back, here, -⟩ := locateDeclaration_eq_some.1 declared.1
    simp only [firstIn, List.any_nil, Bool.not_false, Bool.true_and, List.any_eq_true, beq_iff_eq]
    exact ⟨line, by simp [here.split], here.said⟩
  have drafts : draftsIn (flushing.drafts.filter Draft.isWritten) [] (Text.lines source.text) =
      flushing.drafts.filter Draft.isWritten := by
    refine List.filter_eq_self.2 fun draft member => ?_
    obtain ⟨edit, -, place, located, -⟩ := List.exists_of_mem_left flushing.written member
    obtain ⟨front, header, inside, terminator, back, here, -⟩ := locateMethod_eq_some.1 located
    simp only [firstIn, List.any_nil, Bool.not_false, Bool.true_and, List.any_eq_true]
    exact ⟨header, by simp [here.split], here.header⟩
  -- The drafts and the fields are the filtered ones already.
  rw [fields, drafts, Text.map_piece_lines, List.map_nil] at cutting
  have declared := cutting.declared
  have written := cutting.written
  rw [List.filter_filter, List.filter_congr fun field _ => Bool.and_self _] at declared
  rw [List.filter_filter, List.filter_congr fun draft _ => Bool.and_self _] at written
  exact text_of_cutting flushing ⟨cutting.parts, cutting.declarations, cutting.bodies, cutting.old,
    cutting.new, declared, written, cutting.edits⟩

end Flushing

end Smali.ClassText
