import Smali.Proofs.ClassText.Changes
import Smali.Proofs.ClassText.Cutting

/-! A flush takes a class text segment by segment, and each new segment declares its members. -/

namespace Smali.ClassText

/-- The directives of the lines that name the class and its superclass. -/
def headDirectives : List Text :=
  -- No member is declared by them.
  [".class".toList, ".super".toList]

/-- A text may stand on a line as the declaration of a field. -/
structure Declarable (declaration : Text) : Prop where
  /-- It begins with the directive. -/
  opens : Text.opens ".field".toList declaration
  /-- No blanks are around it. -/
  trimmed : Text.trim declaration = declaration
  /-- It does not run over a line. -/
  single : '\n' ∉ declaration

/-- A declaration says something. -/
theorem Declarable.ne_nil {declaration : Text} (declarable : Declarable declaration) :
    declaration ≠ [] := by
  -- It says the directive at least.
  obtain ⟨rest, whole⟩ := Text.prefix_of_opens declarable.opens
  rw [← whole]
  simp

/-- What a line declares may stand on a line. -/
theorem declarable_trim {piece : Text} (said : Text.tells ".field".toList piece)
    (single : Text.IsPiece piece) : Declarable (Text.trim piece) :=
  -- The blanks around it and the line feed do not count.
  ⟨said, Text.trim_trim piece, Text.open_trim single⟩

/-- What a field asks for may stand on a line if nothing of it is blank at the end or runs over. -/
theorem declarable_of_trim {field : Field}
    (trimmed : Text.trim field.declarationText = field.declarationText)
    (single : '\n' ∉ field.declarationText) : Declarable field.declarationText := by
  -- The directive comes first.
  refine ⟨?_, trimmed, single⟩
  rw [Field.declarationText_eq]
  exact Text.opens_append (by simp; decide)

/-- What a field that can be written declares may stand on a line. -/
theorem declarable_declarationText {field : Field} (writable : field.Writable) :
    Declarable field.declarationText :=
  -- Values have no line feeds.
  declarable_of_trim (Field.trim_declarationText writable.toRestorable)
    (Field.open_declarationText writable.saidWords writable.single)

/-- What a field of words with a string declares may stand on a line. -/
theorem declarable_str {field : Field} (solid : ∀ word ∈ field.saidWords, Field.IsWord word)
    {text : Text} (value : field.value = some (.str text)) : Declarable field.declarationText := by
  -- The string ends with a quote and has no line feed.
  have display : (FieldValue.str text).display = '"' :: Text.escape text ++ ['"'] := rfl
  refine declarable_of_trim (Text.trim_eq_self (fun c first => ?_) fun c last => ?_)
    (Field.open_declarationText solid fun other valued => ?_)
  · rw [Field.declarationText_eq] at first
    have dot : '.' = c := by simpa using first
    exact dot ▸ by decide
  · have whole : field.declarationText = ".field".toList ++ ' ' :: ([' '].intercalate
        field.saidWords ++ (" = ".toList ++ '"' :: Text.escape text)) ++ ['"'] := by
      simp [Field.declarationText_eq, Field.saidValue, value, display]
    rw [whole, List.getLast?_concat, Option.some.injEq] at last
    exact last ▸ by decide
  · rw [value, Option.some.injEq] at valued
    exact valued ▸ FieldValue.open_str text

/-- What a flush makes of some lines of a text that stand behind other ones. -/
structure Segment (text owner : Text) (before lines : List Text) (fields : List Field)
    (drafts : List Draft) where
  /-- The parts that the lines are cut into. -/
  parts : List Part
  /-- The lines that take their place. -/
  pieces : List Text
  /-- The edits of declarations. -/
  declarations : List Edit
  /-- The edits of bodies. -/
  bodies : List Edit
  /-- The parts make up the lines. -/
  old : parts.flatMap Part.old = lines.flatten
  /-- The new parts make up the new lines. -/
  new : parts.flatMap Part.new = pieces.flatten
  /-- The new lines are single lines. -/
  single : ∀ piece ∈ pieces, Text.IsPiece piece
  /-- The new lines are kept apart as the old ones were. -/
  apart : (lines.Pairwise fun line _ => Text.Closed line) →
    pieces.Pairwise fun line _ => Text.Closed line
  /-- The new lines are closed if the old ones were. -/
  closed : (∀ line ∈ lines, Text.Closed line) → ∀ piece ∈ pieces, Text.Closed piece
  /-- Without old lines there are no new ones. -/
  empty : lines = [] → pieces = []
  /-- The class and its superclass are named as before. -/
  heads : ∀ directive ∈ headDirectives,
    firstSaying directive pieces = firstSaying directive lines
  /-- The new lines declare the members as the flush leaves them. -/
  reads : ∀ {rest others methods}, Reads owner rest others methods →
    Reads owner (pieces ++ rest) (fields.map Field.flushed ++ others)
      (drafts.map Draft.settled ++ methods)
  /-- Each declaration that is rewritten has its edit. -/
  declared : List.Forall₂ (DeclarationEdit text) (fields.filter Field.rewritesDeclaration)
    declarations
  /-- Each body that is written has its edit. -/
  written : List.Forall₂ (BodyEdit text) (drafts.filter Draft.isWritten) bodies
  /-- There are no other edits. -/
  edits : ((Part.replacements before.flatten parts).map fun item => item.edit []).Perm
    (declarations ++ bodies)

namespace Segment

variable {text owner : Text} {before lines : List Text} {fields : List Field}
  {drafts : List Draft}

/-- The first line of two runs that says a directive is in the first run if it can be. -/
theorem firstSaying_append (directive : Text) (front back : List Text) :
    firstSaying directive (front ++ back) =
      (firstSaying directive front).or (firstSaying directive back) := by
  -- The second run counts only if the first has no such line.
  simp only [firstSaying, List.find?_append]
  cases front.find? (Text.tells directive) <;> rfl

/-- A segment cuts its lines. -/
def cutting (segment : Segment text owner before lines fields drafts) :
    Cutting text before lines fields drafts segment.pieces.flatten :=
  -- The members that the new lines declare do not matter for it.
  ⟨segment.parts, segment.declarations, segment.bodies, segment.old, segment.new,
    segment.declared, segment.written, segment.edits⟩

/-- Two segments that follow each other are one segment. -/
theorem append {more : List Text} {fields' : List Field} {drafts' : List Draft}
    (first : Segment text owner before lines fields drafts)
    (second : Segment text owner (before ++ lines) more fields' drafts') :
    Nonempty (Segment text owner before (lines ++ more) (fields ++ fields')
      (drafts ++ drafts')) := by
  -- The edits of both are those of the one.
  obtain ⟨cutting⟩ := first.cutting.append second.cutting
  refine ⟨⟨cutting.parts, first.pieces ++ second.pieces, cutting.declarations, cutting.bodies,
    cutting.old, by rw [cutting.new, List.flatten_append], ?_, ?_, ?_, ?_, ?_, ?_,
    cutting.declared, cutting.written, cutting.edits⟩⟩
  · intro piece member
    rcases List.mem_append.1 member with member | member
    · exact first.single piece member
    · exact second.single piece member
  · intro apart
    rw [List.pairwise_append] at apart ⊢
    refine ⟨first.apart apart.1, second.apart apart.2.1, fun piece member other member' => ?_⟩
    -- A line of the first part with a line of the second behind it is closed.
    have some' : more ≠ [] := by
      intro none'
      rw [second.empty none'] at member'
      cases member'
    obtain ⟨next, rest, rfl⟩ := List.exists_cons_of_ne_nil some'
    exact first.closed (fun line inside => apart.2.2 line inside next (by simp)) piece member
  · intro closed piece member
    rcases List.mem_append.1 member with member | member
    · exact first.closed (fun line inside => closed line (by simp [inside])) piece member
    · exact second.closed (fun line inside => closed line (by simp [inside])) piece member
  · intro none'
    obtain ⟨noLines, noMore⟩ := List.append_eq_nil_iff.1 none'
    rw [first.empty noLines, second.empty noMore]
    rfl
  · intro directive member
    rw [firstSaying_append, firstSaying_append, first.heads directive member,
      second.heads directive member]
  · intro rest others methods reads
    have both := first.reads (second.reads reads)
    simpa using both

/-- Lines for which nothing is written stay as they are. -/
theorem kept (single : ∀ line ∈ lines, Text.IsPiece line)
    (noDeclaration : fields.filter Field.rewritesDeclaration = [])
    (noBody : drafts.filter Draft.isWritten = [])
    (reads : ∀ {rest others methods}, Reads owner rest others methods →
      Reads owner (lines ++ rest) (fields.map Field.flushed ++ others)
        (drafts.map Draft.settled ++ methods)) :
    Nonempty (Segment text owner before lines fields drafts) := by
  -- They are not cut.
  obtain ⟨cutting⟩ : Nonempty (Cutting text before lines fields drafts lines.flatten) :=
    Cutting.kept noDeclaration noBody
  exact ⟨⟨cutting.parts, lines, cutting.declarations, cutting.bodies, cutting.old, cutting.new,
    single, id, id, id, fun _ _ => rfl, reads, cutting.declared, cutting.written,
    cutting.edits⟩⟩

/-- A line that says none of some directives is not the first that says one. -/
theorem firstSaying_none {directive : Text} {pieces : List Text}
    (silent : ∀ piece ∈ pieces, Text.tells directive piece = false) :
    firstSaying directive pieces = none := by
  -- No line is found.
  rw [firstSaying, List.find?_eq_none.2 fun piece member => by simp [silent piece member]]
  rfl

/-- The line of a declaration that is rewritten says the new declaration. -/
theorem declaration {piece : Text} {behind : List Text} {field : Field}
    (split : Text.pieces text = before ++ piece :: behind)
    (said : Text.tells ".field".toList piece) (same : Text.trim piece = field.declaration)
    (once : (Text.lines text).countP (fun line => line.trimmed == field.declaration) = 1)
    (owned : field.owner = owner) (writable : field.Writable)
    (rewrites : field.rewritesDeclaration = true)
    (flushed : field.flushed = { field with
        declaration := field.declarationText
        declaredReference := field.reference
        previous := none
        pending := .unchanged
        dirty := false }) :
    Nonempty (Segment text owner before [piece] [field] []) := by
  -- The blanks around the old declaration are those around the new one.
  have inside : Text.IsPiece piece :=
    Text.isPiece_of_mem_pieces (show piece ∈ Text.pieces text by rw [split]; simp)
  have before' : Declarable field.declaration := same ▸ declarable_trim said inside
  have after : Declarable field.declarationText := declarable_declarationText writable
  obtain ⟨lead, tail, blankLead, blankTail, parts⟩ := Text.exists_trim piece
  rw [same] at parts
  subst parts
  obtain ⟨cutting⟩ := Cutting.declaration split blankLead blankTail before'.trimmed
    before'.ne_nil (first_of_once split same once) rewrites
  have trimmed : Text.trim (lead ++ field.declarationText ++ tail) = field.declarationText := by
    rw [Text.trim_append blankLead blankTail, after.trimmed]
  have said' : Text.tells ".field".toList (lead ++ field.declarationText ++ tail) := by
    rw [Text.tells, trimmed]
    exact after.opens
  -- A declaration names neither the class nor the superclass.
  have silent : ∀ directive ∈ headDirectives, ∀ piece, Text.tells ".field".toList piece →
      firstSaying directive [piece] = none := by
    intro directive member piece spoken
    refine firstSaying_none fun other inside' => ?_
    rw [List.mem_singleton.1 inside']
    refine Text.tells_other _ spoken ?_
    simp only [headDirectives, List.mem_cons, List.not_mem_nil, or_false] at member
    rcases member with rfl | rfl <;> decide
  -- The line that is written is read as the field that the flush leaves.
  have parsed : Field.parse owner (Text.trim (lead ++ field.declarationText ++ tail)) =
      .ok field.flushed := by
    rw [trimmed, flushed, ← owned]
    exact Field.parse_declarationText writable.toRestorable
  refine ⟨⟨cutting.parts, [lead ++ field.declarationText ++ tail], cutting.declarations,
    cutting.bodies, cutting.old, by rw [cutting.new, List.flatten_singleton], ?_, by simp, ?_,
    by simp, ?_, ?_, cutting.declared, cutting.written, cutting.edits⟩⟩
  · rw [List.forall_mem_singleton]
    exact inside.replace before'.ne_nil after.ne_nil after.single
  · rw [List.forall_mem_singleton, List.forall_mem_singleton]
    exact fun closed => closed.replace before'.ne_nil before'.single _
  · intro directive member
    rw [silent directive member _ said', silent directive member _ said]
  · intro rest others methods reads
    exact .field said' parsed reads

/-- The lines of a method name a class or a superclass as those of its body do. -/
theorem firstSaying_method {header terminator : Text} {inside : List Text}
    (opened : Text.tells ".method".toList header)
    (closes : Text.tells ".end method".toList terminator) {directive : Text}
    (member : directive ∈ headDirectives) :
    firstSaying directive (header :: (inside ++ [terminator])) = firstSaying directive inside := by
  -- The lines around the body say other directives.
  have others : Text.tells directive header = false ∧ Text.tells directive terminator = false := by
    simp only [headDirectives, List.mem_cons, List.not_mem_nil, or_false] at member
    rcases member with rfl | rfl
    all_goals
      refine ⟨Text.tells_other _ opened ?_, Text.tells_other _ closes ?_⟩ <;> decide
  have noHead : firstSaying directive [header] = none :=
    firstSaying_none fun line inside => List.mem_singleton.1 inside ▸ others.1
  have noLast : firstSaying directive [terminator] = none :=
    firstSaying_none fun line inside => List.mem_singleton.1 inside ▸ others.2
  rw [← List.singleton_append, firstSaying_append, firstSaying_append, noHead, noLast,
    Option.none_or, Option.or_none]

/-- The lines of a method whose body is written hold the new body. -/
theorem body {header terminator : Text} {inside behind : List Text} {method : Method}
    {draft : Draft}
    (split : Text.pieces text = before ++ header :: (inside ++ terminator :: behind))
    (opened : Text.tells ".method".toList header) (between : Inside inside)
    (closes : Text.tells ".end method".toList terminator)
    (parsed : Method.parse owner (Text.trim header) inside.flatten = .ok method)
    (first : ∀ piece ∈ before, HeaderOf method.signature piece = false)
    (same : draft.method.signature = method.signature)
    (settled : draft.settled = { method with body := draft.body })
    (closed' : ∀ piece ∈ Text.pieces draft.body, Text.Closed piece)
    (between' : Inside (Text.pieces draft.body))
    (heads : ∀ directive ∈ headDirectives,
      firstSaying directive (Text.pieces draft.body) = firstSaying directive inside)
    (written : draft.isWritten = true) :
    Nonempty (Segment text owner before (header :: (inside ++ [terminator])) [] [draft]) := by
  -- The lines between the header and the terminator give way to those of the new body.
  have named : HeaderOf draft.method.signature header := same ▸ headerOf_of_parse opened parsed
  obtain ⟨cutting⟩ := Cutting.body split named between closes (same ▸ first) written
  -- Header and terminator are lines of the text.
  have piece : ∀ line ∈ [header, terminator], Text.IsPiece line := by
    intro line member
    have inside : line ∈ Text.pieces text := by
      rw [split]
      simp only [List.mem_cons, List.not_mem_nil, or_false] at member
      rcases member with rfl | rfl <;> simp
    exact Text.isPiece_of_mem_pieces inside
  refine ⟨⟨cutting.parts, header :: (Text.pieces draft.body ++ [terminator]),
    cutting.declarations, cutting.bodies, cutting.old, ?_, ?_, ?_, ?_, by simp, ?_, ?_,
    cutting.declared, cutting.written, cutting.edits⟩⟩
  · rw [cutting.new]
    simp [Text.flatten_pieces]
  · intro line member
    simp only [List.mem_cons, List.mem_append, List.not_mem_nil, or_false] at member
    rcases member with rfl | member | rfl
    · exact piece line (by simp)
    · exact Text.isPiece_of_mem_pieces member
    · exact piece line (by simp)
  · intro apart
    rw [List.pairwise_cons] at apart ⊢
    have closed : Text.Closed header := apart.1 terminator (by simp)
    refine ⟨fun _ _ => closed, List.pairwise_append.2 ⟨Text.pieces_pairwise draft.body, by simp,
      fun line member _ _ => closed' line member⟩⟩
  · intro closed line member
    simp only [List.mem_cons, List.mem_append, List.not_mem_nil, or_false] at member
    rcases member with rfl | member | rfl
    · exact closed _ (by simp)
    · exact closed' line member
    · exact closed _ (by simp)
  · intro directive member
    rw [firstSaying_method opened closes member, firstSaying_method opened closes member,
      heads directive member]
  · intro rest others methods reads
    -- The header is read with the new body as it was with the old one.
    have parsed' : Method.parse owner (Text.trim header) (Text.pieces draft.body).flatten =
        .ok draft.settled := by
      obtain ⟨-, -, -, -, -, other⟩ := Method.exists_of_parse parsed
      rw [Text.flatten_pieces, settled]
      exact other draft.body
    have joined := Reads.method opened between' closes parsed' reads
    simpa using joined

end Segment

end Smali.ClassText
