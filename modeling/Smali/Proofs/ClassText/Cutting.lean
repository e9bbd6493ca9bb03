import Smali.Proofs.ClassText.Location
import Smali.Proofs.ClassText.Members
import Smali.Proofs.ClassText.Planning
import Smali.Proofs.Method.Header

/-! The edits of a flush cut the lines of a class text into parts, and each replaces its own. -/

namespace Smali

namespace Text

/-- What a single line says between its blanks has no line feed. -/
theorem open_trim {piece : Text} (single : IsPiece piece) : '\n' ∉ trim piece := by
  -- It could only be the last character, which is no blank.
  obtain ⟨front, last, rfl, open'⟩ := single
  intro feed
  have member := (trim_isInfix (front ++ [last])).subset feed
  have final : last = '\n' := by
    rcases List.mem_append.1 member with member | member
    · exact absurd member open'
    · exact (List.mem_singleton.1 member).symm
  subst final
  rw [trim_tail (by decide)] at feed
  exact open' ((trim_isInfix front).subset feed)

/-- What stands between blanks on a single line may give way to something else on that line. -/
theorem IsPiece.replace {lead old new tail : Text} (single : IsPiece (lead ++ old ++ tail))
    (nonempty : old ≠ []) (nonempty' : new ≠ []) (open' : '\n' ∉ new) :
    IsPiece (lead ++ new ++ tail) := by
  -- The line feed can only be the last character of what is behind it.
  rw [isPiece_iff] at single ⊢
  obtain ⟨-, inside⟩ := single
  refine ⟨by simp [nonempty'], ?_⟩
  rw [List.dropLast_append] at inside ⊢
  cases tail with
  | nil =>
    simp only [List.isEmpty_nil, if_true, List.dropLast_append, List.isEmpty_iff, nonempty,
      nonempty', if_false, List.mem_append, not_or] at inside ⊢
    exact ⟨inside.1, fun feed => open' (List.dropLast_subset new feed)⟩
  | cons c rest =>
    simp only [List.isEmpty_cons, Bool.false_eq_true, if_false, List.mem_append,
      not_or] at inside ⊢
    exact ⟨⟨inside.1.1, open'⟩, inside.2⟩

/-- A line stays closed when what stands between blanks on it gives way to something else. -/
theorem Closed.replace {lead old tail : Text} (closed : Closed (lead ++ old ++ tail))
    (nonempty : old ≠ []) (open' : '\n' ∉ old) (new : Text) : Closed (lead ++ new ++ tail) := by
  -- The line feed is behind it.
  cases tail with
  | nil =>
    rw [Closed, List.append_nil, List.getLast?_append_of_ne_nil _ nonempty] at closed
    exact absurd (List.mem_of_getLast? closed) open'
  | cons c rest =>
    rw [Closed, List.getLast?_append_of_ne_nil _ (List.cons_ne_nil c rest)] at closed ⊢
    exact closed

/-- The blanks before what is said are the first ones of a text. -/
theorem takeWhile_parts {lead said : Text} (blank : ∀ c ∈ lead, isBlank c)
    (trimmed : trim said = said) (nonempty : said ≠ []) (tail : Text) :
    (lead ++ said ++ tail).takeWhile isBlank = lead := by
  -- The first character that is said is no blank.
  obtain ⟨c, rest, rfl⟩ := List.exists_cons_of_ne_nil nonempty
  have solid := not_isBlank_of_trim_cons trimmed
  rw [List.append_assoc, List.takeWhile_append_of_pos blank, List.cons_append,
    List.takeWhile_cons_of_neg (by simp [solid]), List.append_nil]

end Text

/-- The indentation of a line that says something is what its piece begins with. -/
theorem Line.indent_eq {line : Line} (spoken : line.trimmed ≠ []) :
    line.indent = line.piece.takeWhile Text.isBlank := by
  -- What the line says stands behind it.
  have content := line.content_eq
  have lead : ∀ c ∈ line.indent, Text.isBlank c := fun c => Text.isBlank_of_mem_takeWhile
  have parts := Text.takeWhile_parts lead (Text.trim_trim line.content) spoken
    (Text.trailing (Text.trimStart line.content) ++ line.ending)
  rw [← parts, ← List.append_assoc]
  exact congrArg (fun front => (front ++ line.ending).takeWhile Text.isBlank) content

namespace ClassText

/-- A line says that it is the header of a method with a given signature. -/
def HeaderOf (signature piece : Text) : Bool :=
  -- The signature is the last word before any comment.
  Text.tells ".method".toList piece &&
    (Text.words (Text.codePart (Text.trim piece))).getLast? == some signature

/-- A header that is read has the signature of its method. -/
theorem headerOf_of_parse {owner header body : Text} {method : Method}
    (opened : Text.tells ".method".toList header)
    (parsed : Method.parse owner (Text.trim header) body = .ok method) :
    HeaderOf method.signature header := by
  -- The signature is read from the last word.
  rw [HeaderOf, opened, Method.signature_of_parse opened parsed]
  simp

/-- A header has one signature. -/
theorem headerOf_inj {signature other header : Text} (named : HeaderOf signature header)
    (named' : HeaderOf other header) : other = signature := by
  -- It is the last word.
  simp only [HeaderOf, Bool.and_eq_true, beq_iff_eq] at named named'
  exact Option.some.inj (named'.2.symm.trans named.2)

/-- A line that opens no method is the header of none. -/
theorem headerOf_of_silent {piece : Text} (silent : Text.tells ".method".toList piece = false)
    (signature : Text) : HeaderOf signature piece = false := by
  rw [HeaderOf, silent, Bool.false_and]

/-- A line that says another directive is the header of no method. -/
theorem headerOf_of_tells {directive piece : Text} (said : Text.tells directive piece)
    (apart : (directive.isPrefixOf ".method".toList ||
      ".method".toList.isPrefixOf directive) = false) (signature : Text) :
    HeaderOf signature piece = false :=
  headerOf_of_silent (Text.tells_other _ said apart) signature

/-- No line of a method is the header of a method with another signature. -/
theorem headerOf_other {inside : List Text} {header terminator signature other : Text}
    (named : HeaderOf signature header) (between : Inside inside)
    (closes : Text.tells ".end method".toList terminator) (apart : other ≠ signature) :
    ∀ piece ∈ header :: (inside ++ [terminator]), HeaderOf other piece = false := by
  -- Only the first of them is a header.
  intro piece member
  simp only [List.mem_cons, List.mem_append, List.not_mem_nil, or_false] at member
  rcases member with rfl | member | rfl
  · rw [← Bool.not_eq_true]
    exact fun named' => apart (headerOf_inj named named')
  · exact headerOf_of_silent (between piece member).1 other
  · exact headerOf_of_tells closes (by decide) other

/-- The edit of a declaration is determined by the field. -/
theorem rightUnique_declarationEdit (text : Text) :
    Relator.RightUnique (DeclarationEdit text) := by
  -- Place and replacement are both determined.
  intro field edit edit' first second
  obtain ⟨span, replacement⟩ := edit
  obtain ⟨span', replacement'⟩ := edit'
  have spans := first.1.symm.trans second.1
  have replacements := first.2.trans second.2.symm
  simp_all

/-- The edit of a body is determined by the draft. -/
theorem rightUnique_bodyEdit (text : Text) : Relator.RightUnique (BodyEdit text) := by
  -- The place determines the edit.
  rintro draft edit edit' ⟨place, located, rfl⟩ ⟨place', located', rfl⟩
  rw [located] at located'
  cases located'
  rfl

/-- The lines of a text say what its pieces say. -/
theorem countP_trimmed (text said : Text) :
    (Text.lines text).countP (fun line => line.trimmed == said) =
      (Text.pieces text).countP fun piece => Text.trim piece == said := by
  -- The endings of lines are blank.
  rw [← Text.map_piece_lines, List.countP_map]
  refine List.countP_congr fun line member => ?_
  rw [Function.comp_apply, ← Line.trimmed_eq member]

/-- What is said by one line only is said by no line before that line. -/
theorem first_of_once {text said piece : Text} {before behind : List Text}
    (split : Text.pieces text = before ++ piece :: behind) (here : Text.trim piece = said)
    (once : (Text.lines text).countP (fun line => line.trimmed == said) = 1) :
    ∀ earlier ∈ before, Text.trim earlier ≠ said := by
  -- It would be counted twice.
  intro earlier member early
  rw [countP_trimmed, split, List.countP_append, List.countP_cons_of_pos (by simp [here])] at once
  have counted : 0 < before.countP fun piece => Text.trim piece == said :=
    List.countP_pos_iff.2 ⟨earlier, member, by simp [early]⟩
  omega

/-- How the edits of a flush cut some lines of a text that stand behind other ones, and the text
that takes the place of these lines. -/
structure Cutting (text : Text) (before lines : List Text) (fields : List Field)
    (drafts : List Draft) (result : Text) where
  /-- The parts that the lines are cut into. -/
  parts : List Part
  /-- The edits of declarations. -/
  declarations : List Edit
  /-- The edits of bodies. -/
  bodies : List Edit
  /-- The parts make up the lines. -/
  old : parts.flatMap Part.old = lines.flatten
  /-- The new parts make up the new text. -/
  new : parts.flatMap Part.new = result
  /-- Each declaration that is rewritten has its edit. -/
  declared : List.Forall₂ (DeclarationEdit text) (fields.filter Field.rewritesDeclaration)
    declarations
  /-- Each body that is written has its edit. -/
  written : List.Forall₂ (BodyEdit text) (drafts.filter Draft.isWritten) bodies
  /-- There are no other edits. -/
  edits : ((Part.replacements before.flatten parts).map fun item => item.edit []).Perm
    (declarations ++ bodies)

namespace Cutting

variable {text : Text} {before lines : List Text} {fields : List Field} {drafts : List Draft}

/-- Cuttings of lines that follow each other are one cutting. -/
theorem append {more : List Text} {fields' : List Field} {drafts' : List Draft}
    {result result' : Text} (first : Cutting text before lines fields drafts result)
    (second : Cutting text (before ++ lines) more fields' drafts' result') :
    Nonempty (Cutting text before (lines ++ more) (fields ++ fields') (drafts ++ drafts')
      (result ++ result')) := by
  -- The edits of both are those of the one, with declarations before bodies.
  refine ⟨⟨first.parts ++ second.parts, first.declarations ++ second.declarations,
    first.bodies ++ second.bodies, by simp [first.old, second.old],
    by simp [first.new, second.new], ?_, ?_, ?_⟩⟩
  · rw [List.filter_append]
    exact List.rel_append first.declared second.declared
  · rw [List.filter_append]
    exact List.rel_append first.written second.written
  · have later := second.edits
    rw [List.flatten_append, ← first.old] at later
    rw [Part.replacements_append, List.map_append]
    refine (first.edits.append later).trans ?_
    rw [List.append_assoc, List.append_assoc]
    refine List.Perm.append_left _ ?_
    rw [← List.append_assoc, ← List.append_assoc]
    exact List.perm_append_comm.append_right _

/-- Lines for which nothing is written are not cut. -/
theorem kept (noDeclaration : fields.filter Field.rewritesDeclaration = [])
    (noBody : drafts.filter Draft.isWritten = []) :
    Nonempty (Cutting text before lines fields drafts lines.flatten) := by
  -- They are one kept part.
  exact ⟨⟨[.kept lines.flatten], [], [], by simp [Part.old], by simp [Part.new],
    by simp [noDeclaration], by simp [noBody], .refl _⟩⟩

/-- The first line that says a declaration that is rewritten is cut around the declaration. -/
theorem declaration {lead tail : Text} {behind : List Text} {field : Field}
    (split : Text.pieces text = before ++ (lead ++ field.declaration ++ tail) :: behind)
    (blankLead : ∀ c ∈ lead, Text.isBlank c) (blankTail : ∀ c ∈ tail, Text.isBlank c)
    (trimmed : Text.trim field.declaration = field.declaration) (spoken : field.declaration ≠ [])
    (first : ∀ earlier ∈ before, Text.trim earlier ≠ field.declaration)
    (rewrites : field.rewritesDeclaration = true) :
    Nonempty (Cutting text before [lead ++ field.declaration ++ tail] [field] []
      (lead ++ field.declarationText ++ tail)) := by
  -- The declaration is found on this line.
  obtain ⟨front, back, whole, rfl, -⟩ := Text.lines_of_pieces split
  generalize made : Line.ofPiece _ _ (lead ++ field.declaration ++ tail) = line at whole
  have piece : line.piece = lead ++ field.declaration ++ tail := by
    rw [← made, Line.piece_ofPiece]
  have said : line.trimmed = field.declaration := by
    rw [← made, Line.trimmed_ofPiece, Text.trim_append blankLead blankTail, trimmed]
  have indent : line.indent = lead := by
    rw [Line.indent_eq (said ▸ spoken), piece, Text.takeWhile_parts blankLead trimmed spoken]
  have here : SaidAt text field.declaration front line back := by
    refine ⟨whole, said, fun earlier member early => first _ (List.mem_map_of_mem member) ?_⟩
    rw [← Line.trimmed_eq (show earlier ∈ Text.lines text by rw [whole]; simp [member]), early]
  refine ⟨⟨[.kept lead, .edited field.declaration field.declarationText, .kept tail],
    [⟨⟨Text.byteLength (front.flatMap Line.piece ++ line.indent),
      Text.byteLength (front.flatMap Line.piece ++ line.indent ++ line.trimmed)⟩,
      field.declarationText⟩], [], by simp [Part.old], by simp [Part.new], ?_, by simp, ?_⟩⟩
  · rw [List.filter_cons_of_pos rewrites]
    exact .cons ⟨locateDeclaration_eq_some.2 ⟨front, line, back, here, rfl⟩, rfl⟩ .nil
  · simp [Part.replacements, Replacement.edit, List.flatMap_def, Nat.add_assoc, said, indent]

/-- A line is a header with a signature when it says so. -/
theorem isHeaderOf_eq {signature : Text} {line : Line} (inside : line ∈ Text.lines text) :
    isHeaderOf signature line = HeaderOf signature line.piece := by
  -- Blanks around what it says hold no words.
  rw [isHeaderOf, HeaderOf, Line.opensMethod_eq inside,
    Text.words_codePart line.content, ← Line.trimmed_eq inside, Line.trimmed]

/-- The pieces of a method are those of its lines, which are where the method is looked for. -/
theorem exists_methodAt {header terminator signature : Text} {inside behind : List Text}
    (split : Text.pieces text = before ++ header :: (inside ++ terminator :: behind))
    (here : HeaderOf signature header) (between : Inside inside)
    (closes : Text.tells ".end method".toList terminator)
    (first : ∀ piece ∈ before, HeaderOf signature piece = false) :
    ∃ front head middle last back, MethodAt text signature front head middle last back ∧
      before = front.map Line.piece ∧ header = head.piece ∧ inside = middle.map Line.piece ∧
      terminator = last.piece := by
  -- A line says what its piece says.
  rw [← Text.map_piece_lines] at split
  obtain ⟨front, rest, whole, rfl, behindFront⟩ := List.map_eq_append_iff.1 split
  obtain ⟨head, rest, rfl, rfl, behindHead⟩ := List.map_eq_cons_iff.1 behindFront
  obtain ⟨middle, rest, rfl, rfl, behindInside⟩ := List.map_eq_append_iff.1 behindHead
  obtain ⟨last, back, rfl, rfl, rfl⟩ := List.map_eq_cons_iff.1 behindInside
  have genuine : ∀ line ∈ front ++ head :: (middle ++ last :: back), line ∈ Text.lines text :=
    fun line member => by rw [whole]; exact member
  refine ⟨front, head, middle, last, back, ?_, rfl, rfl, rfl, rfl⟩
  refine ⟨whole, ?_, fun earlier member => ?_, ?_, fun line member => ?_⟩
  · rw [isHeaderOf_eq (genuine head (by simp))]
    exact here
  · rw [isHeaderOf_eq (genuine earlier (by simp [member]))]
    exact first _ (List.mem_map_of_mem member)
  · rw [Line.closesMethod_eq (genuine last (by simp))]
    exact closes
  · rw [Line.closesMethod_eq (genuine line (by simp [member]))]
    exact (between _ (List.mem_map_of_mem member)).2

/-- The lines of a method whose body is written are cut around the old body and the terminator. -/
theorem body {header terminator : Text} {inside behind : List Text} {draft : Draft}
    (split : Text.pieces text = before ++ header :: (inside ++ terminator :: behind))
    (named : HeaderOf draft.method.signature header) (between : Inside inside)
    (closes : Text.tells ".end method".toList terminator)
    (first : ∀ piece ∈ before, HeaderOf draft.method.signature piece = false)
    (written : draft.isWritten = true) :
    Nonempty (Cutting text before (header :: (inside ++ [terminator])) [] [draft]
      (header ++ draft.body ++ terminator)) := by
  -- The terminator is written again up to the blanks behind it.
  obtain ⟨front, head, middle, last, back, here, rfl, rfl, rfl, rfl⟩ :=
    exists_methodAt split named between closes first
  obtain ⟨tail, ends⟩ : ∃ tail, last.piece = last.indent ++ last.trimmed ++ tail :=
    ⟨Text.trailing (Text.trimStart last.content) ++ last.ending, by
      rw [Line.piece, ← List.append_assoc, last.content_eq]⟩
  refine ⟨⟨[.kept head.piece, .edited ((middle.map Line.piece).flatten ++
      (last.indent ++ last.trimmed)) (draft.body ++ (last.indent ++ last.trimmed)), .kept tail],
    [], [⟨⟨Text.byteLength ((front ++ [head]).flatMap Line.piece),
      Text.byteLength ((front ++ [head]).flatMap Line.piece ++ middle.flatMap Line.piece ++
        (last.indent ++ last.trimmed))⟩, draft.body ++ (last.indent ++ last.trimmed)⟩],
    ?_, ?_, by simp, ?_, ?_⟩⟩
  · simp [Part.old, ends]
  · simp [Part.new, ends]
  · rw [List.filter_cons_of_pos written]
    exact .cons ⟨_, locateMethod_eq_some.2 ⟨front, head, middle, last, back, here, rfl⟩, rfl⟩ .nil
  · simp [Part.replacements, Replacement.edit, List.flatMap_def, Nat.add_assoc]

/-- Making the edits of a cutting replaces the lines by the new text, in whatever order the edits
have been planned. -/
theorem substitute {result : Text} (cutting : Cutting text [] lines fields drafts result)
    (whole : lines.flatten = text) {edits : EditList}
    (perm : edits.edits.Perm (cutting.declarations ++ cutting.bodies)) :
    EditList.substituteFrom 0 edits.edits text = result := by
  -- The edits are kept in the order of the text, which is that of the parts.
  have same := EditList.eq_of_perm (perm.trans cutting.edits.symm)
    (Part.pairwise_replacements [] cutting.parts).2
  have made := EditList.substituteFrom_replacements [] [] cutting.parts
  rw [List.nil_append, List.nil_append, List.nil_append, cutting.old, whole, cutting.new] at made
  rw [same]
  exact made

end Cutting

end ClassText

end Smali
