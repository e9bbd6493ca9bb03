import Smali.Proofs.ClassText.Keeping
import Smali.Proofs.Rename.Collection

/-! Strings and bodies that are written leave every body in its method exactly if nothing that is
written is repeated earlier in the text. -/

namespace Smali

/-- A call that gives a field a string or a method a body. -/
inductive WriteCall where
  /-- The field at a position is given a string. -/
  | setValue (index : Nat) (value : Text)
  /-- The first method with a reference is given a body. -/
  | setBody (reference body : Text)
  deriving DecidableEq, Repr

/-- What callers keep to when they give a field a string or a method a body. -/
def WriteCall.Allowed : WriteCall → Prop
  -- Strings may be any.
  | setValue _ _ => True
  | setBody _ body => (MethodChange.setBody body).Allowed

/-- Whether callers may make a call can be decided. -/
instance (call : WriteCall) : Decidable call.Allowed :=
  -- Only bodies are looked at.
  match call with
  | .setValue _ _ => .isTrue trivial
  | .setBody _ body => inferInstanceAs (Decidable (MethodChange.setBody body).Allowed)

namespace ClassText

/-- The class text after a call that gives a string or a body. -/
def writeCall (source : ClassText) : WriteCall → ClassText
  -- Where there is no such member nothing changes.
  | .setValue index value => source.change (.field index (.setValue value))
  | .setBody reference body => source.modifyMethod reference (Method.setBody body)

/-- The class text after several such calls, one after the other. -/
def writeCalls (source : ClassText) (calls : List WriteCall) : ClassText :=
  -- Each call finds what the calls before it have left.
  calls.foldl writeCall source

/-- The references of the fields that have changed. -/
def givenReferences (source : ClassText) : List Text :=
  -- The class text still uses the declared ones.
  (source.fields.filter Field.dirty).map Field.declaredReference

/-- Every body stays in its method when the changes of a class text are written. -/
structure KeepsBodies (source : ClassText) : Prop where
  /-- A method that repeats the signature of an earlier one writes no field that has changed. -/
  methods : source.methods.Pairwise fun method later => later.signature = method.signature →
    ∀ instruction ∈ later.instructions, instruction.spares source.givenReferences
  /-- A declaration that is first said in a method stays as it is. -/
  fields : ∀ field ∈ source.fields, field.dirty → ∀ front line back,
    SaidAt source.text field.declaration front line back → standsInside front →
      field.declarationText = field.declaration
  /-- The class is named without the bodies that are replaced. -/
  header : ∃ header, readHeader
    (linesWithout (source.methods.map Method.dirty) false (Text.lines source.text)) = .ok header
  /-- The superclass is named without the bodies that are replaced. -/
  superclass : ∃ superclass, readSuper source.descriptor
    (linesWithout (source.methods.map Method.dirty) false (Text.lines source.text)) = .ok superclass

end ClassText

/-- A field is what strings that are given to it make of the one that was read. -/
structure Field.Valued (declared field : Field) : Prop where
  /-- The declaration in the text stays. -/
  declaration : field.declaration = declared.declaration
  /-- What the declaration says before the value are words. -/
  solid : ∀ word ∈ field.saidWords, IsWord word
  /-- A field that has changed has a string, which is still to be written. -/
  given : field.dirty → ∃ text, field.pending = .scalar text ∧ field.value = some (.str text)

/-- Another string may be given to a field. -/
theorem Field.Valued.setValue {declared field : Field} (valued : declared.Valued field)
    (text : Text) : declared.Valued (field.setValue text) := by
  -- The modifier words may grow by one.
  refine ⟨valued.declaration, fun word member => ?_, fun _ => ⟨text, rfl, rfl⟩⟩
  have cases' : word ∈ field.saidWords ∨ word = "static".toList := by
    simp only [saidWords, Field.setValue, List.mem_append, List.mem_singleton] at member ⊢
    split at member
    · exact .inl member
    · rcases member with member | same
      · rcases List.mem_append.1 member with member | member
        · exact .inl (.inl member)
        · exact .inr (List.mem_singleton.1 member)
      · exact .inl (.inr same)
  rcases cases' with member | rfl
  · exact valued.solid word member
  · exact isWord_static

/-- The declaration of a field that was given a string may stand on a line. -/
theorem Field.Valued.declarable {declared field : Field} (valued : declared.Valued field)
    (dirty : field.dirty) : ClassText.Declarable field.declarationText := by
  -- The string ends it.
  obtain ⟨text, -, value⟩ := valued.given dirty
  exact ClassText.declarable_str valued.solid value

/-- The declaration of a field is written exactly if the field has changed. -/
theorem Field.Valued.rewrites_eq {declared field : Field} (valued : declared.Valued field) :
    field.rewritesDeclaration = field.dirty := by
  -- A string is always written.
  cases dirty : field.dirty with
  | false => rw [rewritesDeclaration, dirty, Bool.false_and]
  | true =>
    obtain ⟨text, pending, -⟩ := valued.given dirty
    simp [rewritesDeclaration, dirty, pending]

/-- A method is what bodies that are given to it make of the one that was read. -/
structure Method.Refilled (read method : Method) : Prop where
  /-- The signature stays. -/
  signature : method.signature = read.signature
  /-- A method that has not changed has the body that was read. -/
  kept : method.dirty = false → method.body = read.body
  /-- A body that was given may stand in a class text. -/
  plain : method.dirty → PlainBody method.body

/-- Another body may be given to a method. -/
theorem Method.Refilled.setBody {read method : Method} (refilled : read.Refilled method)
    {body : Text} (allowed : (MethodChange.setBody body).Allowed) :
    read.Refilled (method.setBody body) :=
  -- The method has changed from then on.
  ⟨refilled.signature, nofun, fun _ => plainBody_of_allowed allowed⟩

namespace ClassText

/-- A class text is what calls that give strings and bodies make of the one that was read. -/
structure Called (source changed : ClassText) : Prop where
  /-- The text stays. -/
  text : changed.text = source.text
  /-- The fields have been given strings. -/
  fields : List.Forall₂ Field.Valued source.fields changed.fields
  /-- The methods have been given bodies. -/
  methods : List.Forall₂ Method.Refilled source.methods changed.methods
  /-- Only the first method with a signature has been given one. -/
  first : changed.methods.Pairwise fun method later =>
    later.dirty → later.signature ≠ method.signature

/-- Giving a body to the first method with a signature leaves later ones as they are. -/
theorem pairwise_setBody {methods : List Method} {signature : Text} {index : Nat}
    (first : methods.Pairwise fun method later =>
      later.dirty → later.signature ≠ method.signature)
    (found : methods.findIdx? (fun method => method.signature == signature) = some index)
    (body : Text) : (methods.modify index (Method.setBody body)).Pairwise fun method later =>
      later.dirty → later.signature ≠ method.signature := by
  -- Methods before the one that is found have other signatures.
  induction methods generalizing index with
  | nil => simp at found
  | cons method rest ih =>
    rw [List.pairwise_cons] at first
    rw [List.findIdx?_cons] at found
    by_cases here : method.signature == signature
    · -- Only the method in front changes, and it comes before no other of its signature.
      rw [if_pos here, Option.some.injEq] at found
      subst found
      exact List.pairwise_cons.2 ⟨first.1, first.2⟩
    · rw [if_neg here, Option.map_eq_some_iff] at found
      obtain ⟨index, found, rfl⟩ := found
      rw [List.modify_succ_cons]
      refine List.pairwise_cons.2 ⟨fun later member dirty => ?_, ih first.2 found⟩
      obtain ⟨position, there⟩ := List.getElem?_of_mem member
      rw [List.getElem?_modify] at there
      obtain ⟨old, before, rfl⟩ := Option.map_eq_some_iff.1 there
      obtain ⟨short, named, -⟩ := List.findIdx?_eq_some_iff_getElem.1 found
      by_cases same : index = position
      · -- The method that is found has the signature, which the one in front has not.
        rw [← same, List.getElem?_eq_getElem short, Option.some.injEq] at before
        rw [before] at named
        rw [if_pos same]
        intro equal
        exact here (equal ▸ named)
      · rw [if_neg same] at dirty ⊢
        exact first.1 old (List.mem_of_getElem? before) dirty

/-- One more call gives a string or a body. -/
theorem Called.writeCall {source changed : ClassText} (called : Called source changed)
    {call : WriteCall} (allowed : call.Allowed) : Called source (changed.writeCall call) := by
  -- Each call changes one member.
  cases call with
  | setValue index value =>
    exact { called with
      fields := called.fields.modify_right (fun _ _ valued => valued.setValue value) index }
  | setBody reference body =>
    rw [ClassText.writeCall, modifyMethod]
    cases found : changed.methodIndex? reference with
    | none => exact called
    | some index =>
      obtain ⟨signature, -, found⟩ := Option.bind_eq_some_iff.1 found
      exact { called with
        methods := called.methods.modify_right (fun _ _ refilled => refilled.setBody allowed) index
        first := pairwise_setBody called.first found body }

/-- Several calls give strings and bodies. -/
theorem Called.writeCalls {source changed : ClassText} (called : Called source changed)
    {calls : List WriteCall} (allowed : ∀ call ∈ calls, call.Allowed) :
    Called source (changed.writeCalls calls) := by
  -- The calls are made one after the other.
  induction calls generalizing changed with
  | nil => exact called
  | cons call rest ih =>
    rw [List.forall_mem_cons] at allowed
    exact ih (called.writeCall allowed.1) allowed.2

/-- What has been read has not been called yet. -/
theorem called_of_reads {source : ClassText} {owner : Text}
    (reads : Reads owner (Text.pieces source.text) source.fields source.methods) :
    Called source source := by
  -- Nothing has changed, and declarations say words.
  refine ⟨rfl, List.forall₂_same.2 fun field member => ⟨rfl, ?_, fun dirty => ?_⟩,
    List.forall₂_same.2 fun method member => ⟨rfl, fun _ => rfl, fun dirty => ?_⟩,
    List.pairwise_of_forall_mem_list fun method _ later member dirty => ?_⟩
  · obtain ⟨piece, -, parsed⟩ := reads.exists_field member
    exact (Field.reading_of_parse parsed).saidWords
  · rw [reads.clean.1 field member] at dirty
    cases dirty
  · rw [reads.clean.2 method member] at dirty
    cases dirty
  · rw [reads.clean.2 later member] at dirty
    cases dirty

/-- Some lines of a text without some of the bodies are some of these lines. -/
theorem linesWithout_sublist (emptied : List Bool) (gone : Bool) (lines : List Line) :
    (linesWithout emptied gone lines).Sublist lines := by
  -- Each line stays or goes.
  induction lines generalizing emptied gone with
  | nil => simp [linesWithout]
  | cons line rest ih =>
    rw [linesWithout]
    split
    · exact (ih _ _).cons_cons line
    · split
      · exact (ih _ _).cons_cons line
      · split
        · exact (ih _ _).cons line
        · exact (ih _ _).cons_cons line

/-- A text that declares the same methods for every class is read exactly if its headers are, and
then it declares these methods. -/
theorem exists_parse_iff {text : Text} {signatures bodies : List Text}
    (reads : ∀ owner, ∃ fields methods, Reads owner (Text.pieces text) fields methods ∧
      methods.map Method.signature = signatures ∧ methods.map Method.body = bodies)
    (Holds : List Text → List Text → Prop) :
    (∃ fresh, parse text = .ok fresh ∧
        Holds (fresh.methods.map Method.signature) (fresh.methods.map Method.body)) ↔
      (∃ header, readHeader (Text.lines text) = .ok header) ∧
        (∃ owner superclass, readSuper owner (Text.lines text) = .ok superclass) ∧
        Holds signatures bodies := by
  -- The members are always read.
  have members (owner : Text) : ∃ reading, readMembers owner (Text.lines text) = .ok reading ∧
      reading.methods.reverse.map Method.signature = signatures ∧
      reading.methods.reverse.map Method.body = bodies := by
    obtain ⟨fields, methods, reads, same, same'⟩ := reads owner
    obtain ⟨reading, done, complete, -, listed⟩ := readLines_of_reads reads (fun _ => id)
      (Text.map_piece_lines text) (show (Reading.mk none [] [] []).opened = none from rfl)
    refine ⟨reading, readMembers_ok.2 ⟨done, complete⟩, ?_, ?_⟩ <;>
      rw [listed, List.append_nil, List.reverse_reverse]
    · exact same
    · exact same'
  constructor
  · rintro ⟨fresh, parsed, holds⟩
    obtain ⟨header, superclass, reading, named, extended, read, rfl⟩ := parse_eq_ok.1 parsed
    -- The members come out the same for every class.
    obtain ⟨reading', read', same, same'⟩ := members header.descriptor
    rw [read, Except.ok.injEq] at read'
    subst read'
    rw [same, same'] at holds
    exact ⟨⟨header, named⟩, ⟨header.descriptor, superclass, extended⟩, holds⟩
  · rintro ⟨⟨header, named⟩, ⟨owner, superclass, extended⟩, holds⟩
    obtain ⟨reading, read, same, same'⟩ := members header.descriptor
    rw [readSuper_ok] at extended
    refine ⟨_, parse_eq_ok.2 ⟨header, superclass, reading, named, readSuper_ok.2 extended, read,
      rfl⟩, ?_⟩
    rw [same, same']
    exact holds

/-- A block serves a method that was read from it and may have been given a body. -/
def Block.Serves (owner : Text) (block : Block) (method : Method) : Prop :=
  -- The header stays the same.
  ∃ read, block.Declares owner read ∧ read.Refilled method

/-- What a flush makes of a method of which the assignments to fields that have changed go. -/
def draft (source : ClassText) (method : Method) : Draft :=
  -- The draft does not depend on the other methods.
  (⟨method, none⟩ : Draft).clear source.givenReferences

/-- The draft is for the method. -/
@[simp] theorem method_draft (source : ClassText) (method : Method) :
    (source.draft method).method = method :=
  -- Only the body is rewritten.
  Draft.method_clear _ _

/-- The draft has the body without the assignments. -/
theorem body_draft (source : ClassText) (method : Method) :
    (source.draft method).body = Method.cleared source.givenReferences method.body :=
  -- Nothing else has rewritten the body.
  Draft.body_clear _ _

section Called

variable {source changed flushed : ClassText} (called : Called source changed)
  (flushing : Flushing changed flushed) (drafted : flushing.drafts = changed.clearedDrafts)

include drafted in
/-- The draft of a method is written if the method has changed or assignments go. -/
theorem isWritten_draft {method : Method} (member : method ∈ changed.methods) :
    (changed.draft method).isWritten = (method.dirty ||
      Method.cleared changed.givenReferences method.body != method.body) := by
  -- A body from which lines go does not come out the same.
  have runs := flushing.runs
  rw [drafted, clearedDrafts, List.forall₂_map_left_iff, List.forall₂_map_right_iff,
    List.forall₂_same] at runs
  have run : Draft.Run changed.fields ⟨method, none⟩ (changed.draft method) := runs method member
  rw [run.isWritten_eq, body_draft]

/-- A method that has not changed has the body of the block that serves it. -/
theorem Block.Serves.body {owner : Text} {block : Block} {method : Method}
    (serves : block.Serves owner method) (clean : method.dirty = false) :
    method.body = block.body := by
  -- The body was read from the block.
  obtain ⟨read, declares, refilled⟩ := serves
  obtain ⟨-, -, -, body, -⟩ := Method.exists_of_parse declares
  exact (refilled.kept clean).trans body

include drafted in
/-- A block that serves a method awaits its draft. -/
theorem Block.Serves.awaits {owner : Text} {block : Block} {method : Method}
    (serves : block.Serves owner method) (member : method ∈ changed.methods)
    (opened : block.header.opensWith ".method".toList)
    (parts : Text.pieces block.body = block.inside.map Line.piece) :
    block.Awaits (changed.draft method) := by
  -- A body that is written without having been set has lost assignments.
  have written := isWritten_draft flushing drafted member
  constructor
  · -- The signature is the last word of the header that was read.
    obtain ⟨read, declares, refilled⟩ := serves
    have said : Text.tells ".method".toList block.header.content := by
      rwa [Line.opensWith_eq_opens _ (by decide)] at opened
    rw [Block.Declares, ← parse_method_trimmed] at declares
    rw [isHeaderOf, opened, Bool.true_and, beq_iff_eq, Text.words_codePart, method_draft,
      refilled.signature]
    exact Method.signature_of_parse said declares
  · intro unwritten
    rw [written, Bool.or_eq_false_iff, bne_eq_false_iff_eq] at unwritten
    rw [body_draft, unwritten.2, serves.body unwritten.1]
  · rw [method_draft, written]
    intro changed' clean
    rw [clean, Bool.false_or, bne_iff_ne] at changed'
    rw [body_draft, Method.pieces_cleared, serves.body clean, parts, ← List.length_map Line.piece]
    refine List.length_filter_lt_length_iff_exists.2 ?_
    -- A body of which no line is removed has not changed.
    by_contra spared
    refine changed' ?_
    rw [Method.cleared, serves.body clean, parts, List.filter_eq_self.2 fun piece inside => ?_,
      Block.body, List.flatMap_def]
    by_contra assigns
    exact spared ⟨piece, inside, assigns⟩

include called drafted in
/-- Each draft that is written is found at its own method exactly if no method that repeats a
signature writes a field that has changed. -/
theorem firsts_iff : Firsts Draft.isWritten [] changed.clearedDrafts ↔
    changed.methods.Pairwise fun method later => later.signature = method.signature →
      ∀ instruction ∈ later.instructions, instruction.spares changed.givenReferences := by
  -- A method that repeats a signature has been given no body.
  have written {method : Method} (member : method ∈ changed.methods) :=
    isWritten_draft flushing drafted member
  -- The first method of a signature alone may be written.
  have pairs : Firsts Draft.isWritten [] changed.clearedDrafts ↔
      changed.methods.Pairwise fun method later =>
        (changed.draft later).isWritten → later.signature ≠ method.signature := by
    simp only [Firsts, clearedDrafts, List.not_mem_nil, false_implies, implies_true, true_and,
      List.pairwise_map, Draft.method_clear]
    exact Iff.rfl
  rw [pairs]
  constructor
  · intro apart
    refine apart.imp_of_mem fun {method later} _ member different same => ?_
    have unwritten := mt different (not_not.2 same)
    rw [Bool.not_eq_true, written member, Bool.or_eq_false_iff, bne_eq_false_iff_eq] at unwritten
    exact Method.cleared_eq_iff.1 unwritten.2
  · intro spared
    -- A method that repeats a signature was not set, so that it is written for lines that it lost.
    refine (spared.and called.first).imp_of_mem fun {method later} _ member both again same => ?_
    rw [written member, Method.cleared_eq_iff.2 (both.1 same), bne_self_eq_false,
      Bool.or_false] at again
    exact both.2 again same

include called in
/-- No declaration in a method changes exactly if none does that is first said there. -/
theorem spared_iff : Spared (changed.fields.filter Field.rewritesDeclaration) []
      (Text.lines changed.text) ↔
    ∀ field ∈ changed.fields, field.dirty → ∀ front line back,
      SaidAt changed.text field.declaration front line back → standsInside front →
        field.declarationText = field.declaration := by
  -- The declarations that are written are those of fields that have changed.
  have rewrites : ∀ field ∈ changed.fields, field.rewritesDeclaration = field.dirty := by
    intro field member
    obtain ⟨declared, -, valued⟩ := List.exists_of_mem_right called.fields member
    exact valued.rewrites_eq
  constructor
  · intro spared field member dirty front line back here inside
    refine spared front line back here.split inside field (mem_fieldsIn.2 ⟨?_, ?_⟩)
    · exact List.mem_filter.2 ⟨member, (rewrites field member).trans dirty⟩
    · exact ⟨here.first, line, List.mem_singleton_self line, here.said⟩
  · intro same before line behind split inside field member
    obtain ⟨member, first, other, here, said⟩ := mem_fieldsIn.1 member
    obtain ⟨member, written⟩ := List.mem_filter.1 member
    rw [List.mem_singleton.1 here] at said
    exact same field member ((rewrites field member).symm.trans written) before line behind
      ⟨split, said, first⟩ inside

variable (changed) in
/-- The draft of a method names a class or a superclass as its block, or not at all if the method
has been given a body. -/
theorem Block.Serves.firstSaying_eq {owner directive : Text} {block : Block} {method : Method}
    (serves : block.Serves owner method) (member : directive ∈ headDirectives)
    (parts : Text.pieces block.body = block.inside.map Line.piece) :
    firstSaying directive (Text.pieces (changed.draft method).body) =
      firstSaying directive (if method.dirty then [] else block.inside.map Line.piece) := by
  -- The lines that go say no directive.
  have cleared : firstSaying directive (Text.pieces (changed.draft method).body) =
      firstSaying directive (Text.pieces method.body) := by
    rw [body_draft]
    simp only [headDirectives, List.mem_cons, List.not_mem_nil, or_false] at member
    rcases member with rfl | rfl
    · exact Method.firstSaying_cleared "class".toList _ method.body
    · exact Method.firstSaying_cleared "super".toList _ method.body
  rw [cleared]
  cases dirty : method.dirty with
  | false => rw [serves.body dirty, parts, if_neg Bool.false_ne_true]
  | true =>
    obtain ⟨read, -, refilled⟩ := serves
    exact Segment.firstSaying_none fun piece inside => (refilled.plain dirty piece inside).2 _
      ((by decide : headDirectives ⊆ Method.structuralDirectives) member)

end Called

/-- The declarations of fields that have been given strings may stand on lines, before and after. -/
theorem Called.declarable {source changed : ClassText} {owner : Text}
    (called : Called source changed)
    (reads : Reads owner (Text.pieces source.text) source.fields source.methods) :
    ∀ field ∈ changed.fields, Declarable field.declaration ∧
      (field.rewritesDeclaration → Declarable field.declarationText) := by
  -- The declarations of the text were read from lines.
  obtain ⟨layout, -, fits⟩ := reads.exists_layout (fun _ => Text.isPiece_of_mem_pieces)
    (Text.pieces_pairwise source.text)
  intro field member
  obtain ⟨declared, inside, valued⟩ := List.exists_of_mem_right called.fields member
  refine ⟨?_, fun rewrites => valued.declarable (valued.rewrites_eq.symm.trans rewrites)⟩
  rw [valued.declaration]
  exact fits.declarable _ (List.mem_map_of_mem inside)

/-- The drafts of methods that may have been given bodies may stand in their blocks. -/
theorem Called.enclosable {source changed : ClassText} {owner : Text}
    (called : Called source changed)
    (reads : Reads owner (Text.pieces source.text) source.fields source.methods) :
    ∀ draft ∈ changed.clearedDrafts, Enclosable draft.body := by
  -- A body is one that was given or one that was read.
  intro draft member
  obtain ⟨method, inside, rfl⟩ := List.mem_map.1 member
  obtain ⟨read, inside', refilled⟩ := List.exists_of_mem_right called.methods inside
  have encloses : Enclosable method.body := by
    cases dirty : method.dirty with
    | false =>
      rw [refilled.kept dirty]
      obtain ⟨closed, between⟩ := reads.enclosed (List.Sublist.refl _) inside'
      exact ⟨closed, between⟩
    | true =>
      have plain := refilled.plain dirty
      exact ⟨fun piece listed => (plain piece listed).1, fun piece listed =>
        ⟨(plain piece listed).2 _ (by decide), (plain piece listed).2 _ (by decide)⟩⟩
  exact (body_draft changed method).symm ▸ encloses.cleared _

/-- What a flush leaves behind calls that give strings and bodies: the bodies that are read again,
when they are those of the drafts, and how the class and its superclass are named then. -/
theorem Called.exists_bodies {source changed flushed : ClassText}
    (called : Called source changed) (read : parse source.text = .ok source)
    (flushing : Flushing changed flushed) (drafted : flushing.drafts = changed.clearedDrafts) :
    ∃ bodies, (∀ owner, ∃ fields methods, Reads owner (Text.pieces flushed.text) fields methods ∧
        methods.map Method.signature = source.methods.map Method.signature ∧
        methods.map Method.body = bodies) ∧
      (bodies = changed.clearedDrafts.map Draft.body ↔
        Firsts Draft.isWritten [] changed.clearedDrafts ∧
          Spared (changed.fields.filter Field.rewritesDeclaration) [] (Text.lines changed.text)) ∧
      (bodies = changed.clearedDrafts.map Draft.body → ∀ directive ∈ headDirectives,
        firstSaying directive (Text.pieces flushed.text) = firstSaying directive
          ((linesWithout (changed.methods.map Method.dirty) false
            (Text.lines changed.text)).map Line.piece)) := by
  -- The lines of the text give way one by one, block by block.
  have reads := (coherent_iff.1 ⟨source, read, rfl, rfl, rfl, rfl, rfl⟩).members
  obtain ⟨outside, blocks, parted, declares⟩ := exists_parted_of_parse read
  rw [← called.text] at parted
  have serves : List.Forall₂ (Block.Serves source.descriptor) blocks changed.methods :=
    declares.trans_of (fun _ read _ declares refilled => ⟨read, declares, refilled⟩) called.methods
  have declarable : ∀ field ∈ changed.fields.filter Field.rewritesDeclaration,
      Declarable field.declaration ∧ Declarable field.declarationText := by
    intro field member
    obtain ⟨member, rewrites⟩ := List.mem_filter.1 member
    exact (called.declarable reads field member).imp_right fun new => new rewrites
  -- Each part of the text gives way to what the flush writes there.
  obtain ⟨pieces, bodies, become, text⟩ := flushing.exists_parts
    (fun field member _ => (called.declarable reads field member).1) parted
  rw [drafted] at become
  have genuine : ∀ line ∈ Text.lines changed.text, line ∈ Text.lines changed.text := fun _ => id
  have apart := Text.pieces_pairwise changed.text
  rw [← Text.map_piece_lines] at apart
  -- The parts that are written are still made of lines.
  obtain ⟨single, apart', enclosable⟩ := become.apart declarable genuine apart fun draft member =>
    called.enclosable reads draft (List.mem_filter.1 member).1
  have left : Text.pieces flushed.text = pieces := by
    rw [text]
    exact Text.pieces_flatten single apart'
  rw [left]
  refine ⟨bodies, become.exists_reads declarable genuine declares enclosable, ?_, ?_⟩
  · -- A draft that was set belongs to the first block of its signature.
    have awaits : List.Forall₂ Block.Awaits blocks changed.clearedDrafts :=
      List.forall₂_map_right_iff.2 <| serves.imp_mem fun block member method member' serves =>
        serves.awaits flushing drafted member' (parted.exists_lines member).1
          (parted.pieces_body member)
    exact become.bodies_iff declarable rfl genuine apart awaits
      (fun draft member written => List.mem_filter.2 ⟨member, written⟩)
      (fun draft member => ⟨(List.mem_filter.1 member).2, .inl (List.mem_filter.1 member).1⟩)
      ⟨by simp, List.pairwise_map.2 (called.first.imp fun first => by
        simpa only [Draft.method_clear] using first)⟩
  · rintro rfl directive member
    -- A body that was set no longer names a class, and the others name what they did.
    have parts := serves.imp_mem fun block inside method _ serves =>
      And.intro (parted.pieces_body inside) serves
    have heads := parts.zip_map (fun block body (gone : Bool) =>
      firstSaying directive (Text.pieces body) =
        firstSaying directive (if gone then [] else block.inside.map Line.piece))
      fun block method both => both.2.firstSaying_eq changed member both.1
    rw [clearedDrafts, List.map_map] at become
    exact become.firstSaying_eq declarable genuine member heads

/-- The class and its superclass are named alike by texts whose first lines that say so agree. -/
theorem exists_heads_iff (owner : Text) {text text' : Text} {lines : List Line}
    (genuine : ∀ line ∈ lines, line ∈ Text.lines text')
    (same : ∀ directive ∈ headDirectives, firstSaying directive (Text.pieces text) =
      firstSaying directive (lines.map Line.piece)) :
    ((∃ header, readHeader (Text.lines text) = .ok header) ↔
        ∃ header, readHeader lines = .ok header) ∧
      ((∃ owner superclass, readSuper owner (Text.lines text) = .ok superclass) ↔
        ∃ superclass, readSuper owner lines = .ok superclass) := by
  -- Which class is meant does not matter for the superclass.
  simp only [readHeader_ok, readSuper_ok, readHeader_of_lines genuine, readSuper_of_lines genuine,
    same _ (show ".class".toList ∈ headDirectives by decide),
    same _ (show ".super".toList ∈ headDirectives by decide), exists_const, and_self]

/-- The text that a flush leaves behind calls that give strings and bodies is read back with all
methods and their bodies exactly if these stay in their methods. -/
theorem Called.reread_iff {source changed flushed : ClassText} (called : Called source changed)
    (read : parse source.text = .ok source) (done : changed.flush = .ok flushed) :
    (∃ fresh, parse flushed.text = .ok fresh ∧
        List.Forall₂ (fun left fresh => fresh.signature = left.signature ∧ fresh.body = left.body)
          flushed.methods fresh.methods) ↔ changed.KeepsBodies := by
  -- The bodies that are read are compared with those of the drafts.
  -- Nothing but strings was given to fields, so that the flush builds no list.
  have given : ∀ field ∈ changed.fields, field.dirty → ∃ value, field.pending = .scalar value := by
    intro field member dirty
    obtain ⟨declared, -, valued⟩ := List.exists_of_mem_right called.fields member
    exact (valued.given dirty).imp fun _ => And.left
  obtain ⟨flushing, drafted⟩ := exists_flushing_cleared given done
  obtain ⟨bodies, reads, same, heads⟩ := called.exists_bodies read flushing drafted
  have methods : flushed.methods = changed.clearedDrafts.map Draft.settled := by
    rw [flushing.methods_eq, drafted]
  have signatures : source.methods.map Method.signature =
      flushed.methods.map Method.signature := by
    rw [methods, clearedDrafts, List.map_map, List.map_map]
    refine called.methods.map_eq _ _ fun read _ method _ refilled => ?_
    have kept : (changed.draft method).settled.signature = method.signature := by
      change (changed.draft method).method.signature = method.signature
      rw [method_draft]
    exact refilled.signature.symm.trans kept.symm
  have bodies' : flushed.methods.map Method.body = changed.clearedDrafts.map Draft.body := by
    rw [methods, List.map_map]
    rfl
  simp only [List.forall₂_and_map]
  rw [exists_parse_iff reads fun signatures bodies =>
    signatures = flushed.methods.map Method.signature ∧
      bodies = flushed.methods.map Method.body, bodies', and_iff_right signatures]
  have genuine := (linesWithout_sublist (changed.methods.map Method.dirty) false
    (Text.lines changed.text)).subset
  constructor
  · rintro ⟨header, superclass, equal⟩
    -- The lines that name the class and the superclass are those outside the bodies that were set.
    obtain ⟨named, extended⟩ := exists_heads_iff changed.descriptor genuine (heads equal)
    obtain ⟨firsts, spared⟩ := same.1 equal
    exact ⟨(firsts_iff called flushing drafted).1 firsts, (spared_iff called).1 spared,
      named.1 header, extended.1 superclass⟩
  · intro keeps
    have equal := same.2 ⟨(firsts_iff called flushing drafted).2 keeps.methods,
      (spared_iff called).2 keeps.fields⟩
    obtain ⟨named, extended⟩ := exists_heads_iff changed.descriptor genuine (heads equal)
    exact ⟨named.2 keeps.header, extended.2 keeps.superclass, equal⟩

end ClassText

/-- Whatever members a text repeats, what a flush leaves behind calls that give strings to fields
and bodies to methods is read back with every method and its body exactly if no method that repeats
a signature writes one of these fields, no declaration that changes is first said in a method, and
the class and its superclass are named without the bodies that are replaced. -/
theorem Document.flush_bodies_iff {options : ParseOptions} {text : Text}
    {document flushed : Document} (read : parse options text = .ok document)
    {calls : List WriteCall} (allowed : ∀ call ∈ calls, call.Allowed)
    (done : (document.withSource (document.writeCalls calls)).flush = .ok flushed) :
    (∃ fresh, ClassText.parse flushed.text = .ok fresh ∧
        List.Forall₂ (fun left fresh => fresh.signature = left.signature ∧ fresh.body = left.body)
          flushed.methods fresh.methods) ↔ (document.writeCalls calls).KeepsBodies := by
  -- The calls leave the text that was read.
  have settled : document.Settled := settled_of_parse read
  simp only [Document.flush, bind_eq_ok, pure_eq_ok] at done
  obtain ⟨source, flushing, rfl⟩ := done
  exact ((ClassText.called_of_reads settled.reads).writeCalls allowed).reread_iff settled flushing

/-- A document whose methods repeat a signature. -/
def Document.repeatedSample (body : Text) : Document where
  -- The second method has a body of its own.
  text := ".class La;\n.super Lo;\n.field static z:I = 0x1\n.method m()V\nnop\n".toList ++
    (".end method\n.method m()V\n".toList ++ body ++ ".end method\n".toList)
  descriptor := "La;".toList
  modifiers := []
  superclass := "Lo;".toList
  fields := [⟨"La;".toList, ["static".toList], ['z'], ['I'], some (.raw "0x1".toList),
    ".field static z:I = 0x1".toList, "La;->z:I".toList, none, .unchanged, false⟩]
  methods := [⟨"La;".toList, [], ['m'], [], [], ['V'], "nop\n".toList, false⟩,
    ⟨"La;".toList, [], ['m'], [], [], ['V'], body, false⟩]
  diagnostics := []
  path := none
  origin := none
  modified := false

/-- When the second method writes no field, the body that is given to the first one stays in it. -/
theorem Document.flush_bodies_sample :
    let document := repeatedSample "return-void\n".toList
    let calls : List WriteCall :=
      [.setValue 0 ['x'], .setBody "La;->m()V".toList "throw v0\n".toList]
    ∃ flushed, (document.withSource (document.writeCalls calls)).flush = .ok flushed ∧
      flushed.methods.map Method.body = ["throw v0\n".toList, "return-void\n".toList] ∧
      (document.writeCalls calls).KeepsBodies := by
  -- The flush succeeds, and what it leaves is read back.
  intro document calls
  have source : ClassText.parse document.text = .ok document.toClassText := by
    decide +kernel
  have read : parse {} document.text = .ok document := bind_eq_ok.2 ⟨_, source, rfl⟩
  have run : (document.withSource (document.writeCalls calls)).flush.map (fun flushed =>
      (flushed.methods.map Method.body, (ClassText.parse flushed.text).map fun fresh =>
        (fresh.methods.map Method.signature = flushed.methods.map Method.signature : Bool) &&
          (fresh.methods.map Method.body = flushed.methods.map Method.body : Bool))) =
      .ok (["throw v0\n".toList, "return-void\n".toList], .ok true) := by
    decide +kernel
  cases made : (document.withSource (document.writeCalls calls)).flush with
  | error error =>
    rw [made] at run
    cases run
  | ok flushed =>
    rw [made] at run
    obtain ⟨bodies, again⟩ := Prod.mk.inj (Except.ok.inj run)
    refine ⟨flushed, rfl, bodies, (Document.flush_bodies_iff read (by decide +kernel) made).1 ?_⟩
    cases reread : ClassText.parse flushed.text with
    | error error =>
      rw [reread] at again
      cases again
    | ok fresh =>
      rw [reread] at again
      have same := Except.ok.inj again
      rw [Bool.and_eq_true, decide_eq_true_eq, decide_eq_true_eq] at same
      exact ⟨fresh, rfl, List.forall₂_and_map.2 same⟩

/-- When the second method writes the field that is given a string, its new body takes the place of
the first one. -/
theorem Document.flush_bodies_repeatedSample :
    let document := repeatedSample "sput v0, La;->z:I\nreturn-void\n".toList
    ClassText.parse document.text = .ok document.toClassText ∧
    ∃ flushed fresh,
      (document.withSource (document.writeCalls [.setValue 0 ['x']])).flush = .ok flushed ∧
      ClassText.parse flushed.text = .ok fresh ∧
      flushed.methods.map Method.body = ["nop\n".toList, "return-void\n".toList] ∧
      fresh.methods.map Method.body =
        ["return-void\n".toList, "sput v0, La;->z:I\nreturn-void\n".toList] := by
  -- The flush and the reading are evaluated.
  intro document
  refine ⟨by decide +kernel, ?_⟩
  have run : (document.withSource (document.writeCalls [.setValue 0 ['x']])).flush.map
      (fun flushed => (flushed.methods.map Method.body,
        (ClassText.parse flushed.text).map fun fresh => fresh.methods.map Method.body)) =
      .ok (["nop\n".toList, "return-void\n".toList],
        .ok ["return-void\n".toList, "sput v0, La;->z:I\nreturn-void\n".toList]) := by
    decide +kernel
  cases made : (document.withSource (document.writeCalls [.setValue 0 ['x']])).flush with
  | error error =>
    rw [made] at run
    cases run
  | ok flushed =>
    rw [made] at run
    obtain ⟨bodies, again⟩ := Prod.mk.inj (Except.ok.inj run)
    cases reread : ClassText.parse flushed.text with
    | error error =>
      rw [reread] at again
      cases again
    | ok fresh =>
      rw [reread] at again
      exact ⟨flushed, fresh, rfl, reread, bodies, Except.ok.inj again⟩

end Smali
