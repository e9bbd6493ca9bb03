import Smali.Proofs.ClassText.Success
import Smali.Proofs.Rename.Collection

/-! Fields that are given strings keep them, because nothing else writes these fields any more. -/

namespace Smali

/-- A set of flags holds a flag that was added to it. -/
theorem AccessFlags.contains_union (flags wanted : AccessFlags) :
    (flags.union wanted).contains wanted := by
  -- Every bit that is wanted is set.
  rw [AccessFlags.union, AccessFlags.contains, beq_iff_eq]
  apply UInt32.eq_of_toBitVec_eq
  ext i
  simp only [UInt32.toBitVec_and, UInt32.toBitVec_or, BitVec.getElem_and, BitVec.getElem_or]
  cases wanted.bits.toBitVec[i] <;> simp

namespace Field

/-- A field that is given a string is static. -/
theorem isStatic_setValue (value : Text) (field : Field) : (field.setValue value).isStatic := by
  -- The modifier word is added if there is none.
  by_cases static : field.isStatic
  · have kept : (field.setValue value).modifiers = field.modifiers := if_pos static
    rw [isStatic, flags, kept]
    exact static
  · have added : (field.setValue value).modifiers = field.modifiers ++ ["static".toList] :=
      if_neg static
    have word : AccessFlags.ofKeyword? "static".toList = some AccessFlags.staticFlag := by decide
    rw [isStatic, flags, added, AccessFlags.ofModifiers, List.filterMap_append,
      List.filterMap_cons_some word, List.filterMap_nil, List.foldl_append]
    exact AccessFlags.contains_union _ _

/-- A declaration that is read says something. -/
theorem declaration_ne_nil {owner line : Text} {field : Field}
    (done : parse owner line = .ok field) : field.declaration ≠ [] := by
  -- It says the directive at least.
  have reading := reading_of_parse done
  obtain ⟨front, literal, ⟨body, behind, -⟩, -⟩ := reading.words
  rw [reading.fresh]
  intro nothing
  have nothing : Text.trim line = [] := nothing
  rw [nothing] at behind
  cases behind

/-- A field that was given a string is left with it by a flush. -/
theorem flushed_setValue (value : Text) (field : Field) :
    (field.setValue value).flushed.value = some (.str value) ∧
      (field.setValue value).flushed.isStatic ∧
      (field.setValue value).flushed.reference = field.reference :=
  -- The flush writes the declaration and nothing else.
  ⟨rfl, field.isStatic_setValue value, rfl⟩

end Field

/-- Removing assignments makes of a method what may take its place. -/
theorem Method.redrafted_clear {method : Method}
    (closed : ∀ piece ∈ Text.pieces method.body, Text.Closed piece)
    (between : ClassText.Inside (Text.pieces method.body)) (references : List Text) :
    method.Redrafted ((⟨method, none⟩ : ClassText.Draft).clear references) := by
  -- The lines that are left were there before, and the removed ones name nothing.
  have same := ClassText.Draft.method_clear references ⟨method, none⟩
  have body : ((⟨method, none⟩ : ClassText.Draft).clear references).body =
      cleared references method.body := ClassText.Draft.body_clear references ⟨method, none⟩
  have part : ∀ piece ∈ Text.pieces (cleared references method.body),
      piece ∈ Text.pieces method.body := by
    intro piece member
    rw [pieces_cleared] at member
    exact List.mem_of_mem_filter member
  refine ⟨by rw [same], fun piece member => closed piece (part piece (body ▸ member)),
    fun piece member => between piece (part piece (body ▸ member)), fun directive member => ?_,
    fun unwritten => ?_⟩
  · rw [body]
    simp only [ClassText.headDirectives, List.mem_cons, List.not_mem_nil, or_false] at member
    rcases member with rfl | rfl
    · exact firstSaying_cleared "class".toList references method.body
    · exact firstSaying_cleared "super".toList references method.body
  · rw [ClassText.Draft.body_unwritten unwritten, same]

namespace ClassText

/-- Strings that are given to the fields at some positions. -/
def valueChanges (chosen : List (Nat × Text)) : List MemberChange :=
  -- They are given in order.
  chosen.map fun choice => .field choice.1 (.setValue choice.2)

section Changes

variable (source : ClassText) {chosen : List (Nat × Text)}

/-- The methods stay when strings are given to fields. -/
theorem methods_valueChanges :
    (source.changes (valueChanges chosen)).methods = source.methods := by
  -- No change is one of a method.
  refine source.methods_changes_of_fields fun change member index => ?_
  obtain ⟨choice, -, rfl⟩ := List.mem_map.1 member
  rfl

/-- A position that is not listed is given no string. -/
theorem lookup_of_not_mem {index : Nat} (other : index ∉ chosen.map Prod.fst) :
    chosen.lookup index = none := by
  -- No string is for that position.
  refine List.lookup_eq_none_iff.2 fun choice member => ?_
  rw [bne_iff_ne]
  rintro rfl
  exact other (List.mem_map_of_mem member)

/-- Only the string for its own position changes a field. -/
theorem filterMap_valueChanges (single : (chosen.map Prod.fst).Nodup) (index : Nat) :
    (valueChanges chosen).filterMap (MemberChange.fieldChange? index) =
      ((chosen.lookup index).map FieldChange.setValue).toList := by
  -- Each position is given one string at most.
  induction chosen with
  | nil => rfl
  | cons choice rest ih =>
    obtain ⟨position, value⟩ := choice
    rw [List.map_cons, List.nodup_cons] at single
    have later := ih single.2
    have first : valueChanges ((position, value) :: rest) =
        .field position (.setValue value) :: valueChanges rest := rfl
    by_cases here : position = index
    · have change : MemberChange.fieldChange? index (.field position (.setValue value)) =
          some (.setValue value) := if_pos here
      have others : rest.lookup index = none := lookup_of_not_mem (here ▸ single.1)
      rw [first, List.filterMap_cons_some change, later, others, here, List.lookup_cons_self]
      rfl
    · have change : MemberChange.fieldChange? index (.field position (.setValue value)) = none :=
        if_neg here
      have other : (index == position) = false := by simpa using Ne.symm here
      rw [first, List.filterMap_cons_none change, later, List.lookup_cons, other]

/-- The field at a position gets the string for that position, if there is one. -/
theorem fields_valueChanges (single : (chosen.map Prod.fst).Nodup) (index : Nat) :
    (source.changes (valueChanges chosen)).fields[index]? = source.fields[index]?.map fun field =>
      match chosen.lookup index with
      | some value => field.setValue value
      | none => field := by
  -- The field at another position stays.
  rw [fields_changes, filterMap_valueChanges single]
  cases chosen.lookup index <;> rfl

/-- Every position that is listed is given its string. -/
theorem lookup_of_mem (single : (chosen.map Prod.fst).Nodup) {index : Nat} {value : Text}
    (given : (index, value) ∈ chosen) : chosen.lookup index = some value := by
  -- No earlier string is for that position.
  obtain ⟨front, back, rfl⟩ := List.append_of_mem given
  refine List.lookup_eq_some_iff.2 ⟨front, back, rfl, fun choice member => ?_⟩
  rw [bne_iff_ne]
  rintro rfl
  rw [List.map_append, List.nodup_append] at single
  exact single.2.2 choice.1 (List.mem_map_of_mem member) choice.1 (by simp) rfl

/-- A field that is listed gets its string. -/
theorem getElem?_valueChanges (single : (chosen.map Prod.fst).Nodup) {index : Nat} {value : Text}
    (given : (index, value) ∈ chosen) {declared : Field}
    (before : source.fields[index]? = some declared) :
    (source.changes (valueChanges chosen)).fields[index]? = some (declared.setValue value) := by
  -- It is the only string for its position.
  rw [source.fields_valueChanges single, before, lookup_of_mem single given]
  rfl

/-- The references of the fields at some positions, as the instructions of the class text use
them. -/
def declaredAt (positions : List Nat) (source : ClassText) : List Text :=
  -- A position without a field is passed over.
  positions.filterMap fun index => source.fields[index]?.map Field.declaredReference

/-- The fields with something to be written are those that are given strings. -/
theorem dirty_valueChanges (clean : source.isDirty = false)
    (single : (chosen.map Prod.fst).Nodup) {field : Field}
    (member : field ∈ (source.changes (valueChanges chosen)).fields) (dirty : field.dirty) :
    ∃ index value declared, (index, value) ∈ chosen ∧ source.fields[index]? = some declared ∧
      field = declared.setValue value := by
  -- The other fields have nothing to be written.
  obtain ⟨index, here⟩ := List.getElem?_of_mem member
  rw [source.fields_valueChanges single, Option.map_eq_some_iff] at here
  obtain ⟨declared, before, becomes⟩ := here
  cases given : chosen.lookup index with
  | some value =>
    rw [given] at becomes
    exact ⟨index, value, declared, List.mem_of_lookup given, before, becomes.symm⟩
  | none =>
    rw [given] at becomes
    have unchanged : declared ∈ source.fields := List.mem_of_getElem? before
    simp only [isDirty, Bool.or_eq_false_iff, List.any_eq_false, Bool.not_eq_true] at clean
    rw [← becomes, clean.1 declared unchanged] at dirty
    cases dirty

/-- Nothing but strings is still to be written. -/
theorem pending_valueChanges (clean : source.isDirty = false)
    (single : (chosen.map Prod.fst).Nodup) :
    ∀ field ∈ (source.changes (valueChanges chosen)).fields, field.dirty →
      ∃ value, field.pending = .scalar value := by
  -- Each field with changes was given one.
  intro field member dirty
  obtain ⟨-, value, declared, -, -, rfl⟩ := source.dirty_valueChanges clean single member dirty
  exact ⟨value, rfl⟩

/-- The assignments that a flush removes are those to the fields that are given strings. -/
theorem mem_declaredAt (clean : source.isDirty = false) (single : (chosen.map Prod.fst).Nodup)
    (reference : Text) :
    reference ∈ ((source.changes (valueChanges chosen)).fields.filter Field.dirty).map
        Field.declaredReference ↔ reference ∈ source.declaredAt (chosen.map Prod.fst) := by
  -- A string does not change the declared reference.
  rw [declaredAt, List.mem_filterMap]
  constructor
  · intro member
    obtain ⟨field, inside, rfl⟩ := List.mem_map.1 member
    obtain ⟨changed, dirty⟩ := List.mem_filter.1 inside
    obtain ⟨index, value, declared, given, before, rfl⟩ :=
      source.dirty_valueChanges clean single changed dirty
    refine ⟨index, List.mem_map_of_mem given, ?_⟩
    rw [before]
    rfl
  · rintro ⟨index, member, found⟩
    obtain ⟨declared, before, rfl⟩ := Option.map_eq_some_iff.1 found
    obtain ⟨⟨position, value⟩, given, same⟩ := List.mem_map.1 member
    have position' : position = index := same
    have inside := List.mem_of_getElem?
      (source.getElem?_valueChanges single (position' ▸ given) before)
    exact List.mem_map.2 ⟨declared.setValue value, List.mem_filter.2 ⟨inside, rfl⟩, rfl⟩

end Changes

/-- Fields at some positions have been given strings: they are static and have these strings as
their values, and of each method exactly the instructions that write one of them are gone. -/
structure GivenValues (chosen : List (Nat × Text)) (before after : ClassText) : Prop where
  /-- All other instructions are left, in the same order. -/
  methods : List.Forall₂ (fun method method' => method'.signature = method.signature ∧
      method'.instructions = method.instructions.filter
        (Instruction.spares (before.declaredAt (chosen.map Prod.fst))))
    before.methods after.methods
  /-- The fields are those that were declared, with their new values. -/
  values : ∀ choice ∈ chosen, ∃ declared field, before.fields[choice.1]? = some declared ∧
    after.fields[choice.1]? = some field ∧ field.reference = declared.declaredReference ∧
    field.isStatic ∧ field.value = some (.str choice.2)

/-- A flush that is one segment leaves a coherent class text. -/
theorem coherent_of_segment {source flushed : ClassText} (flushing : Flushing source flushed)
    (header : ∃ said, firstSaying ".class".toList (Text.pieces source.text) = some said ∧
      Header.parseClass said = .ok ⟨source.modifiers, source.descriptor⟩)
    (superclass : ∃ said, firstSaying ".super".toList (Text.pieces source.text) = some said ∧
      Header.parseSuper said = .ok source.superclass)
    (segment : Segment source.text source.descriptor [] (Text.pieces source.text) source.fields
      flushing.drafts) : flushed.Coherent := by
  -- The lines of the segment say what the flush leaves.
  have pieces : Text.pieces flushed.text = segment.pieces := pieces_of_segment flushing segment
  have named : ∀ directive ∈ headDirectives,
      firstSaying directive (Text.pieces flushed.text) =
        firstSaying directive (Text.pieces source.text) := by
    intro directive member
    rw [pieces, segment.heads directive member]
  have members := segment.reads .done
  rw [List.append_nil, List.append_nil, List.append_nil, ← pieces] at members
  have descriptor : flushed.descriptor = source.descriptor := by rw [flushing.result]
  have modifiers : flushed.modifiers = source.modifiers := by rw [flushing.result]
  have superclass' : flushed.superclass = source.superclass := by rw [flushing.result]
  refine coherent_iff.2 ⟨?_, ?_, ?_⟩
  · rw [named _ (by decide), modifiers, descriptor]
    exact header
  · rw [named _ (by decide), superclass']
    exact superclass
  · rw [descriptor, flushing.fields_eq, flushing.methods_eq]
    exact members

/-- What is read of a class text in which strings have been given to fields is one segment, in which
the assignments to these fields are gone. -/
theorem segment_valueChanges {source : ClassText} (chosen : List (Nat × Text))
    (reads : Reads source.descriptor (Text.pieces source.text) source.fields source.methods)
    (distinct : (source.methods.map Method.signature).Nodup)
    (once : ∀ field ∈ source.fields,
      (Text.lines source.text).countP (fun line => line.trimmed == field.declaration) = 1)
    (noEquals : ∀ field ∈ source.fields, ['='] ∉ field.modifiers) :
    Nonempty (Segment (source.changes (valueChanges chosen)).text
      (source.changes (valueChanges chosen)).descriptor []
      (Text.pieces (source.changes (valueChanges chosen)).text)
      (source.changes (valueChanges chosen)).fields
      (source.changes (valueChanges chosen)).clearedDrafts) := by
  -- No other change is made.
  rw [text_changes, descriptor_changes]
  have change : ∀ change ∈ valueChanges chosen, ∃ index value,
      change = .field index (.setValue value) := by
    intro change member
    obtain ⟨choice, -, rfl⟩ := List.mem_map.1 member
    exact ⟨choice.1, choice.2, rfl⟩
  -- A value is allowed for every field, and it is given to no method.
  have allowed : ∀ change ∈ valueChanges chosen, change.Allowed := by
    intro other member
    obtain ⟨index, value, rfl⟩ := change other member
    exact trivial
  have apart : Apart (valueChanges chosen) := by
    intro index values listed
    obtain ⟨position, value, same⟩ := change _ listed
    cases same
  -- The methods are read from bodies, and clearing a body leaves what is read of it.
  have redrafted : List.Forall₂ Method.Redrafted source.methods
      (source.changes (valueChanges chosen)).clearedDrafts := by
    rw [clearedDrafts, methods_valueChanges, List.forall₂_map_right_iff, List.forall₂_same]
    intro method member
    obtain ⟨closed, between⟩ := reads.enclosed (List.Sublist.refl _) member
    exact Method.redrafted_clear closed between _
  exact exists_segment_redrafted reads (List.nil_append _).symm
    (descends_fields reads noEquals allowed apart) redrafted once noEquals distinct (by simp)

/-- A flush gives the fields their strings and removes what else writes them. -/
theorem givenValues_of_flushing {source flushed : ClassText} {chosen : List (Nat × Text)}
    (clean : source.isDirty = false) (single : (chosen.map Prod.fst).Nodup)
    (there : ∀ choice ∈ chosen, choice.1 < source.fields.length)
    (fresh : ∀ field ∈ source.fields, field.declaredReference = field.reference)
    (flushing : Flushing (source.changes (valueChanges chosen)) flushed)
    (drafts : flushing.drafts = (source.changes (valueChanges chosen)).clearedDrafts) :
    GivenValues chosen source flushed := by
  -- The methods are those of the drafts, and the fields are settled.
  constructor
  · -- A method keeps its signature, and its instructions are those of the cleared body.
    rw [flushing.methods_eq, drafts, clearedDrafts, methods_valueChanges, List.map_map,
      List.forall₂_map_right_iff, List.forall₂_same]
    intro method _
    constructor
    · show (Draft.settled _).signature = _
      rw [Draft.settled, Draft.method_clear]
      rfl
    · refine Method.instructions_cleared ?_
      rw [← Method.cleared_congr (source.mem_declaredAt clean single) method.body]
      exact Draft.body_clear _ ⟨method, none⟩
  · -- A chosen field is written once, with the value chosen for it.
    intro choice member
    have inside := there choice member
    have before := List.getElem?_eq_getElem inside
    have after := source.getElem?_valueChanges single member before
    obtain ⟨value, static, reference⟩ :=
      Field.flushed_setValue choice.2 source.fields[choice.1]
    refine ⟨_, _, before, ?_, ?_, static, value⟩
    · rw [flushing.fields_eq, List.getElem?_map, after]
      rfl
    · rw [reference, fresh _ (List.getElem_mem _)]

/-- A class text in which strings have been given to fields is written, and it is coherent then and
has the strings as the values of these fields. -/
theorem flush_valueChanges {source : ClassText} {chosen : List (Nat × Text)}
    (coherent : source.Coherent) (clean : source.isDirty = false)
    (distinct : (source.methods.map Method.signature).Nodup)
    (once : ∀ field ∈ source.fields,
      (Text.lines source.text).countP (fun line => line.trimmed == field.declaration) = 1)
    (noEquals : ∀ field ∈ source.fields, ['='] ∉ field.modifiers)
    (nonempty : chosen ≠ []) (single : (chosen.map Prod.fst).Nodup)
    (there : ∀ choice ∈ chosen, choice.1 < source.fields.length) :
    ∃ flushed, (source.changes (valueChanges chosen)).flush = .ok flushed ∧ flushed.Coherent ∧
      GivenValues chosen source flushed := by
  -- The whole text is one segment.
  obtain ⟨header, superclass, reads⟩ := coherent_iff.1 coherent
  obtain ⟨segment⟩ := segment_valueChanges chosen reads distinct once noEquals
  -- A field that has been read has a declaration.
  have parsed : ∀ field ∈ source.fields, ∃ line,
      Field.parse source.descriptor line = .ok field := by
    intro field member
    obtain ⟨piece, -, parsed⟩ := reads.exists_field member
    exact ⟨_, parsed⟩
  have spoken : ∀ field ∈ (source.changes (valueChanges chosen)).fields,
      field.declaration ≠ [] := by
    intro field member
    have inside := (List.mem_map_of_mem member : field.declaration ∈ _)
    rw [declarations_changes] at inside
    obtain ⟨declared, inside, same⟩ := List.mem_map.1 inside
    obtain ⟨line, parsed⟩ := parsed declared inside
    rw [← same]
    exact Field.declaration_ne_nil parsed
  -- Some value is given, so that there is something to flush.
  have dirty : (source.changes (valueChanges chosen)).isDirty = true := by
    obtain ⟨choice, member⟩ := List.exists_mem_of_ne_nil chosen nonempty
    have before := List.getElem?_eq_getElem (there choice member)
    have after := List.mem_of_getElem? (source.getElem?_valueChanges single member before)
    rw [isDirty, Bool.or_eq_true, List.any_eq_true]
    exact .inl ⟨_, after, rfl⟩
  obtain ⟨flushed, done, flushing, drafts, -⟩ :=
    exists_flushing spoken segment.cutting
      (draftFields_drafts (source.pending_valueChanges clean single))
  have written : (source.changes (valueChanges chosen)).flush = .ok flushed := by
    rw [flush, if_pos dirty, done]
    rfl
  refine ⟨flushed, written, ?_, ?_⟩
  · refine coherent_of_segment flushing ?_ ?_ (drafts ▸ segment)
    · rw [text_changes, modifiers_changes, descriptor_changes]
      exact header
    · rw [text_changes, superclass_changes]
      exact superclass
  · refine givenValues_of_flushing clean single there (fun field member => ?_) flushing drafts
    obtain ⟨line, parsed⟩ := parsed field member
    rw [(Field.reading_of_parse parsed).fresh]
    rfl

end ClassText

/-- Strings that are given to fields of a document that has been read are written, and then nothing
else writes these fields, neither in the members that the flush leaves nor in those that are read
from the new text. -/
theorem Document.flush_values {options : ParseOptions} {text : Text} {document : Document}
    (read : parse options text = .ok document)
    (distinct : (document.methods.map Method.signature).Nodup)
    (once : ∀ field ∈ document.fields,
      (Text.lines document.text).countP (fun line => line.trimmed == field.declaration) = 1)
    (noEquals : ∀ field ∈ document.fields, ['='] ∉ field.modifiers)
    {chosen : List (Nat × Text)} (nonempty : chosen ≠ []) (single : (chosen.map Prod.fst).Nodup)
    (there : ∀ choice ∈ chosen, choice.1 < document.fields.length) :
    ∃ flushed fresh,
      (document.withSource (document.changes (ClassText.valueChanges chosen))).flush =
        .ok flushed ∧
      ClassText.parse flushed.text = .ok fresh ∧
      ClassText.GivenValues chosen document.toClassText flushed.toClassText ∧
      ClassText.GivenValues chosen document.toClassText fresh := by
  -- A document that has been read is coherent and has nothing to be written.
  have settled : document.Settled := settled_of_parse read
  obtain ⟨flushed, done, coherent', values⟩ := ClassText.flush_valueChanges settled.coherent
    settled.clean distinct once noEquals nonempty single there
  obtain ⟨fresh, parsed, -, -, -, fields, methods⟩ := coherent'
  refine ⟨_, fresh, bind_eq_ok.2 ⟨flushed, done, rfl⟩, parsed, values, ?_⟩
  exact ⟨methods ▸ values.methods, fields ▸ values.values⟩

/-- A document whose method writes both fields, and reads the first one. -/
def Document.sampleWriters : Document :=
  -- Only one of the instructions writes the first field.
  let body := " sput v0, LA;->x:LB;\r\n sput v1, LA;->y:I\n sget v0, LA;->x:LB;\n".toList
  .ofClassText {
    text := ".class LA;\n.super LB;\n.field x:LB;\n.field y:I\n.method m()V\n".toList ++ body ++
      ".end method\n".toList
    descriptor := "LA;".toList
    modifiers := []
    superclass := "LB;".toList
    fields := [
      ⟨"LA;".toList, [], ['x'], "LB;".toList, none, ".field x:LB;".toList, "LA;->x:LB;".toList,
        none, .unchanged, false⟩,
      ⟨"LA;".toList, [], ['y'], ['I'], none, ".field y:I".toList, "LA;->y:I".toList, none,
        .unchanged, false⟩]
    methods := [⟨"LA;".toList, [], ['m'], [], [], ['V'], body, false⟩]
    diagnostics := [] }

/-- Of the sample only the instruction that writes the field with the string is removed. -/
theorem Document.flush_values_sample : ∃ flushed fresh : ClassText,
    flushed.text = (".class LA;\n.super LB;\n.field static x:LB; = \"\\n\\\"\"\n.field y:I\n" ++
      ".method m()V\n sput v1, LA;->y:I\n sget v0, LA;->x:LB;\n.end method\n").toList ∧
    ClassText.parse flushed.text = .ok fresh ∧
    ClassText.GivenValues [(0, "\n\"".toList)] sampleWriters.toClassText flushed ∧
    ClassText.GivenValues [(0, "\n\"".toList)] sampleWriters.toClassText fresh := by
  -- The text of the sample is read as the sample, and the flush succeeds.
  have source : ClassText.parse sampleWriters.text = .ok sampleWriters.toClassText := by
    decide +kernel
  have read : parse {} sampleWriters.text = .ok sampleWriters := bind_eq_ok.2 ⟨_, source, rfl⟩
  obtain ⟨flushed, fresh, done, again, written, declared⟩ := Document.flush_values read
    (by decide +kernel) (by decide +kernel) (by decide +kernel)
    (List.cons_ne_nil (0, "\n\"".toList) []) (by decide) (by decide)
  refine ⟨flushed.toClassText, fresh, ?_, again, written, declared⟩
  have text : (sampleWriters.withSource (sampleWriters.changes
      (ClassText.valueChanges [(0, "\n\"".toList)]))).flush.map (fun flushed => flushed.text) =
      .ok (".class LA;\n.super LB;\n.field static x:LB; = \"\\n\\\"\"\n.field y:I\n" ++
        ".method m()V\n sput v1, LA;->y:I\n sget v0, LA;->x:LB;\n.end method\n").toList := by
    decide +kernel
  rw [done] at text
  exact Except.ok.inj text

end Smali
