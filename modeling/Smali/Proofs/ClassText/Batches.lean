import Smali.Proofs.ClassText.Layout
import Smali.Proofs.ClassText.Values
import Mathlib.Data.List.Nodup

/-! Strings can be given to fields in any order, and written all at once or one by one. -/

namespace Smali

namespace Field

/-- The field with a string written into its declaration, if it is given one. -/
def endowed (value : Option Text) (field : Field) : Field :=
  -- Without a string nothing is written.
  match value with
  | some value => (field.setValue value).flushed
  | none => field

/-- A string leaves the name and the type. -/
theorem reference_endowed (value : Option Text) (field : Field) :
    (field.endowed value).reference = field.reference := by
  -- Only the value and the modifiers change.
  cases value <;> rfl

/-- A string leaves the reference that instructions use. -/
theorem declaredReference_endowed (value : Option Text) {field : Field}
    (fresh : field.declaredReference = field.reference) :
    (field.endowed value).declaredReference = field.declaredReference := by
  -- The present reference is the declared one.
  cases value with
  | none => rfl
  | some value => exact fresh.symm

end Field

namespace ClassText

/-- Positions with the same strings in another order tell the same of each position. -/
theorem lookup_perm {chosen others : List (Nat × Text)} (perm : chosen.Perm others)
    (single : (chosen.map Prod.fst).Nodup) (index : Nat) :
    chosen.lookup index = others.lookup index := by
  -- Each position has one string at most.
  cases found : chosen.lookup index with
  | some value =>
    have member : (index, value) ∈ others := perm.subset (List.mem_of_lookup found)
    exact (lookup_of_mem ((perm.map Prod.fst).nodup single) member).symm
  | none =>
    refine (List.lookup_eq_none_iff.2 fun choice member => ?_).symm
    exact List.lookup_eq_none_iff.1 found choice (perm.symm.subset member)

/-- The class text with other members, whose text is the layout with their declarations and
bodies. -/
def remade (layout : List Stretch) (fields : List Field) (methods : List Method)
    (source : ClassText) : ClassText :=
  -- The class itself stays.
  { source with
    text := (filled layout (fields.map Field.declaration) (methods.map Method.body)).flatten
    fields := fields
    methods := methods }

/-- The class text with strings given to the fields at some positions and all of it written. -/
def endowed (layout : List Stretch) (chosen : List (Nat × Text)) (source : ClassText) : ClassText :=
  -- The assignments to these fields are gone.
  source.remade layout ((source.changes (valueChanges chosen)).fields.map Field.flushed)
    (source.methods.map fun method =>
      { method with body := Method.cleared (source.declaredAt (chosen.map Prod.fst)) method.body })

/-- The assignments to the fields that are given strings are gone from the methods. -/
theorem methods_endowed (layout : List Stretch) (chosen : List (Nat × Text))
    (source : ClassText) : (source.endowed layout chosen).methods = source.methods.map fun method =>
      { method with
        body := Method.cleared (source.declaredAt (chosen.map Prod.fst)) method.body } :=
  -- This is how the methods are made.
  rfl

/-- The references at some positions come before those at others. -/
theorem declaredAt_append (positions others : List Nat) (source : ClassText) :
    source.declaredAt (positions ++ others) =
      source.declaredAt positions ++ source.declaredAt others :=
  -- The positions are looked up in order.
  List.filterMap_append

/-- The signatures stay the same. -/
theorem signatures_endowed (layout : List Stretch) (chosen : List (Nat × Text))
    (source : ClassText) : (source.endowed layout chosen).methods.map Method.signature =
      source.methods.map Method.signature := by
  -- Only bodies change.
  rw [methods_endowed, List.map_map]
  rfl

/-- The lines of the bodies are some of those that were there before. -/
theorem pieces_endowed (layout : List Stretch) (chosen : List (Nat × Text)) (source : ClassText) :
    (((source.endowed layout chosen).methods.map Method.body).flatMap Text.pieces).Sublist
      ((source.methods.map Method.body).flatMap Text.pieces) := by
  -- Those that write one of the fields are gone.
  have left : ((source.endowed layout chosen).methods.map Method.body).flatMap Text.pieces =
      ((source.methods.map Method.body).flatMap Text.pieces).filter fun piece =>
        Instruction.spares (source.declaredAt (chosen.map Prod.fst))
          (Instruction.decode piece) := by
    rw [methods_endowed, List.filter_flatMap, List.flatMap_map, List.flatMap_map,
      List.flatMap_map]
    exact List.flatMap_congr fun method _ => Method.pieces_cleared _ method.body
  rw [left]
  exact List.filter_sublist

/-- Strings can be given to the fields at some positions and be written. -/
structure Endowable (layout : List Stretch) (positions : List Nat) (source : ClassText) :
    Prop where
  /-- The lines are the layout with the declarations and the bodies. -/
  split : filled layout (source.fields.map Field.declaration) (source.methods.map Method.body) =
    Text.pieces source.text
  /-- Declarations and bodies may stand in the layout. -/
  fits : Fits layout (source.fields.map Field.declaration) (source.methods.map Method.signature)
    (source.methods.map Method.body)
  /-- Every field is read from its declaration. -/
  parsed : ∀ field ∈ source.fields, Field.parse source.descriptor field.declaration = .ok field
  /-- No modifier looks like the sign before the value. -/
  noEquals : ∀ field ∈ source.fields, ['='] ∉ field.modifiers
  /-- No two fields have the same reference. -/
  references : (source.fields.map Field.reference).Nodup
  /-- No two methods have the same signature. -/
  distinct : (source.methods.map Method.signature).Nodup
  /-- No method has anything to be written. -/
  clean : ∀ method ∈ source.methods, method.dirty = false
  /-- No other line says what the declaration at one of the positions says. -/
  once : ∀ position ∈ positions, ∀ field, source.fields[position]? = some field →
    (Text.lines source.text).countP (fun line => line.trimmed == field.declaration) = 1

namespace Endowable

variable {layout : List Stretch} {positions : List Nat} {source : ClassText}
  (endowable : Endowable layout positions source)

include endowable

/-- A field can be written. -/
theorem writable {field : Field} (member : field ∈ source.fields) : field.Writable := by
  -- It is read from a single line.
  have reading := Field.reading_of_parse (endowable.parsed field member)
  exact reading.writable (endowable.noEquals field member)
    (endowable.fits.declarable _ (List.mem_map_of_mem member)).single

/-- A field that is read has nothing to be written, and instructions use its reference. -/
theorem fresh {field : Field} (member : field ∈ source.fields) :
    field.dirty = false ∧ field.declaredReference = field.reference := by
  -- This is how fields are read.
  rw [(Field.reading_of_parse (endowable.parsed field member)).fresh]
  exact ⟨rfl, rfl⟩

/-- Nothing is still to be written. -/
theorem isDirty : source.isDirty = false := by
  -- Neither fields nor methods have changes.
  simp only [ClassText.isDirty, Bool.or_eq_false_iff, List.any_eq_false, Bool.not_eq_true]
  exact ⟨fun field member => (endowable.fresh member).1, endowable.clean⟩

/-- A field is read from its declaration also after a string has been written. -/
theorem parse_endowed {field : Field} (member : field ∈ source.fields) (value : Option Text) :
    Field.parse source.descriptor (field.endowed value).declaration =
      .ok (field.endowed value) := by
  -- What is written can be read.
  cases value with
  | none => exact endowable.parsed field member
  | some value =>
    have owner : field.owner = source.descriptor := by
      rw [(Field.reading_of_parse (endowable.parsed field member)).fresh]
    rw [← owner]
    exact Field.parse_declarationText ((endowable.writable member).toRestorable.setValue value)

/-- The field at a position has the string for that position written, if there is one. -/
theorem getElem?_endowed {chosen : List (Nat × Text)} (single : (chosen.map Prod.fst).Nodup)
    (index : Nat) : (source.endowed layout chosen).fields[index]? =
      source.fields[index]?.map (Field.endowed (chosen.lookup index)) := by
  -- The other fields have nothing to be written.
  show ((source.changes (valueChanges chosen)).fields.map Field.flushed)[index]? = _
  rw [List.getElem?_map, source.fields_valueChanges single, Option.map_map]
  cases here : source.fields[index]? with
  | none => rfl
  | some field =>
    cases chosen.lookup index with
    | some value => rfl
    | none =>
      have clean := (endowable.fresh (List.mem_of_getElem? here)).1
      simp [Field.flushed, clean, Field.endowed]

/-- Each field has its string written, if it was given one. -/
theorem forall₂_endowed {chosen : List (Nat × Text)} (single : (chosen.map Prod.fst).Nodup) :
    List.Forall₂ (fun field field' => field ∈ source.fields ∧ ∃ value, field' = field.endowed value)
      source.fields (source.endowed layout chosen).fields :=
  -- They are looked at position by position.
  List.forall₂_of_getElem? _ (endowable.getElem?_endowed single) fun _ _ member =>
    ⟨member, _, rfl⟩

/-- The drafts of methods have the bodies without the assignments to the fields with strings. -/
theorem settled_clearedDrafts {chosen : List (Nat × Text)}
    (single : (chosen.map Prod.fst).Nodup) :
    (source.changes (valueChanges chosen)).clearedDrafts.map Draft.settled =
      (source.endowed layout chosen).methods := by
  -- The references are those of the fields that are given strings.
  rw [clearedDrafts, methods_valueChanges, List.map_map]
  refine List.map_congr_left fun method member => ?_
  rw [Function.comp_apply, Draft.settled, Draft.method_clear, Draft.body_clear,
    Method.cleared_congr (source.mem_declaredAt endowable.isDirty single)]
  have clean := endowable.clean method member
  cases method
  simp_all [Draft.body]

/-- A draft that is not written has the body that stands in the text. -/
theorem leaves_clearedDrafts {chosen : List (Nat × Text)} (single : (chosen.map Prod.fst).Nodup) :
    List.zipWith Draft.leaves (source.changes (valueChanges chosen)).clearedDrafts
        (source.methods.map Method.body) =
      (source.endowed layout chosen).methods.map Method.body := by
  -- Only other bodies are written.
  rw [← endowable.settled_clearedDrafts single, clearedDrafts, methods_valueChanges,
    List.zipWith_map, List.zipWith_self, List.map_map, List.map_map]
  refine List.map_congr_left fun method _ => ?_
  have same := Draft.leaves_body ((⟨method, none⟩ : Draft).clear
    (((source.changes (valueChanges chosen)).fields.filter Field.dirty).map
      Field.declaredReference))
  rw [Draft.method_clear] at same
  exact same

/-- The strings are written by a flush. -/
theorem flush {chosen : List (Nat × Text)} (single : (chosen.map Prod.fst).Nodup)
    (inside : ∀ choice ∈ chosen, choice.1 ∈ positions) :
    (source.changes (valueChanges chosen)).flush = .ok (source.endowed layout chosen) := by
  -- The lines are cut where the declarations and the bodies stand.
  have declared := source.declarations_changes (valueChanges chosen)
  have signed : (source.changes (valueChanges chosen)).clearedDrafts.map
      (fun draft => draft.method.signature) = source.methods.map Method.signature := by
    rw [clearedDrafts, methods_valueChanges, List.map_map]
    exact List.map_congr_left fun method _ =>
      congrArg Method.signature (Draft.method_clear _ ⟨method, none⟩)
  -- Only a field that was given a string is written, and one line alone says its declaration.
  have once : ∀ field ∈ (source.changes (valueChanges chosen)).fields, field.rewritesDeclaration →
      (Text.lines source.text).countP (fun line => line.trimmed == field.declaration) = 1 := by
    intro field member rewrites
    have marked : field.dirty := (Bool.and_eq_true_iff.1 rewrites).1
    obtain ⟨index, value, declared, listed, before, rfl⟩ :=
      source.dirty_valueChanges endowable.isDirty single member marked
    exact endowable.once index (inside _ listed) declared before
  have spoken : ∀ field ∈ (source.changes (valueChanges chosen)).fields,
      field.declaration ≠ [] := fun field member =>
    (endowable.fits.declarable _ (declared ▸ List.mem_map_of_mem member)).ne_nil
  -- The layout tells where the text is cut, and the flush writes along the cuts.
  obtain ⟨cutting⟩ := endowable.fits.exists_cutting declared signed
    (show Text.pieces source.text = [] ++ _ from endowable.split.symm) once endowable.distinct
    (by simp)
  rw [endowable.split] at cutting
  rw [← source.text_changes (valueChanges chosen)] at cutting
  obtain ⟨flushed, done, flushing, drafts, text⟩ :=
    exists_flushing spoken cutting
      (draftFields_drafts (source.pending_valueChanges endowable.isDirty single))
  -- What is left has the members and the text of the source with its strings.
  have methods : flushed.methods = (source.endowed layout chosen).methods := by
    rw [flushing.methods_eq, drafts, endowable.settled_clearedDrafts single]
  have text' : flushed.text = (source.endowed layout chosen).text := by
    have written : (source.endowed layout chosen).fields.map Field.declaration =
        (source.changes (valueChanges chosen)).fields.map fun field => field.flushed.declaration :=
      List.map_map
    rw [text, endowable.leaves_clearedDrafts single, ← written]
    rfl
  have result : flushed = { source.changes (valueChanges chosen) with
      text := flushed.text, fields := flushed.fields, methods := flushed.methods } := by
    rw [flushing.result]
  rw [methods, text', flushing.fields_eq, changes_kept] at result
  rw [flush_eq, done, result]
  rfl

/-- The references stay the same. -/
theorem references_endowed {chosen : List (Nat × Text)}
    (single : (chosen.map Prod.fst).Nodup) :
    (source.endowed layout chosen).fields.map Field.reference =
      source.fields.map Field.reference := by
  -- A string changes neither the name nor the type.
  refine ((endowable.forall₂_endowed single).map_eq _ _ fun field _ field' _ here => ?_).symm
  obtain ⟨-, value, rfl⟩ := here
  exact (field.reference_endowed value).symm

/-- Declarations and bodies may stand in the layout after strings have been written. -/
theorem fits_endowed {chosen : List (Nat × Text)} (single : (chosen.map Prod.fst).Nodup) :
    Fits layout ((source.endowed layout chosen).fields.map Field.declaration)
      ((source.endowed layout chosen).methods.map Method.signature)
      ((source.endowed layout chosen).methods.map Method.body) := by
  -- Some declarations are written again, and some bodies lose lines.
  rw [signatures_endowed]
  refine endowable.fits.refill ?_ ?_ ?_ ?_
  · rw [List.forall_mem_map]
    intro field member
    obtain ⟨declared, -, inside, value, rfl⟩ :=
      List.exists_of_mem_right (endowable.forall₂_endowed single) member
    cases value with
    | none => exact endowable.fits.declarable _ (List.mem_map_of_mem inside)
    | some value =>
      have allowed : (FieldChange.setValue value).Allowed := trivial
      exact declarable_declarationText ((endowable.writable inside).apply allowed)
  · rw [methods_endowed, List.forall_mem_map, List.forall_mem_map]
    exact fun method member =>
      (endowable.fits.enclosable _ (List.mem_map_of_mem member)).cleared _
  · simpa using (endowable.forall₂_endowed single).length_eq.symm
  · simp [methods_endowed]

/-- Only the field itself declares what it declares, also after strings have been written. -/
theorem eq_of_declaration_endowed {declared field : Field} (inside : declared ∈ source.fields)
    (member : field ∈ source.fields) {value : Option Text}
    (same : (declared.endowed value).declaration = field.declaration) : declared = field := by
  -- What is declared has the reference of the field.
  have read := endowable.parse_endowed inside value
  rw [same, endowable.parsed field member] at read
  refine List.inj_on_of_nodup_map endowable.references inside member ?_
  rw [Except.ok.inj read, Field.reference_endowed]

/-- A declaration is not among the declarations more often after strings have been written. -/
theorem count_declarations_endowed {chosen : List (Nat × Text)}
    (single : (chosen.map Prod.fst).Nodup) {field : Field} (member : field ∈ source.fields) :
    ((source.endowed layout chosen).fields.map Field.declaration).count field.declaration ≤
      (source.fields.map Field.declaration).count field.declaration := by
  -- No other field comes to declare the same.
  have related : List.Forall₂
      (fun before after => after = field.declaration → before = field.declaration)
      (source.fields.map Field.declaration)
      ((source.endowed layout chosen).fields.map Field.declaration) := by
    rw [List.forall₂_map_left_iff, List.forall₂_map_right_iff]
    refine (endowable.forall₂_endowed single).imp ?_
    rintro declared _ ⟨inside, value, rfl⟩ same
    rw [endowable.eq_of_declaration_endowed inside member same]
  exact related.count_le fun _ same => same rfl

/-- A declaration of the class is said once if it was before strings have been written. -/
theorem once_endowed {chosen : List (Nat × Text)} (single : (chosen.map Prod.fst).Nodup)
    {field : Field} (member : field ∈ source.fields)
    (kept : field ∈ (source.endowed layout chosen).fields)
    (once : (Text.lines source.text).countP (fun line => line.trimmed == field.declaration) = 1) :
    (Text.lines (source.endowed layout chosen).text).countP
      (fun line => line.trimmed == field.declaration) = 1 := by
  -- No line comes to a body, and the field is still there.
  obtain ⟨around, counted⟩ := exists_count layout field.declaration
  have fits := endowable.fits_endowed single
  have pieces : Text.pieces (source.endowed layout chosen).text = filled layout
      ((source.endowed layout chosen).fields.map Field.declaration)
      ((source.endowed layout chosen).methods.map Method.body) := fits.pieces_filled
  have declarations := endowable.count_declarations_endowed single member
  have bodies : (((source.endowed layout chosen).methods.map Method.body).flatMap
      Text.pieces).countP (fun piece => Text.trim piece == field.declaration) ≤
      ((source.methods.map Method.body).flatMap Text.pieces).countP
        fun piece => Text.trim piece == field.declaration :=
    (pieces_endowed layout chosen source).countP_le
  have there : 0 < ((source.endowed layout chosen).fields.map Field.declaration).count
      field.declaration := List.count_pos_iff.2 (List.mem_map_of_mem kept)
  rw [countP_trimmed, ← endowable.split, counted endowable.fits] at once
  rw [countP_trimmed, pieces, counted fits]
  omega

/-- After strings have been written, others can be given to the fields at other positions. -/
theorem endowed {chosen : List (Nat × Text)} (single : (chosen.map Prod.fst).Nodup)
    {left : List Nat} (inside : ∀ position ∈ left, position ∈ positions)
    (apart : ∀ position ∈ left, position ∉ chosen.map Prod.fst) :
    Endowable layout left (source.endowed layout chosen) := by
  -- The fields at the other positions are those that were there before.
  have fits := endowable.fits_endowed single
  have each : ∀ field ∈ (source.endowed layout chosen).fields, ∃ declared ∈ source.fields,
      ∃ value, field = declared.endowed value := by
    intro field member
    obtain ⟨declared, -, here⟩ :=
      List.exists_of_mem_right (endowable.forall₂_endowed single) member
    exact ⟨declared, here⟩
  refine ⟨fits.pieces_filled.symm, fits, ?_, ?_, ?_, ?_, ?_, ?_⟩
  · intro field member
    obtain ⟨declared, before, value, rfl⟩ := each field member
    exact endowable.parse_endowed before value
  · intro field member
    obtain ⟨declared, before, value, rfl⟩ := each field member
    cases value with
    | none => exact endowable.noEquals declared before
    | some value => exact ((endowable.writable before).setValue value).noEquals
  · rw [endowable.references_endowed single]
    exact endowable.references
  · rw [signatures_endowed]
    exact endowable.distinct
  · exact List.forall_mem_map.2 endowable.clean
  · intro position member field here
    -- A field whose string is still to come has the declaration that it had.
    have other := lookup_of_not_mem (apart position member)
    have before := here
    rw [endowable.getElem?_endowed single, other, Option.map_eq_some_iff] at before
    obtain ⟨declared, before, rfl⟩ := before
    exact endowable.once_endowed single (List.mem_of_getElem? before) (List.mem_of_getElem? here)
      (endowable.once position (inside position member) declared before)

/-- The reference at a position stays the one that instructions use. -/
theorem declaredAt_endowed {chosen : List (Nat × Text)} (single : (chosen.map Prod.fst).Nodup)
    (others : List Nat) :
    (source.endowed layout chosen).declaredAt others = source.declaredAt others := by
  -- A string changes neither the name nor the type.
  refine List.filterMap_congr fun index _ => ?_
  rw [endowable.getElem?_endowed single, Option.map_map]
  cases here : source.fields[index]? with
  | none => rfl
  | some field =>
    exact congrArg some (Field.declaredReference_endowed _
      (endowable.fresh (List.mem_of_getElem? here)).2)

/-- Strings that are written one after the other are written as if all at once. -/
theorem endowed_endowed {first second : List (Nat × Text)}
    (single : ((first ++ second).map Prod.fst).Nodup) :
    (source.endowed layout first).endowed layout second =
      source.endowed layout (first ++ second) := by
  -- The members are the same, and they make up the text.
  have positions : ((first.map Prod.fst) ++ second.map Prod.fst).Nodup := List.map_append ▸ single
  obtain ⟨single', single'', apart⟩ := List.nodup_append.1 positions
  have again : Endowable layout [] (source.endowed layout first) :=
    endowable.endowed single' (by simp) (by simp)
  -- A position is in one of the two lists at most, so that no string covers another.
  have fields : ((source.endowed layout first).endowed layout second).fields =
      (source.endowed layout (first ++ second)).fields := by
    refine List.ext_getElem? fun index => ?_
    rw [again.getElem?_endowed single'', endowable.getElem?_endowed single',
      endowable.getElem?_endowed single, Option.map_map, List.lookup_append]
    congr 1
    funext field
    cases found : first.lookup index with
    | none => rfl
    | some value =>
      have here : index ∈ first.map Prod.fst := List.mem_map_of_mem (List.mem_of_lookup found)
      have other : second.lookup index = none :=
        lookup_of_not_mem fun there => apart index here index there rfl
      rw [other]
      rfl
  have methods : ((source.endowed layout first).endowed layout second).methods =
      (source.endowed layout (first ++ second)).methods := by
    -- Strings change no reference, so that both rounds together clear what one round clears.
    have references := endowable.declaredAt_endowed single' (second.map Prod.fst)
    rw [methods_endowed, references, methods_endowed, methods_endowed, List.map_map,
      List.map_append, declaredAt_append]
    refine List.map_congr_left fun method _ => ?_
    rw [Function.comp_apply, Method.cleared_cleared]
  exact congrArg₂ (fun fields methods => source.remade layout fields methods) fields methods

/-- The order in which strings are written does not matter. -/
theorem endowed_perm {chosen others : List (Nat × Text)}
    (single : (chosen.map Prod.fst).Nodup) (perm : chosen.Perm others) :
    source.endowed layout chosen = source.endowed layout others := by
  -- The members are the same, and they make up the text.
  have single' := (perm.map Prod.fst).nodup single
  have fields : (source.endowed layout chosen).fields = (source.endowed layout others).fields := by
    refine List.ext_getElem? fun index => ?_
    rw [endowable.getElem?_endowed single, endowable.getElem?_endowed single',
      lookup_perm perm single]
  have methods : (source.endowed layout chosen).methods =
      (source.endowed layout others).methods := by
    have references : (source.declaredAt (chosen.map Prod.fst)).Perm
        (source.declaredAt (others.map Prod.fst)) := (perm.map Prod.fst).filterMap _
    refine List.map_congr_left fun method _ => ?_
    rw [Method.cleared_congr fun reference => references.mem_iff]
  exact congrArg₂ (fun fields methods => source.remade layout fields methods) fields methods

end Endowable

/-- What is read of a class text can be given strings. -/
theorem endowable_of_reads {source : ClassText} (clean : source.isDirty = false)
    (reads : Reads source.descriptor (Text.pieces source.text) source.fields source.methods)
    (distinct : (source.methods.map Method.signature).Nodup)
    (references : (source.fields.map Field.reference).Nodup)
    (noEquals : ∀ field ∈ source.fields, ['='] ∉ field.modifiers)
    (once : ∀ field ∈ source.fields,
      (Text.lines source.text).countP (fun line => line.trimmed == field.declaration) = 1)
    (positions : List Nat) : ∃ layout, Endowable layout positions source := by
  -- The lines that were read are a layout with the declarations and the bodies.
  obtain ⟨layout, split, fits⟩ := reads.exists_layout (fun _ => Text.isPiece_of_mem_pieces)
    (Text.pieces_pairwise source.text)
  simp only [isDirty, Bool.or_eq_false_iff, List.any_eq_false, Bool.not_eq_true] at clean
  refine ⟨layout, split, fits, fun field member => ?_, noEquals, references, distinct, clean.2,
    fun position _ field here => once field (List.mem_of_getElem? here)⟩
  obtain ⟨piece, -, parsed⟩ := reads.exists_field member
  rw [(Field.declaration_of_parse parsed).trans (Text.trim_trim piece)]
  exact parsed

end ClassText

/-- A step of a caller who gives strings to fields. -/
inductive ValueStep where
  /-- The field at a position is given a string. -/
  | give (index : Nat) (value : Text)
  /-- What has been given is written. -/
  | flush
  deriving DecidableEq, Repr

namespace ValueStep

/-- The string that a step gives, with the position of the field. -/
def gift? : ValueStep → Option (Nat × Text)
  -- To write gives nothing.
  | give index value => some (index, value)
  | flush => none

/-- The strings that some steps give. -/
def gifts (steps : List ValueStep) : List (Nat × Text) :=
  -- They are listed in order.
  steps.filterMap gift?

end ValueStep

namespace Document

/-- The document after a step of a caller. -/
def perform (document : Document) : ValueStep → Except Error Document
  -- Only the writing may fail.
  | .give index value =>
    .ok (document.withSource (document.change (.field index (.setValue value))))
  | .flush => document.flush

/-- The document after several steps of a caller. -/
def performAll (document : Document) (steps : List ValueStep) : Except Error Document :=
  -- The first step that fails ends them.
  steps.foldlM perform document

section Runs

variable {layout : List ClassText.Stretch} {source : ClassText} {document : Document}
  {pending : List (Nat × Text)}

/-- A flush writes the strings that are pending, and others can be given to other fields then. -/
theorem exists_perform_flush
    (now : document.toClassText = source.changes (ClassText.valueChanges pending))
    {rest : List (Nat × Text)} (single : ((pending ++ rest).map Prod.fst).Nodup)
    (endowable : ClassText.Endowable layout ((pending ++ rest).map Prod.fst) source) :
    (∃ next, document.perform .flush = .ok next ∧
      next.toClassText = source.endowed layout pending) ∧
    ClassText.Endowable layout (rest.map Prod.fst) (source.endowed layout pending) := by
  -- The document takes over the class text.
  rw [List.map_append] at single endowable
  obtain ⟨single', -, apart⟩ := List.nodup_append.1 single
  have written : document.toClassText.flush = .ok (source.endowed layout pending) :=
    now ▸ endowable.flush single' fun choice member =>
      List.mem_append_left _ (List.mem_map_of_mem member)
  refine ⟨⟨_, bind_eq_ok.2 ⟨_, written, rfl⟩, rfl⟩, ?_⟩
  exact endowable.endowed single' (fun position => List.mem_append_right _)
    fun position later earlier => apart position earlier position later rfl

/-- Steps that end with a flush leave all strings written, wherever else they flush. -/
theorem exists_performAll
    (now : document.toClassText = source.changes (ClassText.valueChanges pending))
    {steps : List ValueStep} (single : ((pending ++ ValueStep.gifts steps).map Prod.fst).Nodup)
    (endowable : ClassText.Endowable layout ((pending ++ ValueStep.gifts steps).map Prod.fst)
      source) :
    ∃ last, document.performAll (steps ++ [.flush]) = .ok last ∧
      last.toClassText = source.endowed layout (pending ++ ValueStep.gifts steps) := by
  -- What is pending grows with each string, and a flush starts again from what it has written.
  induction steps generalizing document source pending with
  | nil =>
    -- The last flush writes whatever is still pending.
    obtain ⟨⟨next, flushed, after⟩, -⟩ := exists_perform_flush now single endowable
    rw [show ValueStep.gifts [] = [] from rfl, List.append_nil]
    exact ⟨next, bind_eq_ok.2 ⟨next, flushed, rfl⟩, after⟩
  | cons step rest ih =>
    cases step with
    | give index value =>
      -- A string that is given is pending until the next flush.
      have given : pending ++ ValueStep.gifts (.give index value :: rest) =
          (pending ++ [(index, value)]) ++ ValueStep.gifts rest := List.append_cons ..
      rw [given] at single endowable ⊢
      refine ih ?_ single endowable
      show document.toClassText.change (.field index (.setValue value)) = _
      rw [now, ClassText.changes, ClassText.changes, ClassText.valueChanges,
        ClassText.valueChanges, List.map_append, List.foldl_append]
      rfl
    | flush =>
      -- A flush starts again from the source with the strings that were pending.
      have given : ValueStep.gifts (.flush :: rest) = ValueStep.gifts rest := rfl
      rw [given] at single endowable ⊢
      obtain ⟨⟨next, flushed, after⟩, again⟩ := exists_perform_flush now single endowable
      have single' : (([] ++ ValueStep.gifts rest).map Prod.fst).Nodup :=
        (List.nodup_append.1 (List.map_append ▸ single)).2.1
      have nothing : next.toClassText =
          (source.endowed layout pending).changes (ClassText.valueChanges []) := after
      obtain ⟨last, done, result⟩ := ih nothing single' again
      exact ⟨last, bind_eq_ok.2 ⟨next, flushed, done⟩,
        result.trans (endowable.endowed_endowed single)⟩

end Runs

/-- Strings that are given to fields of a document that has been read come out the same in whatever
order they are given, whether they are written all at once or in any batches. -/
theorem performAll_perm {options : ParseOptions} {text : Text} {document : Document}
    (read : parse options text = .ok document)
    (distinct : (document.methods.map Method.signature).Nodup)
    (references : (document.fields.map Field.reference).Nodup)
    (noEquals : ∀ field ∈ document.fields, ['='] ∉ field.modifiers)
    (once : ∀ field ∈ document.fields,
      (Text.lines document.text).countP (fun line => line.trimmed == field.declaration) = 1)
    {steps steps' : List ValueStep} (single : ((ValueStep.gifts steps).map Prod.fst).Nodup)
    (perm : (ValueStep.gifts steps).Perm (ValueStep.gifts steps')) :
    ∃ last last', document.performAll (steps ++ [.flush]) = .ok last ∧
      document.performAll (steps' ++ [.flush]) = .ok last' ∧
      last'.toClassText = last.toClassText := by
  -- Both runs leave all strings written.
  have settled : document.Settled := settled_of_parse read
  obtain ⟨layout, endowable⟩ := ClassText.endowable_of_reads settled.clean settled.reads
    distinct references noEquals once ((ValueStep.gifts steps).map Prod.fst)
  have endowable' : ClassText.Endowable layout ((ValueStep.gifts steps').map Prod.fst)
      document.toClassText := { endowable with
    once := fun position member => endowable.once position
      ((perm.map Prod.fst).symm.subset member) }
  have nothing : document.toClassText = document.changes (ClassText.valueChanges []) := rfl
  obtain ⟨last, done, result⟩ := exists_performAll nothing single endowable
  obtain ⟨last', done', result'⟩ :=
    exists_performAll nothing ((perm.map Prod.fst).nodup single) endowable'
  refine ⟨last, last', done, done', ?_⟩
  rw [result, result']
  exact (endowable.endowed_perm single perm).symm

/-- Both fields of the sample are given strings, the second one first and on its own. -/
def sampleOneByOne : List ValueStep :=
  -- The first string has to be escaped.
  [.give 1 ['x'], .flush, .give 0 ['\n', '"']]

/-- Both fields of the sample are given the same strings at once. -/
def sampleBatch : List ValueStep :=
  -- Nothing is written in between.
  [.give 0 ['\n', '"'], .give 1 ['x']]

/-- The strings come out the same in the sample, one by one or in one batch. -/
theorem performAll_perm_sample : ∃ last last',
    sampleWriters.performAll (sampleOneByOne ++ [.flush]) = .ok last ∧
    sampleWriters.performAll (sampleBatch ++ [.flush]) = .ok last' ∧
    last'.toClassText = last.toClassText := by
  -- The text of the sample is read as the sample.
  have source : ClassText.parse sampleWriters.text = .ok sampleWriters.toClassText := by
    decide +kernel
  have read : parse {} sampleWriters.text = .ok sampleWriters := bind_eq_ok.2 ⟨_, source, rfl⟩
  have perm : (ValueStep.gifts sampleOneByOne).Perm (ValueStep.gifts sampleBatch) := .swap _ _ _
  exact Document.performAll_perm read (by decide +kernel) (by decide +kernel)
    (by decide +kernel) (by decide +kernel) (by decide +kernel) perm

end Document

end Smali
