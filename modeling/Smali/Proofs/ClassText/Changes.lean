import Smali.Proofs.ClassText.Planning
import Smali.Proofs.Field
import Smali.Proofs.Method.PlainBody
import Smali.Proofs.Pairing

/-! Callers change fields and methods in any order, and what they may count on stays so. -/

namespace Smali

/-- A change of a field that callers can ask for. -/
inductive FieldChange where
  /-- The field is to belong to the class or to objects. -/
  | setStatic (wanted : Bool)
  /-- The field is to be constant or not. -/
  | setFinal (wanted : Bool)
  /-- The field is to have a string as its value. -/
  | setValue (value : Text)
  /-- The field is to have another name. -/
  | setName (name : Text)
  /-- The field is to have another type. -/
  | setType (type : Text)
  /-- The field is to have a list of strings as its value. -/
  | setStringArray (values : List Text)
  deriving DecidableEq, Repr

namespace FieldChange

/-- The field after the change; a list that it cannot hold changes nothing. -/
def apply (field : Field) : FieldChange → Field
  -- Only the last change may be refused.
  | setStatic wanted => field.setStatic wanted
  | setFinal wanted => field.setFinal wanted
  | setValue value => field.setValue value
  | setName name => field.setName name
  | setType type => field.setType type
  | setStringArray values =>
    match field.setStringArray values with
    | .ok changed => changed
    | .error _ => field

/-- A list is still to be written into a field that can hold it. -/
theorem apply_setStringArray {field : Field} (holds : field.type = stringArray)
    (values : List Text) : (setStringArray values).apply field =
      { field with pending := .composite values, dirty := true } := by
  -- The change is not refused.
  rw [apply, Field.setStringArray, if_pos holds]

/-- A list changes nothing in a field that cannot hold it. -/
theorem apply_setStringArray_other {field : Field} (other : field.type ≠ stringArray)
    (values : List Text) : (setStringArray values).apply field = field := by
  -- The change is refused.
  rw [apply, Field.setStringArray, if_neg other]
  rfl

/-- A change of a field keeps the class and the declaration that stands in the text. -/
theorem kept_apply (change : FieldChange) (field : Field) :
    (change.apply field).owner = field.owner ∧
      (change.apply field).declaration = field.declaration := by
  -- The class never changes, and declarations are written by flushes alone.
  cases change with
  | setStatic wanted | setFinal wanted =>
    simp only [apply, Field.setStatic, Field.setFinal, Field.setModifier]
    split
    · exact ⟨rfl, rfl⟩
    · split <;> exact ⟨rfl, rfl⟩
  | setStringArray values =>
    by_cases holds : field.type = stringArray
    · rw [apply_setStringArray holds]
      exact ⟨rfl, rfl⟩
    · rw [apply_setStringArray_other holds]
      exact ⟨rfl, rfl⟩
  | _ => exact ⟨rfl, rfl⟩

/-- Several changes of a field keep the class. -/
theorem owner_foldl (list : List FieldChange) (field : Field) :
    (list.foldl apply field).owner = field.owner := by
  -- No single change touches it.
  induction list generalizing field with
  | nil => rfl
  | cons change rest ih => rw [List.foldl_cons, ih, (kept_apply change field).1]

/-- What callers keep to when they name a field or give it a type. -/
def Allowed : FieldChange → Prop
  -- Names and types are single words, and a colon ends the name.
  | setName name => Field.IsWord name ∧ ':' ∉ name
  | setType type => Descriptor.isType type ∧ ∀ c ∈ type, Text.isBlank c = false
  | _ => True

/-- Whether callers may ask for a change of a field can be decided. -/
instance (change : FieldChange) : Decidable change.Allowed :=
  -- Only names and types are looked at.
  match change with
  | setName name => inferInstanceAs (Decidable (Field.IsWord name ∧ _))
  | setType type => inferInstanceAs (Decidable (_ ∧ ∀ c ∈ type, Text.isBlank c = false))
  | setStatic _ | setFinal _ | setValue _ | setStringArray _ => .isTrue trivial

end FieldChange

/-- A change of a method that callers can ask for. -/
inductive MethodChange where
  /-- The method is to have another body. -/
  | setBody (body : Text)
  /-- The body is to be written again. -/
  | setDirty
  deriving DecidableEq, Repr

namespace MethodChange

/-- The method after the change. -/
def apply (method : Method) : MethodChange → Method
  -- Neither change is refused.
  | setBody body => method.setBody body
  | setDirty => method.setDirty true

/-- What callers keep to when they give a method a body. -/
def Allowed : MethodChange → Prop
  -- The last line is closed, and no line belongs outside a body.
  | setBody body => (body = [] ∨ Text.Closed body) ∧
      ∀ line ∈ Text.lines body, ∀ directive ∈ Method.structuralDirectives,
        line.opensWith directive = false
  | setDirty => True

/-- Whether callers may ask for a change of a method can be decided. -/
instance (change : MethodChange) : Decidable change.Allowed :=
  -- Only bodies are looked at.
  match change with
  | setBody body => inferInstanceAs (Decidable ((body = [] ∨ _) ∧ ∀ line ∈ Text.lines body,
      ∀ directive ∈ Method.structuralDirectives, line.opensWith directive = false))
  | setDirty => .isTrue trivial

end MethodChange

/-- A change of a member of a class. -/
inductive MemberChange where
  /-- The field at a position changes. -/
  | field (index : Nat) (change : FieldChange)
  /-- The method at a position changes. -/
  | method (index : Nat) (change : MethodChange)
  deriving DecidableEq, Repr

namespace MemberChange

/-- What callers keep to when they change a member. -/
def Allowed : MemberChange → Prop
  -- The position may be any.
  | field _ change => change.Allowed
  | method _ change => change.Allowed

/-- Whether callers may ask for a change of a member can be decided. -/
instance (change : MemberChange) : Decidable change.Allowed :=
  -- The member does not matter.
  match change with
  | field _ change => inferInstanceAs (Decidable change.Allowed)
  | method _ change => inferInstanceAs (Decidable change.Allowed)

/-- The change of the field at a position, if it is one. -/
def fieldChange? (index : Nat) : MemberChange → Option FieldChange
  -- Changes of other members leave the field as it is.
  | field at' change => if at' = index then some change else none
  | method _ _ => none

/-- The change of the method at a position, if it is one. -/
def methodChange? (index : Nat) : MemberChange → Option MethodChange
  -- Changes of other members leave the method as it is.
  | method at' change => if at' = index then some change else none
  | field _ _ => none

end MemberChange

namespace ClassText

/-- The class text after the change of a member, which does not touch its text. -/
def change (source : ClassText) : MemberChange → ClassText
  -- A position without a member is passed over.
  | .field index change =>
    { source with fields := source.fields.modify index fun field => change.apply field }
  | .method index change =>
    { source with methods := source.methods.modify index fun method => change.apply method }

/-- The class text after several changes, one after the other. -/
def changes (source : ClassText) (changes : List MemberChange) : ClassText :=
  -- Each change finds what the changes before it have left.
  changes.foldl change source

/-- Changes of members change only the members. -/
theorem changes_kept (source : ClassText) (list : List MemberChange) :
    source.changes list = { source with
      fields := (source.changes list).fields
      methods := (source.changes list).methods } := by
  -- No single change does more.
  induction list generalizing source with
  | nil => rfl
  | cons first rest ih =>
    have others := ih (source.change first)
    rw [changes, List.foldl_cons]
    cases first <;> exact others

/-- The text does not change with the members. -/
@[simp] theorem text_changes (source : ClassText) (list : List MemberChange) :
    (source.changes list).text = source.text := by
  -- Only the members change.
  rw [changes_kept]

/-- The class stays when members change. -/
@[simp] theorem descriptor_changes (source : ClassText) (list : List MemberChange) :
    (source.changes list).descriptor = source.descriptor := by
  -- Only the members change.
  rw [changes_kept]

/-- The modifiers of the class stay when members change. -/
@[simp] theorem modifiers_changes (source : ClassText) (list : List MemberChange) :
    (source.changes list).modifiers = source.modifiers := by
  -- Only the members change.
  rw [changes_kept]

/-- The superclass stays when members change. -/
@[simp] theorem superclass_changes (source : ClassText) (list : List MemberChange) :
    (source.changes list).superclass = source.superclass := by
  -- Only the members change.
  rw [changes_kept]

/-- The declarations that stand in the text stay when members change. -/
theorem declarations_changes (source : ClassText) (list : List MemberChange) :
    (source.changes list).fields.map Field.declaration = source.fields.map Field.declaration := by
  -- No single change writes one.
  induction list generalizing source with
  | nil => rfl
  | cons first rest ih =>
    refine (ih (source.change first)).trans ?_
    cases first with
    | method index change => rfl
    | field index change =>
      exact List.map_modify (fun field => (change.kept_apply field).2) source.fields index

/-- The field at a position undergoes the changes of that position in order. -/
theorem fields_changes (source : ClassText) (list : List MemberChange) (index : Nat) :
    (source.changes list).fields[index]? = source.fields[index]?.map fun field =>
      (list.filterMap (MemberChange.fieldChange? index)).foldl FieldChange.apply field := by
  -- A change elsewhere leaves the field as it is.
  induction list generalizing source with
  | nil => simp [changes]
  | cons first rest ih =>
    have others := ih (source.change first)
    rw [changes, List.foldl_cons]
    refine others.trans ?_
    cases first with
    | method at' change => rfl
    | field at' change =>
      simp only [ClassText.change, List.getElem?_modify, List.filterMap_cons,
        MemberChange.fieldChange?]
      by_cases here : at' = index
      · simp [here, Function.comp_def]
      · simp [here]

/-- The method at a position undergoes the changes of that position in order. -/
theorem methods_changes (source : ClassText) (list : List MemberChange) (index : Nat) :
    (source.changes list).methods[index]? = source.methods[index]?.map fun method =>
      (list.filterMap (MemberChange.methodChange? index)).foldl MethodChange.apply method := by
  -- A change elsewhere leaves the method as it is.
  induction list generalizing source with
  | nil => simp [changes]
  | cons first rest ih =>
    have others := ih (source.change first)
    rw [changes, List.foldl_cons]
    refine others.trans ?_
    cases first with
    | field at' change => rfl
    | method at' change =>
      simp only [ClassText.change, List.getElem?_modify, List.filterMap_cons,
        MemberChange.methodChange?]
      by_cases here : at' = index
      · simp [here, Function.comp_def]
      · simp [here]

/-- The methods stay when no change is one of a method. -/
theorem methods_changes_of_fields (source : ClassText) {list : List MemberChange}
    (silent : ∀ change ∈ list, ∀ index, change.methodChange? index = none) :
    (source.changes list).methods = source.methods := by
  -- No position has a change.
  refine List.ext_getElem? fun index => ?_
  rw [methods_changes, List.filterMap_eq_nil_iff.2 fun change member => silent change member index]
  exact congrFun Option.map_id _

end ClassText

/-- A field is what changes may make of the one that was read. -/
structure Field.Descends (declared field : Field) : Prop where
  /-- The class stays. -/
  owner : field.owner = declared.owner
  /-- The declaration in the text stays. -/
  declaration : field.declaration = declared.declaration
  /-- The reference that the instructions use stays. -/
  declaredReference : field.declaredReference = declared.declaredReference
  /-- The field can be written again. -/
  writable : field.Writable
  /-- A field with nothing to be written has not been changed. -/
  clean : field.dirty = false → field = declared
  /-- Another value is still to be written. -/
  value : field.value = declared.value ∨ ∃ text, field.pending = .scalar text

namespace Field

/-- The word for members of the class is a modifier like others. -/
theorem isWord_static : IsWord "static".toList := by
  -- It has no blank.
  exact ⟨by decide, by decide⟩

/-- The word for constant members is a modifier like others. -/
theorem isWord_final : IsWord "final".toList := by
  -- It has no blank.
  exact ⟨by decide, by decide⟩

/-- A field can be read back if it could before a modifier word was added or removed. -/
theorem Restorable.setModifier {field : Field} (restorable : field.Restorable) {word : Text}
    (solid : IsWord word) (other : ['='] ≠ word) (wanted : Bool) :
    (field.setModifier word wanted).Restorable := by
  -- The other words are modifiers as they were.
  unfold Field.setModifier
  simp only
  split
  · refine { restorable with modifiers := ?_, noEquals := ?_ }
    · intro modifier member
      rcases List.mem_append.1 member with member | member
      · exact restorable.modifiers modifier member
      · exact List.mem_singleton.1 member ▸ solid
    · rw [List.mem_append, List.mem_singleton, not_or]
      exact ⟨restorable.noEquals, other⟩
  · split
    · refine { restorable with modifiers := ?_, noEquals := ?_ }
      · exact fun modifier member => restorable.modifiers modifier (List.mem_filter.1 member).1
      · exact fun member => restorable.noEquals (List.mem_filter.1 member).1
    · exact restorable

/-- A field that is given a string can be read back if it could before. -/
theorem Restorable.setValue {field : Field} (restorable : field.Restorable) (text : Text) :
    (field.setValue text).Restorable := by
  -- Only the value and the modifiers change.
  refine { restorable with modifiers := ?_, noEquals := ?_, value := ?_ }
  · intro modifier member
    simp only [Field.setValue] at member
    split at member
    · exact restorable.modifiers modifier member
    · rcases List.mem_append.1 member with member | member
      · exact restorable.modifiers modifier member
      · exact List.mem_singleton.1 member ▸ isWord_static
  · simp only [Field.setValue]
    split
    · exact restorable.noEquals
    · rw [List.mem_append, List.mem_singleton, not_or]
      exact ⟨restorable.noEquals, by decide⟩
  · intro value some'
    cases some'
    exact FieldValue.readable_str text

/-- A field that undergoes an allowed change can be read back if it could before. -/
theorem Restorable.apply {field : Field} (restorable : field.Restorable) {change : FieldChange}
    (allowed : change.Allowed) : (change.apply field).Restorable := by
  -- Each change touches its own part of the field.
  cases change with
  | setStatic wanted => exact restorable.setModifier isWord_static (by decide) wanted
  | setFinal wanted => exact restorable.setModifier isWord_final (by decide) wanted
  | setValue text => exact restorable.setValue text
  | setName name => exact { restorable with name := allowed.1, noColon := allowed.2 }
  | setType type => exact { restorable with solid := allowed.2, type := allowed.1 }
  | setStringArray values =>
    by_cases holds : field.type = stringArray
    · rw [FieldChange.apply_setStringArray holds]
      exact { restorable with }
    · rw [FieldChange.apply_setStringArray_other holds]
      exact restorable

/-- A field that undergoes several allowed changes can be read back if it could before. -/
theorem Restorable.foldl {field : Field} (restorable : field.Restorable) {list : List FieldChange}
    (allowed : ∀ change ∈ list, change.Allowed) :
    (list.foldl FieldChange.apply field).Restorable := by
  -- The changes are made one after the other.
  induction list generalizing field with
  | nil => exact restorable
  | cons change rest ih =>
    rw [List.forall_mem_cons] at allowed
    exact ih (restorable.apply allowed.1) allowed.2

/-- What a field asks for after any allowed changes is read as a declaration that holds what the
field holds and asks for the same. -/
theorem reread_declarationText {owner line : Text} {declared : Field}
    (done : parse owner line = .ok declared) (noEquals : ['='] ∉ declared.modifiers)
    {list : List FieldChange} (allowed : ∀ change ∈ list, change.Allowed) :
    ∃ reread, parse owner (list.foldl FieldChange.apply declared).declarationText = .ok reread ∧
      reread.modifiers = (list.foldl FieldChange.apply declared).modifiers ∧
      reread.name = (list.foldl FieldChange.apply declared).name ∧
      reread.type = (list.foldl FieldChange.apply declared).type ∧
      reread.value = (list.foldl FieldChange.apply declared).value ∧
      reread.declarationText = (list.foldl FieldChange.apply declared).declarationText := by
  -- The changes keep the class and all that the reader depends on.
  have reading := reading_of_parse done
  have restorable := (reading.restorable noEquals).foldl allowed
  have owned : (list.foldl FieldChange.apply declared).owner = owner := by
    rw [FieldChange.owner_foldl, reading.fresh]
  have again := parse_declarationText restorable
  rw [owned] at again
  exact ⟨_, again, rfl, rfl, rfl, rfl, rfl⟩

/-- A declaration over two lines, whose literal is a string with the sign for a value inside. -/
def declaredSample : Text :=
  -- The string ends with a backslash.
  "\t.field  final\n a$:Lb; =  \"x = \\\"y\\\\\" ".toList

/-- The sample can be read back after changes that give it a string with a quote and a line feed. -/
theorem reread_declarationText_sample :
    let list : List FieldChange := [.setStatic true, .setName ['='], .setFinal false,
      .setValue "\"\n = ".toList, .setType "[I".toList]
    ∃ declared reread, parse "Lc;".toList declaredSample = .ok declared ∧
      declared.value = some (.str "x = \"y\\".toList) ∧ ['='] ∉ declared.modifiers ∧
      (∀ change ∈ list, change.Allowed) ∧
      parse "Lc;".toList (list.foldl FieldChange.apply declared).declarationText = .ok reread ∧
      (list.foldl FieldChange.apply declared).declarationText =
        ".field static =:[I = \"\\\"\\n = \"".toList ∧
      reread.modifiers = ["static".toList] ∧ reread.name = ['='] ∧ reread.type = "[I".toList ∧
      reread.value = some (.str "\"\n = ".toList) ∧
      reread.declarationText = (list.foldl FieldChange.apply declared).declarationText := by
  -- The declaration is read, and the changes are allowed.
  intro list
  have done : parse "Lc;".toList declaredSample = .ok ⟨"Lc;".toList, ["final".toList],
      "a$".toList, "Lb;".toList, some (.str "x = \"y\\".toList), Text.trim declaredSample,
      "Lc;->a$:Lb;".toList, none, .unchanged, false⟩ := by
    decide +kernel
  have noEquals : ['='] ∉ ["final".toList] := by decide
  have allowed : ∀ change ∈ list, change.Allowed := by decide
  obtain ⟨reread, again, modifiers, name, type, value, same⟩ :=
    reread_declarationText done noEquals allowed
  exact ⟨_, reread, done, rfl, noEquals, allowed, again, by decide +kernel, modifiers, name, type,
    value, same⟩

/-- Adding or removing a modifier word changes at most the modifiers, and marks the field if it
does. -/
theorem setModifier_cases (word : Text) (wanted : Bool) (field : Field) :
    field.setModifier word wanted = field ∨ ∃ modifiers,
      field.setModifier word wanted = { field with modifiers := modifiers, dirty := true } := by
  -- A word that is already as wanted changes nothing.
  unfold Field.setModifier
  simp only
  split
  · exact .inr ⟨_, rfl⟩
  · split
    · exact .inr ⟨_, rfl⟩
    · exact .inl rfl

/-- A change that gives no string keeps the value. -/
theorem value_apply {field : Field} {change : FieldChange}
    (other : ∀ text, change ≠ .setValue text) : (change.apply field).value = field.value := by
  -- Only a string becomes the value at once.
  cases change with
  | setStatic wanted | setFinal wanted =>
    simp only [FieldChange.apply, Field.setStatic, Field.setFinal, Field.setModifier]
    split
    · rfl
    · split <;> rfl
  | setValue text => exact absurd rfl (other text)
  | setName name => rfl
  | setType type => rfl
  | setStringArray values =>
    by_cases holds : field.type = stringArray
    · rw [FieldChange.apply_setStringArray holds]
    · rw [FieldChange.apply_setStringArray_other holds]

/-- A field that undergoes an allowed change can be written if it could before. -/
theorem Writable.apply {field : Field} (writable : field.Writable) {change : FieldChange}
    (allowed : change.Allowed) : (change.apply field).Writable := by
  -- Only a string becomes another value, and it stays on one line.
  refine ⟨writable.toRestorable.apply allowed, fun value valued => ?_⟩
  by_cases given : ∃ text, change = .setValue text
  · obtain ⟨text, rfl⟩ := given
    cases valued
    exact FieldValue.open_str text
  · rw [value_apply (not_exists.1 given)] at valued
    exact writable.single value valued

/-- A modifier word may be added or removed. -/
theorem Descends.setModifier {declared field : Field} (descends : declared.Descends field)
    {word : Text} {wanted : Bool} (writable : (field.setModifier word wanted).Writable) :
    declared.Descends (field.setModifier word wanted) := by
  -- Only the modifiers change.
  rcases setModifier_cases word wanted field with same | ⟨modifiers, same⟩
  · rw [same]
    exact descends
  · rw [same] at writable ⊢
    exact ⟨descends.owner, descends.declaration, descends.declaredReference, writable, by simp,
      descends.value⟩

/-- Each allowed change keeps what callers may count on, but a list needs the old value. -/
theorem Descends.apply {declared field : Field} (descends : declared.Descends field)
    {change : FieldChange} (allowed : change.Allowed)
    (listed : ∀ values, change = .setStringArray values → field.value = declared.value) :
    declared.Descends (change.apply field) := by
  -- Each change touches its own part of the field.
  have writable := descends.writable.apply allowed
  cases change with
  | setStatic wanted | setFinal wanted => exact descends.setModifier writable
  | setValue text =>
    exact ⟨descends.owner, descends.declaration, descends.declaredReference, writable, nofun,
      .inr ⟨text, rfl⟩⟩
  | setName name | setType type =>
    exact ⟨descends.owner, descends.declaration, descends.declaredReference, writable, nofun,
      descends.value⟩
  | setStringArray values =>
    by_cases holds : field.type = stringArray
    · rw [FieldChange.apply_setStringArray holds] at writable ⊢
      exact ⟨descends.owner, descends.declaration, descends.declaredReference, writable, nofun,
        .inl (listed values rfl)⟩
    · rw [FieldChange.apply_setStringArray_other holds]
      exact descends

/-- Several allowed changes keep what callers may count on, unless both a string and a list are
given. -/
theorem Descends.foldl {declared field : Field} (descends : declared.Descends field)
    {list : List FieldChange} (allowed : ∀ change ∈ list, change.Allowed)
    (apart : (∀ values, .setStringArray values ∉ list) ∨
      field.value = declared.value ∧ ∀ text, .setValue text ∉ list) :
    declared.Descends (list.foldl FieldChange.apply field) := by
  -- Without strings the value stays as it was declared.
  induction list generalizing field with
  | nil => exact descends
  | cons change rest ih =>
    have next : declared.Descends (change.apply field) := by
      refine descends.apply (allowed change (by simp)) fun values same => ?_
      rcases apart with noList | ⟨kept, -⟩
      · exact absurd (by simp [same]) (noList values)
      · exact kept
    refine ih next (fun other member => allowed other (by simp [member])) ?_
    rcases apart with noList | ⟨kept, noText⟩
    · exact .inl fun values member => noList values (List.mem_cons_of_mem _ member)
    · refine .inr ⟨?_, fun text member => noText text (List.mem_cons_of_mem _ member)⟩
      rw [value_apply fun text same => noText text (by simp [same]), kept]

/-- A flush either leaves a field as it was read or writes all that it asks for. -/
theorem Descends.flushed_cases {owner line : Text} {declared field : Field}
    (descends : declared.Descends field) (reading : Reading owner line declared)
    (noEquals : ['='] ∉ declared.modifiers) :
    field.rewritesDeclaration = false ∧ field.flushed = declared ∨
      field.rewritesDeclaration = true ∧ field.flushed = { field with
        declaration := field.declarationText
        declaredReference := field.reference
        previous := none
        pending := .unchanged
        dirty := false } := by
  -- What no declaration is written for has not been changed in the end.
  by_cases dirty : field.dirty
  case neg =>
    -- Without a change the field is what was read.
    have same := descends.clean (by simpa using dirty)
    refine .inl ⟨by simp [rewritesDeclaration, dirty], ?_⟩
    rw [Field.flushed, if_neg dirty]
    exact same
  case pos =>
    by_cases rewrites : field.rewritesDeclaration
    case pos => exact .inr ⟨rewrites, by simp [Field.flushed, dirty, rewrites, settled]⟩
    case neg =>
      -- None of the reasons for another declaration holds.
      refine .inl ⟨by simpa using rewrites, ?_⟩
      have checks := rewrites
      simp only [rewritesDeclaration, dirty, Bool.true_and, Bool.or_eq_true, bne_iff_ne, ne_eq,
        not_or, Decidable.not_not] at checks
      obtain ⟨⟨valueKept, referenceKept⟩, modifiersKept⟩ := checks
      have value : field.value = declared.value := by
        rcases descends.value with same | ⟨text, pending⟩
        · exact same
        · simp [pending] at valueKept
      have modifiers : field.modifiers = declared.modifiers := by
        rw [← modifiersKept, ← reading.declaredModifiers noEquals]
        simp only [declaredModifiers, descends.declaration]
      have fresh := reading.fresh
      have reference : declared.declaredReference = declared.reference := by
        rw [fresh]
        rfl
      -- A reference tells the name and the type, since no name holds a colon.
      have member : field.name = declared.name ∧ field.type = declared.type := by
        refine Text.eq_of_first descends.writable.noColon reading.noColon ?_
        have same : field.reference = declared.reference := by
          rw [referenceKept, descends.declaredReference, reference]
        simp only [Field.reference, fieldRef, FieldRef.display, descends.owner] at same
        exact List.append_cancel_left same
      have parts : field.flushed = { field with
          declaredReference := field.reference
          previous := none
          pending := .unchanged
          dirty := false } := by
        simp only [Field.flushed, dirty, if_true, rewrites, Bool.false_eq_true, if_false, settled,
          Option.getD_none]
      -- What is left are the marks of a change, which a field that was read does not have.
      rw [parts, referenceKept]
      obtain ⟨owner', modifiers', name', type', value', declaration', reference', previous',
        pending', dirty'⟩ := declared
      simp only [Field.mk.injEq] at fresh
      obtain ⟨rfl, -, -, -, -, -, -, rfl, rfl, rfl⟩ := fresh
      simp only [descends.owner, modifiers, member.1, member.2, value, descends.declaration,
        descends.declaredReference]

/-- A declaration of words is on one line if its value is. -/
theorem open_declarationText {field : Field} (solid : ∀ word ∈ field.saidWords, IsWord word)
    (single : ∀ value, field.value = some value → '\n' ∉ value.display) :
    '\n' ∉ field.declarationText := by
  -- Words have no blanks, and literals have no line feeds.
  rw [declarationText_eq]
  intro feed
  have cases' : '\n' ∈ [' '].intercalate field.saidWords ∨ '\n' ∈ field.saidValue := by
    simpa using feed
  rcases cases' with feed | feed
  · exact Text.open_intercalate (fun word member => (solid word member).2) feed
  · unfold saidValue at feed
    split at feed
    · next value valued =>
      have inside : '\n' ∈ value.display := by simpa using feed
      exact single value valued inside
    · simp at feed

/-- A reference to a field is on one line if the name of the class is. -/
theorem Writable.open_reference {field : Field} (writable : field.Writable)
    (open' : '\n' ∉ field.owner) : '\n' ∉ field.reference := by
  -- The name and the type are one word.
  have member : '\n' ∉ field.member := fun feed =>
    absurd (writable.member.2 _ feed) (by decide)
  simp only [Field.member, fieldRef] at member
  have sign : '\n' ∉ arrow := by decide
  simp [Field.reference, FieldRef.display, fieldRef, open', member, sign]

end Field

/-- A method is what changes may make of the one that was read. -/
structure Method.Descends (declared method : Method) : Prop where
  /-- Only the body changes. -/
  same : method = { declared with body := method.body, dirty := method.dirty }
  /-- The body may stand in a class text. -/
  plain : Method.PlainBody method.body
  /-- A method with nothing to be written has the body that was read. -/
  clean : method.dirty = false → method.body = declared.body

namespace Method

/-- A body that callers may give to a method is plain. -/
theorem plainBody_of_allowed {body : Text} (allowed : (MethodChange.setBody body).Allowed) :
    PlainBody body := by
  -- Each line is closed and says nothing else.
  obtain ⟨closed, lines⟩ := allowed
  intro piece member
  refine ⟨Text.closed_of_mem_pieces closed member, fun directive structural => ?_⟩
  rw [← Text.map_piece_lines] at member
  obtain ⟨line, inside, rfl⟩ := List.mem_map.1 member
  have solid : Text.endsSolid directive := by
    simp only [structuralDirectives, List.mem_cons, List.not_mem_nil, or_false] at structural
    rcases structural with rfl | rfl | rfl | rfl <;> decide
  rw [← Line.opensWith_eq_tells directive solid inside]
  exact lines line inside directive structural

/-- Several allowed changes keep what callers may count on. -/
theorem Descends.foldl {declared method : Method} (descends : declared.Descends method)
    {list : List MethodChange} (allowed : ∀ change ∈ list, change.Allowed) :
    declared.Descends (list.foldl MethodChange.apply method) := by
  -- Each change marks the method as dirty.
  induction list generalizing method with
  | nil => exact descends
  | cons change rest ih =>
    refine ih ?_ fun other member => allowed other (by simp [member])
    obtain ⟨same, plain, clean⟩ := descends
    cases change with
    | setBody body =>
      have plain' := plainBody_of_allowed (allowed _ (List.mem_cons_self ..))
      refine ⟨?_, plain', by simp [MethodChange.apply, Method.setBody]⟩
      rw [same]
      rfl
    | setDirty =>
      refine ⟨?_, plain, by simp [MethodChange.apply, Method.setDirty]⟩
      rw [same]
      rfl

end Method

end Smali
