import Smali.Proofs.ClassText.Refusals

/-! A field that is given strings and lists in turn says on its line what it holds, unless a list
hides a string that was not written. -/

namespace Smali

namespace FieldChange

/-- A change of the value or of the modifiers, which may be mixed with others of them. -/
def Mixable : FieldChange → Prop
  -- The name and the type stay.
  | setStatic _ | setFinal _ | setValue _ | setStringArray _ => True
  | setName _ | setType _ => False

/-- Whether a change may be mixed with others can be decided. -/
instance (change : FieldChange) : Decidable change.Mixable :=
  -- Only names and types may not be changed.
  match change with
  | setStatic _ | setFinal _ | setValue _ | setStringArray _ => .isTrue trivial
  | setName _ | setType _ => .isFalse id

/-- Callers may ask for a change that may be mixed with others. -/
theorem Mixable.allowed {change : FieldChange} (mixable : change.Mixable) : change.Allowed := by
  -- Only names and types have to be words.
  cases change with
  | setStatic _ | setFinal _ | setValue _ | setStringArray _ => trivial
  | setName _ | setType _ => exact mixable.elim

/-- The string that a change gives. -/
def string? : FieldChange → Option Text
  -- Lists are no strings.
  | setValue text => some text
  | _ => none

/-- The value that a change leaves to be written. -/
def given? : FieldChange → Option PendingValue
  -- Modifiers are no values.
  | setValue text => some (.scalar text)
  | setStringArray values => some (.composite values)
  | _ => none

/-- The last string that changes give. -/
def lastString (list : List FieldChange) : Option Text :=
  -- A list behind it does not count.
  (list.filterMap string?).getLast?

/-- The last value that changes give. -/
def lastGiven (list : List FieldChange) : Option PendingValue :=
  -- It is the only one that a flush looks at.
  (list.filterMap given?).getLast?

/-- One more change may give a later string. -/
theorem lastString_concat (list : List FieldChange) (change : FieldChange) :
    lastString (list ++ [change]) = change.string?.or (lastString list) := by
  -- Otherwise the last one stays.
  rw [lastString, List.filterMap_append, List.getLast?_append, lastString]
  cases given : change.string? <;> simp [given]

/-- Changes that give a string give a string or a list last. -/
theorem exists_lastGiven {list : List FieldChange} {text : Text}
    (last : lastString list = some text) : (∃ text, lastGiven list = some (.scalar text)) ∨
      ∃ values, lastGiven list = some (.composite values) := by
  -- The string is among the values, so there is a last value.
  obtain ⟨change, member, string⟩ := List.mem_filterMap.1 (List.mem_of_getLast? last)
  have given : change.given? = some (.scalar text) := by
    cases change <;> simp_all [string?, given?]
  have nonempty : list.filterMap given? ≠ [] :=
    List.ne_nil_of_mem (List.mem_filterMap.2 ⟨change, member, given⟩)
  have found : lastGiven list = some _ := List.getLast?_eq_some_getLast nonempty
  obtain ⟨final, -, final'⟩ := List.mem_filterMap.1 (List.mem_of_getLast? found)
  rw [found, ← final']
  cases final with
  | setValue text => exact .inl ⟨text, rfl⟩
  | setStringArray values => exact .inr ⟨values, rfl⟩
  | _ => cases final'

/-- One more change may give a later value. -/
theorem lastGiven_concat (list : List FieldChange) (change : FieldChange) :
    lastGiven (list ++ [change]) = change.given?.or (lastGiven list) := by
  -- Otherwise the last one stays.
  rw [lastGiven, List.filterMap_append, List.getLast?_append, lastGiven]
  cases given : change.given? <;> simp [given]

end FieldChange

namespace Field

/-- What mixed changes make of a field that holds lists. -/
structure Mixed (declared : Field) (list : List FieldChange) (field : Field) : Prop where
  /-- The class, the name and the type stay. -/
  reference : field.fieldRef = declared.fieldRef
  /-- The declaration in the text stays. -/
  declaration : field.declaration = declared.declaration
  /-- The reference that the instructions use stays. -/
  declaredReference : field.declaredReference = declared.declaredReference
  /-- The field can be written again. -/
  writable : field.Writable
  /-- A field with nothing to be written has not been changed. -/
  clean : field.dirty = false → field = declared
  /-- The last string is the value, whatever came behind it. -/
  value : field.value = ((FieldChange.lastString list).map FieldValue.str).or declared.value
  /-- Only the last value is still to be written. -/
  pending : field.pending = (FieldChange.lastGiven list).getD .unchanged

/-- The class stays. -/
theorem Mixed.owner {declared field : Field} {list : List FieldChange}
    (mixed : declared.Mixed list field) : field.owner = declared.owner :=
  -- It is part of the reference.
  congrArg FieldRef.owner mixed.reference

/-- A modifier word may be added or removed between other changes. -/
theorem Mixed.setModifier {declared field : Field} {list : List FieldChange}
    (mixed : declared.Mixed list field) {word : Text} {wanted : Bool}
    (writable : (field.setModifier word wanted).Writable) :
    declared.Mixed list (field.setModifier word wanted) := by
  -- Only the modifiers change.
  rcases setModifier_cases word wanted field with same | ⟨modifiers, same⟩
  · rw [same]
    exact mixed
  · rw [same] at writable ⊢
    exact ⟨mixed.reference, mixed.declaration, mixed.declaredReference, writable, nofun,
      mixed.value, mixed.pending⟩

/-- One more change is mixed with those before it. -/
theorem Mixed.apply {declared field : Field} {list : List FieldChange}
    (mixed : declared.Mixed list field) (type : declared.type = stringArray)
    {change : FieldChange} (mixable : change.Mixable) :
    declared.Mixed (list ++ [change]) (change.apply field) := by
  -- Modifiers leave the values alone, and values are the last ones.
  have silent (none' : change.string? = none) (none'' : change.given? = none) {field : Field}
      (mixed : declared.Mixed list field) : declared.Mixed (list ++ [change]) field := by
    refine { mixed with value := ?_, pending := ?_ }
    · rw [FieldChange.lastString_concat, none', Option.none_or]
      exact mixed.value
    · rw [FieldChange.lastGiven_concat, none'', Option.none_or]
      exact mixed.pending
  have writable := mixed.writable.apply mixable.allowed
  cases change with
  | setStatic wanted | setFinal wanted => exact silent rfl rfl (mixed.setModifier writable)
  | setValue text =>
    -- The string is the last one, and nothing was given behind it.
    refine ⟨mixed.reference, mixed.declaration, mixed.declaredReference, writable, nofun, ?_, ?_⟩
    · rw [FieldChange.lastString_concat]
      rfl
    · rw [FieldChange.lastGiven_concat]
      rfl
  | setStringArray values =>
    have holds : field.type = stringArray := by
      rw [← type]
      exact congrArg FieldRef.descriptor mixed.reference
    rw [FieldChange.apply_setStringArray holds] at writable ⊢
    -- The list was given last, and the string before it stays.
    refine ⟨mixed.reference, mixed.declaration, mixed.declaredReference, writable, nofun, ?_, ?_⟩
    · rw [FieldChange.lastString_concat]
      exact mixed.value
    · rw [FieldChange.lastGiven_concat]
      rfl
  | setName name => exact mixable.elim
  | setType type => exact mixable.elim

/-- A field that holds lists may undergo any mixed changes. -/
theorem Mixed.foldl {declared field : Field} {earlier : List FieldChange}
    (mixed : declared.Mixed earlier field) (type : declared.type = stringArray)
    {list : List FieldChange} (mixable : ∀ change ∈ list, change.Mixable) :
    declared.Mixed (earlier ++ list) (list.foldl FieldChange.apply field) := by
  -- The changes are made one after the other.
  induction list generalizing earlier field with
  | nil => simpa using mixed
  | cons change rest ih =>
    rw [List.forall_mem_cons] at mixable
    have later := ih (mixed.apply type mixable.1) mixable.2
    rw [List.append_assoc] at later
    exact later

/-- The last string was not written: a list was given behind it, the modifiers have come out as
they were declared, and the declaration gives another value. -/
def Hidden (declared : Field) (list : List FieldChange) (left : Field) : Prop :=
  -- The field still holds the string.
  ∃ text values, FieldChange.lastString list = some text ∧
    FieldChange.lastGiven list = some (.composite values) ∧
    left.modifiers = declared.modifiers ∧ declared.value.map FieldValue.content ≠ some text

/-- A flush writes neither the modifiers nor the value into the field. -/
theorem flushed_kept (field : Field) :
    field.flushed.modifiers = field.modifiers ∧ field.flushed.value = field.value := by
  -- They are part of what it asks for.
  unfold flushed
  split <;> exact ⟨rfl, rfl⟩

section Mixed

variable {owner line : Text} {declared field : Field} {list : List FieldChange}
  (mixed : declared.Mixed list field) (parsed : parse owner line = .ok declared)
  (noEquals : ['='] ∉ declared.modifiers)

include mixed parsed noEquals

/-- The declaration is written again exactly if a string was given last or the modifiers have come
out different. -/
theorem Mixed.rewrites_iff : field.rewritesDeclaration ↔
    (∃ text, FieldChange.lastGiven list = some (.scalar text)) ∨
      field.modifiers ≠ declared.modifiers := by
  -- The name and the type stay.
  have reading := reading_of_parse parsed
  have reference : field.reference = field.declaredReference := by
    have same : declared.declaredReference = declared.reference := by
      rw [reading.fresh]
      rfl
    rw [mixed.declaredReference, same]
    exact congrArg FieldRef.display mixed.reference
  have modifiers : field.declaredModifiers = declared.modifiers := by
    rw [← reading.declaredModifiers noEquals]
    simp only [declaredModifiers, mixed.declaration]
  have unwritten : declared.pending = .unchanged := by rw [reading.fresh]
  -- A field that is not marked as changed is the declared one.
  have dirty : (∃ text, FieldChange.lastGiven list = some (.scalar text)) ∨
      field.modifiers ≠ declared.modifiers → field.dirty := by
    intro changed
    by_contra clean
    have same := mixed.clean (by simpa using clean)
    rcases changed with ⟨text, given⟩ | other
    · have pending := mixed.pending
      rw [given, same, unwritten] at pending
      cases pending
    · exact other (congrArg Field.modifiers same)
  -- Of the reasons to write the declaration, the reference is none.
  have checked : field.rewritesDeclaration ↔ field.dirty ∧
      ((∃ text, field.pending = .scalar text) ∨ field.modifiers ≠ declared.modifiers) := by
    simp only [rewritesDeclaration, reference, modifiers]
    cases field.pending <;> simp [Ne, eq_comm (a := declared.modifiers)]
  have scalar : (∃ text, field.pending = .scalar text) ↔
      ∃ text, FieldChange.lastGiven list = some (.scalar text) := by
    rw [mixed.pending]
    cases FieldChange.lastGiven list <;> simp
  rw [checked, scalar]
  exact ⟨And.right, fun changed => ⟨dirty changed, changed⟩⟩

/-- What is read of the declaration that a flush leaves has the modifiers of the field, and it has
its value unless the last string is hidden. -/
theorem Mixed.exists_reread : ∃ reread, parse owner field.flushed.declaration = .ok reread ∧
    reread.modifiers = field.flushed.modifiers ∧
    (reread.value.map FieldValue.content = field.flushed.value.map FieldValue.content ↔
      ¬ declared.Hidden list field.flushed) := by
  -- Either all of the field is written or its line stays.
  have reading := reading_of_parse parsed
  obtain ⟨modifiers, value⟩ := field.flushed_kept
  rw [modifiers, value, declaration_flushed]
  have rewrites := mixed.rewrites_iff parsed noEquals
  by_cases written : field.rewritesDeclaration
  · -- What is written is read as the field, and its string is not hidden.
    have owned : field.owner = owner := by rw [mixed.owner, reading.fresh]
    rw [if_pos written, ← owned]
    refine ⟨_, parse_declarationText mixed.writable.toRestorable, rfl, iff_of_true rfl ?_⟩
    rintro ⟨text, values, -, given, same, -⟩
    rcases rewrites.1 written with ⟨text', given'⟩ | other
    · rw [given] at given'
      cases given'
    · exact other (modifiers ▸ same)
  · -- The declared line stays, and so does the value that it gives.
    have same : field.modifiers = declared.modifiers := by
      by_contra other
      exact written (rewrites.2 (.inr other))
    have again : parse owner declared.declaration = .ok declared := by
      rw [declaration_of_parse parsed, parse_trim]
      exact parsed
    rw [if_neg written, mixed.declaration]
    refine ⟨declared, again, same.symm, ?_⟩
    rw [mixed.value]
    cases last : FieldChange.lastString list with
    | none => simp [Hidden, last]
    | some text =>
      -- The last string was not given last, or its line would have been written.
      obtain ⟨values, given⟩ := (FieldChange.exists_lastGiven last).resolve_left
        fun scalar => written (rewrites.2 (.inl scalar))
      simp [Hidden, last, given, FieldValue.content, modifiers, same]

end Mixed

end Field

namespace ClassText

/-- Changes leave each member its place. -/
theorem Placed.changes {source : ClassText} (placed : Placed source) (list : List MemberChange) :
    Placed (source.changes list) := by
  -- They are calls.
  have called := placed.calls (list.map .change)
  rw [ClassText.calls, List.foldl_map] at called
  exact called

/-- After a flush the declaration of every field stands on a line of the new text. -/
theorem Placed.exists_said {source flushed : ClassText} (placed : Placed source)
    (done : source.flush = .ok flushed)
    (writable : ∀ field ∈ source.fields, field.rewritesDeclaration → field.Writable)
    (open' : ∀ field ∈ source.fields, ∀ values, field.pending = .composite values →
      '\n' ∉ field.reference)
    (enclosable : ∀ method ∈ source.methods, Enclosable method.body) {field : Field}
    (member : field ∈ flushed.fields) :
    ∃ line ∈ Text.lines flushed.text, line.trimmed = field.declaration := by
  -- The new lines are the layout, filled with what the flush has written.
  obtain ⟨plan⟩ := flush_ok done
  obtain ⟨layout, bodies, split, fits⟩ := placed.laid
  obtain ⟨cutting⟩ := fits.exists_cutting rfl plan.signatures
    (show Text.pieces source.text = [] ++ _ from split.symm)
    (fun field member _ => placed.once _ (List.mem_map_of_mem member)) placed.distinct (by simp)
  rw [split] at cutting
  have text := text_of_cutting plan cutting
  -- A declaration is written anew or stays, and can stand on its line in both cases.
  have declarable : ∀ declaration ∈ source.fields.map fun field => field.flushed.declaration,
      Declarable declaration := by
    rw [List.forall_mem_map]
    intro field member
    rw [Field.declaration_flushed]
    split
    · next rewrites => exact declarable_declarationText (writable field member rewrites)
    · exact fits.declarable _ (List.mem_map_of_mem member)
  have drafted : ∀ draft ∈ plan.drafts, Enclosable draft.body := by
    intro draft member
    obtain ⟨method, inside, run⟩ := List.exists_of_mem_right plan.drafted member
    exact run.enclosable open' (enclosable method inside)
  -- Bodies are written or stay in the same way.
  have left : ∀ body ∈ List.zipWith Draft.leaves plan.drafts bodies, Enclosable body := by
    rw [← List.map_uncurry_zip_eq_zipWith, List.forall_mem_map]
    rintro ⟨draft, body⟩ member
    obtain ⟨inside, inside'⟩ := List.of_mem_zip member
    simp only [Function.uncurry_apply_pair, Draft.leaves]
    split
    · exact drafted draft inside
    · exact fits.enclosable body inside'
  have length : (List.zipWith Draft.leaves plan.drafts bodies).length = bodies.length := by
    have signatures := congrArg List.length plan.signatures
    rw [List.length_map, ← fits.length_bodies] at signatures
    rw [List.length_zipWith, signatures, Nat.min_self]
  have filled := fits.refill declarable left (by simp) length
  -- The declaration that is looked for is one of those that fill the layout.
  have written : field.declaration ∈
      source.fields.map fun field => field.flushed.declaration := by
    rw [plan.fields_eq] at member
    obtain ⟨field, inside, rfl⟩ := List.mem_map.1 member
    exact List.mem_map_of_mem inside
  obtain ⟨piece, inside, said⟩ := filled.exists_said written
  rw [← filled.pieces_filled, ← text, ← Text.map_piece_lines] at inside
  obtain ⟨line, here, rfl⟩ := List.mem_map.1 inside
  exact ⟨line, here, (Line.trimmed_eq here).trans said⟩

/-- Changes of the field at a position are all for that field. -/
theorem filterMap_fieldChange (index other : Nat) (list : List FieldChange) :
    (list.map (MemberChange.field index)).filterMap (MemberChange.fieldChange? other) =
      if index = other then list else [] := by
  -- Those for another position do not count.
  by_cases here : index = other
  · simp [List.filterMap_map, Function.comp_def, MemberChange.fieldChange?, here]
  · simp [List.filterMap_map, Function.comp_def, MemberChange.fieldChange?, here]

/-- Changes of a field leave the methods as they are. -/
theorem methods_fieldChanges (source : ClassText) (index : Nat) (list : List FieldChange) :
    (source.changes (list.map (.field index))).methods = source.methods := by
  -- No change is one of a method.
  refine source.methods_changes_of_fields fun change member _ => ?_
  obtain ⟨change, -, rfl⟩ := List.mem_map.1 member
  rfl

/-- Changes of a field leave the other fields as they are. -/
theorem mem_fieldChanges_cases {source : ClassText} {index : Nat} {list : List FieldChange}
    {field : Field} (member : field ∈ (source.changes (list.map (.field index))).fields) :
    field ∈ source.fields ∨ ∃ declared, source.fields[index]? = some declared ∧
      field = list.foldl FieldChange.apply declared := by
  -- The field stands at that position or at another one.
  obtain ⟨position, here⟩ := List.getElem?_of_mem member
  rw [fields_changes, filterMap_fieldChange] at here
  obtain ⟨declared, before, rfl⟩ := Option.map_eq_some_iff.1 here
  by_cases same : index = position
  · rw [if_pos same]
    exact .inr ⟨declared, same ▸ before, rfl⟩
  · rw [if_neg same]
    exact .inl (List.mem_of_getElem? before)

/-- When a field that was read has undergone mixed changes, a flush leaves its declaration on a
line. -/
theorem exists_said_mixed {source flushed : ClassText} {owner : Text} (open' : '\n' ∉ owner)
    (reads : Reads owner (Text.pieces source.text) source.fields source.methods)
    (distinct : (source.methods.map Method.signature).Nodup)
    (once : ∀ field ∈ source.fields,
      (Text.lines source.text).countP (fun line => line.trimmed == field.declaration) = 1)
    {index : Nat} {declared : Field} (listed : source.fields[index]? = some declared)
    {list : List FieldChange} (mixed : declared.Mixed list (list.foldl FieldChange.apply declared))
    (done : (source.changes (list.map (.field index))).flush = .ok flushed) :
    flushed.fields[index]? = some (list.foldl FieldChange.apply declared).flushed ∧
      ∃ line ∈ Text.lines flushed.text,
        line.trimmed = (list.foldl FieldChange.apply declared).flushed.declaration := by
  -- Only that field is written, and nothing is built for another one.
  have cases' : ∀ field ∈ (source.changes (list.map (.field index))).fields,
      field ∈ source.fields ∨ field = list.foldl FieldChange.apply declared := by
    intro field member
    refine (mem_fieldChanges_cases member).imp_right ?_
    rintro ⟨other, listed', rfl⟩
    rw [listed, Option.some.injEq] at listed'
    rw [listed']
  have rewritten : ∀ field ∈ (source.changes (list.map (.field index))).fields,
      field.rewritesDeclaration → field.Writable := by
    intro field member rewrites
    rcases cases' field member with kept | rfl
    · rw [Field.rewritesDeclaration, reads.clean.1 field kept] at rewrites
      cases rewrites
    · exact mixed.writable
  -- Only the field itself may await a list, and its reference keeps to one line.
  have built : ∀ field ∈ (source.changes (list.map (.field index))).fields, ∀ values,
      field.pending = .composite values → '\n' ∉ field.reference := by
    intro field member values pending
    rcases cases' field member with kept | rfl
    · obtain ⟨piece, -, parsed⟩ := reads.exists_field kept
      rw [(Field.reading_of_parse parsed).fresh] at pending
      cases pending
    · obtain ⟨piece, -, parsed⟩ := reads.exists_field (List.mem_of_getElem? listed)
      refine mixed.writable.open_reference ?_
      rw [mixed.owner, (Field.reading_of_parse parsed).fresh]
      exact open'
  have enclosable : ∀ method ∈ (source.changes (list.map (.field index))).methods,
      Enclosable method.body := by
    rw [methods_fieldChanges]
    intro method member
    obtain ⟨closed, between⟩ := reads.enclosed (List.Sublist.refl _) member
    exact ⟨closed, between⟩
  have left : flushed.fields[index]? = some (list.foldl FieldChange.apply declared).flushed := by
    obtain ⟨plan⟩ := flush_ok done
    rw [plan.fields_eq, List.getElem?_map, fields_changes, filterMap_fieldChange, if_pos rfl,
      listed]
    rfl
  have placed := (placed_of_reads reads distinct once).changes (list.map (.field index))
  exact ⟨left, placed.exists_said done rewritten built enclosable (List.mem_of_getElem? left)⟩

end ClassText

/-- Whatever values and modifiers a field that holds lists has been given before a flush, its line
is read back with its modifiers, and with its value exactly if the last string is not hidden by a
list. -/
theorem Document.reread_mixed_iff {options : ParseOptions} {text : Text}
    {document flushed : Document} (read : parse options text = .ok document)
    (distinct : (document.methods.map Method.signature).Nodup)
    (once : ∀ field ∈ document.fields,
      (Text.lines document.text).countP (fun line => line.trimmed == field.declaration) = 1)
    {index : Nat} {declared : Field} (listed : document.fields[index]? = some declared)
    (type : declared.type = stringArray) (noEquals : ['='] ∉ declared.modifiers)
    {list : List FieldChange} (mixable : ∀ change ∈ list, change.Mixable)
    (done : (document.withSource (document.changes (list.map (.field index)))).flush =
      .ok flushed) :
    ∃ left line reread, flushed.fields[index]? = some left ∧ line ∈ Text.lines flushed.text ∧
      line.trimmed = left.declaration ∧
      Field.parse document.descriptor line.content = .ok reread ∧
      reread.modifiers = left.modifiers ∧
      (reread.value.map FieldValue.content = left.value.map FieldValue.content ↔
        ¬ declared.Hidden list left) := by
  -- The line says the declaration that the flush leaves, from which the field is read.
  have settled : document.Settled := settled_of_parse read
  obtain ⟨⟨heading, first, header⟩, -, reads⟩ := ClassText.coherent_iff.1 settled.coherent
  obtain ⟨piece, inside, parsed⟩ := reads.exists_field (List.mem_of_getElem? listed)
  have reading := Field.reading_of_parse parsed
  have writable : declared.Writable :=
    reading.writable noEquals (Text.open_trim (Text.isPiece_of_mem_pieces inside))
  have start : declared.Mixed [] declared :=
    ⟨rfl, rfl, rfl, writable, fun _ => rfl, rfl, by rw [reading.fresh]; rfl⟩
  have mixed : declared.Mixed list (list.foldl FieldChange.apply declared) :=
    start.foldl type mixable
  simp only [Document.flush, bind_eq_ok, pure_eq_ok] at done
  obtain ⟨source, flushing, rfl⟩ := done
  obtain ⟨left, line, here, said⟩ := ClassText.exists_said_mixed (Header.exists_front header).2.1
    reads distinct once listed mixed flushing
  obtain ⟨reread, again, modifiers, value⟩ := mixed.exists_reread parsed noEquals
  rw [← said, Line.trimmed, Field.parse_trim] at again
  exact ⟨_, line, reread, left, here, said, again, modifiers, value⟩

/-- A document with one field that holds lists, and a static initializer. -/
def Document.listSample : Document where
  -- The declaration gives no value.
  text := (".class La;\n.super Lo;\n  .field static z:[Ljava/lang/String;\n" ++
    ".method static <clinit>()V\n.locals 3\nreturn-void\n.end method\n").toList
  descriptor := "La;".toList
  modifiers := []
  superclass := "Lo;".toList
  fields := [⟨"La;".toList, ["static".toList], ['z'], stringArray, none,
    ".field static z:[Ljava/lang/String;".toList, "La;->z:[Ljava/lang/String;".toList, none,
    .unchanged, false⟩]
  methods := [⟨"La;".toList, ["static".toList], "<clinit>".toList, [], [], ['V'],
    ".locals 3\nreturn-void\n".toList, false⟩]
  diagnostics := []
  path := none
  origin := none
  modified := false

/-- A list behind a string does not hide it when a modifier is added. -/
theorem Document.reread_mixed_sample :
    let list : List FieldChange :=
      [.setStringArray [['b']], .setValue ['x'], .setFinal true, .setStringArray [['c']]]
    ∃ flushed left line reread,
      (listSample.withSource (listSample.changes (list.map (.field 0)))).flush = .ok flushed ∧
      flushed.fields[0]? = some left ∧ line ∈ Text.lines flushed.text ∧
      line.trimmed = ".field static final z:[Ljava/lang/String; = \"x\"".toList ∧
      Field.parse listSample.descriptor line.content = .ok reread ∧
      reread.modifiers = left.modifiers ∧
      reread.value.map FieldValue.content = left.value.map FieldValue.content := by
  -- The flush succeeds, and the modifiers have not come out as they were declared.
  intro list
  have run : (listSample.withSource (listSample.changes (list.map (.field 0)))).flush.map
      (fun flushed => flushed.fields[0]?.map fun left => (left.declaration, left.modifiers)) =
      .ok (some (".field static final z:[Ljava/lang/String; = \"x\"".toList,
        ["static".toList, "final".toList])) := by
    decide +kernel
  cases made : (listSample.withSource (listSample.changes (list.map (.field 0)))).flush with
  | error error =>
    rw [made] at run
    cases run
  | ok flushed =>
    rw [made] at run
    have source : ClassText.parse listSample.text = .ok listSample.toClassText := by
      decide +kernel
    have read : parse {} listSample.text = .ok listSample := bind_eq_ok.2 ⟨_, source, rfl⟩
    have mixable : ∀ change ∈ list, change.Mixable := by decide
    obtain ⟨left, line, reread, here, inside, said, parsed, modifiers, value⟩ :=
      Document.reread_mixed_iff read (by decide +kernel) (by decide +kernel)
        (List.getElem?_cons_zero (l := [])) rfl (by decide) mixable made
    have kept : flushed.fields[0]?.map (fun left => (left.declaration, left.modifiers)) = _ :=
      Except.ok.inj run
    rw [here, Option.map_some, Option.some.injEq, Prod.mk.injEq] at kept
    -- One modifier is new, so that the line is written.
    have shown : ¬ Field.Hidden listSample.fields[0] list left := by
      rintro ⟨text, values, -, -, same, -⟩
      rw [kept.2] at same
      exact absurd same (by decide)
    exact ⟨flushed, left, line, reread, rfl, here, inside, said.trans kept.1, parsed, modifiers,
      value.2 shown⟩

/-- A list hides the string before it: the field holds the string and its line gives no value. -/
theorem Document.reread_mixed_hiddenSample :
    ClassText.parse listSample.text = .ok listSample.toClassText ∧
    (listSample.methods.map Method.signature).Nodup ∧
    (∀ field ∈ listSample.fields,
      (Text.lines listSample.text).countP (fun line => line.trimmed == field.declaration) = 1) ∧
    ∃ flushed left line reread, (listSample.withSource (listSample.changes
        [.field 0 (.setValue ['x']), .field 0 (.setStringArray [['b']])])).flush = .ok flushed ∧
      flushed.fields[0]? = some left ∧ (Text.lines flushed.text)[2]? = some line ∧
      line.trimmed = left.declaration ∧
      Field.parse listSample.descriptor line.content = .ok reread ∧
      left.value = some (.str ['x']) ∧ reread.value = none := by
  -- The flush builds the list and leaves the line as it is.
  refine ⟨by decide +kernel, by decide +kernel, by decide +kernel, ?_⟩
  have run : (listSample.withSource (listSample.changes
      [.field 0 (.setValue ['x']), .field 0 (.setStringArray [['b']])])).flush.map
      (fun flushed => (flushed.fields[0]?.map fun left => (left.declaration, left.value),
        (Text.lines flushed.text)[2]?.map fun line => (line.trimmed,
          (Field.parse listSample.descriptor line.content).map Field.value))) =
      .ok (some (".field static z:[Ljava/lang/String;".toList, some (.str ['x'])),
        some (".field static z:[Ljava/lang/String;".toList, .ok none)) := by
    decide +kernel
  cases made : (listSample.withSource (listSample.changes
      [.field 0 (.setValue ['x']), .field 0 (.setStringArray [['b']])])).flush with
  | error error =>
    rw [made] at run
    cases run
  | ok flushed =>
    rw [made] at run
    obtain ⟨field, line⟩ := Prod.mk.inj (Except.ok.inj run)
    obtain ⟨left, here, held⟩ := Option.map_eq_some_iff.1 field
    obtain ⟨line, inside, said⟩ := Option.map_eq_some_iff.1 line
    obtain ⟨declaration, value⟩ := Prod.mk.inj held
    obtain ⟨trimmed, parsed⟩ := Prod.mk.inj said
    cases read : Field.parse listSample.descriptor line.content with
    | error error =>
      rw [read] at parsed
      cases parsed
    | ok reread =>
      rw [read] at parsed
      exact ⟨flushed, left, line, reread, rfl, here, inside, trimmed.trans declaration.symm, read,
        value, Except.ok.inj parsed⟩

end Smali
