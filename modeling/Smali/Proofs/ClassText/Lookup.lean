import Smali.Proofs.ClassText.Changes
import Smali.Proofs.ClassText.Showing
import Smali.Proofs.Header

/-! What is written for a member of a class is read as a reference to it, and finds the first member
that is written alike. -/

namespace Smali

/-- A field that is read is well formed unless its name looks like that of a method. -/
theorem Field.wellFormed_of_parse {owner line : Text} {field : Field}
    (done : parse owner line = .ok field) (noParen : '(' ∉ field.name) :
    (Reference.ofField field.fieldRef).WellFormed := by
  -- The name ends at the colon of the declaration.
  have reading := reading_of_parse done
  have solid : Text.Solid field.name := fun c inside =>
    reading.solid_member c (List.mem_append_left _ inside)
  exact Reference.wellFormed_field
    (Reference.forall_isMemberChar.2 ⟨reading.noColon, noParen, solid⟩) reading.type

/-- A method that is read is well formed unless its name looks like that of a field. -/
theorem Method.wellFormed_of_parse {owner line body : Text} {method : Method}
    (done : parse owner line body = .ok method) (noColon : ':' ∉ method.name) :
    (Reference.ofMethod method.methodRef).WellFormed := by
  -- The name ends at the first parenthesis of the last word of the header.
  obtain ⟨rest, word, modifiers, name, parameterRun, returnType, parameters, -, reversed, parted, -,
    segmented, rfl⟩ := parse_eq_ok.1 done
  obtain ⟨whole, noParen, -, returned⟩ := partSignature_eq_some.1 parted
  have member : word ∈ Text.words rest := by
    rw [← List.mem_reverse, reversed]
    exact List.mem_cons_self ..
  have solid : Text.Solid name := fun c inside =>
    (Text.solid_of_mem_words member).2 c (by simp [whole, inside])
  exact Reference.wellFormed_method (Reference.forall_isMemberChar.2 ⟨noColon, noParen, solid⟩) rfl
    segmented returned

namespace ClassText

variable {text : Text} {source : ClassText}

/-- The class that is read has the form of a class. -/
theorem isClass_of_parse (done : parse text = .ok source) :
    Descriptor.isClass source.descriptor := by
  -- The header has been checked.
  obtain ⟨header, superclass, reading, named, -, -, rfl⟩ := parse_eq_ok.1 done
  obtain ⟨line, -, read⟩ := readHeader_eq_ok.1 named
  exact (Header.exists_front read).1

/-- Every field of a class that is read is read from a line as a field of that class. -/
theorem exists_field_line (done : parse text = .ok source) {field : Field}
    (member : field ∈ source.fields) :
    ∃ line, Field.parse source.descriptor line = .ok field := by
  -- The fields are what can be read of the lines outside.
  obtain ⟨outside, blocks, accounts⟩ := exists_accounts done
  obtain ⟨line, -, -, read⟩ := accounts.mem_fields_iff.1 member
  exact ⟨line.content, read⟩

/-- Every method of a class that is read is read from a header as a method of that class. -/
theorem exists_method_header (done : parse text = .ok source) {method : Method}
    (member : method ∈ source.methods) :
    ∃ line, Method.parse source.descriptor line method.body = .ok method := by
  -- Each method is held by a block.
  obtain ⟨outside, blocks, accounts⟩ := exists_accounts done
  obtain ⟨block, -, holds⟩ := List.exists_of_mem_right accounts.methods member
  exact ⟨block.header.content, holds.read⟩

/-- The class of a field that is read is the one that is read. -/
theorem owner_of_field (done : parse text = .ok source) {field : Field}
    (member : field ∈ source.fields) : field.fieldRef.owner = source.descriptor := by
  -- A field belongs to the class that it is read for.
  obtain ⟨line, read⟩ := exists_field_line done member
  rw [(Field.reading_of_parse read).fresh]
  rfl

/-- The class of a method that is read is the one that is read. -/
theorem owner_of_method (done : parse text = .ok source) {method : Method}
    (member : method ∈ source.methods) : method.methodRef.owner = source.descriptor := by
  -- A method belongs to the class that it is read for.
  obtain ⟨line, read⟩ := exists_method_header done member
  obtain ⟨rest, word, modifiers, name, parameterRun, returnType, parameters, -, -, -, -, -, same⟩ :=
    Method.parse_eq_ok.1 read
  rw [same]
  rfl

/-- The member that is looked for is what stands behind the class and the first arrow. -/
theorem memberPart?_display {owner member : Text} (noArrow : ¬ arrow <:+: owner) :
    memberPart? owner (owner ++ arrow ++ member) = some member := by
  -- The class is the one that is named.
  rw [memberPart?, Text.splitOnce_arrow noArrow]
  simp

section

variable (done : parse text = .ok source) (noArrow : ¬ arrow <:+: source.descriptor)

include done noArrow

/-- A well-formed member of the class is read back from what is written for it. -/
theorem parse_display {reference : Reference} (formed : reference.WellFormed)
    (owned : reference.owner = source.descriptor) :
    Reference.parse reference.display = .ok reference := by
  -- There are no blanks around the class.
  refine formed.parse_display ?_ ?_ <;> rw [owned]
  · exact Descriptor.trim_class (isClass_of_parse done)
  · exact noArrow

/-- A field that is looked for with its class is the first one with the same name and type. -/
theorem field?_display {field : Field} (member : field ∈ source.fields) :
    source.field? field.reference =
      source.fields.find? fun other => other.name == field.name && other.type == field.type := by
  -- Names end before the first colon, so that names and types are compared one by one.
  obtain ⟨line, read⟩ := exists_field_line done member
  have reading := Field.reading_of_parse read
  rw [field?, fieldIndex?, Field.reference, FieldRef.display, owner_of_field done member,
    memberPart?_display noArrow,
    Option.bind_some, ← List.find?_eq_bind_findIdx?_getElem?]
  refine List.find?_congr fun other inside => ?_
  obtain ⟨line', read'⟩ := exists_field_line done inside
  have reading' := Field.reading_of_parse read'
  rw [Bool.eq_iff_iff, Bool.and_eq_true, beq_iff_eq, beq_iff_eq, beq_iff_eq]
  constructor
  · exact Text.eq_of_first reading'.noColon reading.noColon
  · rintro ⟨name, type⟩
    simp [Field.member, Field.fieldRef, FieldRef.member, name, type]

/-- A method that is looked for with its class is the first one with the same signature. -/
theorem method?_display {method : Method} (member : method ∈ source.methods) :
    source.method? method.reference =
      source.methods.find? fun other => other.signature == method.signature := by
  -- Signatures are compared as a whole.
  rw [method?, methodIndex?, Method.reference, MethodRef.display, owner_of_method done member,
    memberPart?_display noArrow, Option.bind_some, ← List.find?_eq_bind_findIdx?_getElem?]
  rfl

end

end ClassText

namespace Document

/-- A reference that is read is read back from what is written for it, and so are the members of a
class that is read, where what is written for a member finds the first one that is written alike. -/
theorem references_faithful :
    (∀ text reference, Reference.parse text = .ok reference →
      Reference.parse reference.display = .ok reference) ∧
    ∀ options text document, parse options text = .ok document →
      ¬ arrow <:+: document.descriptor →
      (∀ field ∈ document.fields, '(' ∉ field.name →
        Reference.parse field.reference = .ok (.ofField field.fieldRef) ∧
        ∃ first, document.field? field.reference = some first ∧ document.fields.find?
          (fun other => other.name == field.name && other.type == field.type) = some first) ∧
      ∀ method ∈ document.methods, ':' ∉ method.name →
        Reference.parse method.reference = .ok (.ofMethod method.methodRef) ∧
        ∃ first, document.method? method.reference = some first ∧ document.methods.find?
          (fun other => other.signature == method.signature) = some first := by
  -- What is written for a member is split again where its declaration was split.
  refine ⟨fun text reference => Reference.parse_display_of_parse,
    fun options text document read noArrow => ?_⟩
  simp only [parse, bind_eq_ok, pure_eq_ok] at read
  obtain ⟨source, done, rfl⟩ := read
  refine ⟨fun field member noParen => ?_, fun method member noColon => ?_⟩
  · obtain ⟨line, declared⟩ := ClassText.exists_field_line done member
    -- The member itself would be found if no earlier one were written alike.
    have held : (source.fields.find? fun other =>
        other.name == field.name && other.type == field.type).isSome :=
      List.find?_isSome.2 ⟨field, member, by simp⟩
    obtain ⟨first, found⟩ := Option.isSome_iff_exists.1 held
    exact ⟨ClassText.parse_display done noArrow (Field.wellFormed_of_parse declared noParen)
        (ClassText.owner_of_field done member),
      first, (ClassText.field?_display done noArrow member).trans found, found⟩
  · obtain ⟨line, declared⟩ := ClassText.exists_method_header done member
    have held : (source.methods.find? fun other => other.signature == method.signature).isSome :=
      List.find?_isSome.2 ⟨method, member, by simp⟩
    obtain ⟨first, found⟩ := Option.isSome_iff_exists.1 held
    exact ⟨ClassText.parse_display done noArrow (Method.wellFormed_of_parse declared noColon)
        (ClassText.owner_of_method done member),
      first, (ClassText.method?_display done noArrow member).trans found, found⟩

/-- A class whose name looks like the start of a field, with fields and methods that are declared
twice and have arrows in their names. -/
def keysSample : Document where
  -- The types of the fields and the parameters of the methods name the class.
  text := (".class La:(b;\n.super Lo;\n.field x->y:[La:(b;\n.field static x->y:[La:(b;\n" ++
    ".method f->g([ILa:(b;)V\n.end method\n.method static f->g([ILa:(b;)V\n.end method").toList
  descriptor := "La:(b;".toList
  modifiers := []
  superclass := "Lo;".toList
  fields := [
    ⟨"La:(b;".toList, [], "x->y".toList, "[La:(b;".toList, none, ".field x->y:[La:(b;".toList,
      "La:(b;->x->y:[La:(b;".toList, none, .unchanged, false⟩,
    ⟨"La:(b;".toList, ["static".toList], "x->y".toList, "[La:(b;".toList, none,
      ".field static x->y:[La:(b;".toList, "La:(b;->x->y:[La:(b;".toList, none, .unchanged, false⟩]
  methods := [
    ⟨"La:(b;".toList, [], "f->g".toList, "[ILa:(b;".toList, ["[I".toList, "La:(b;".toList], ['V'],
      [], false⟩,
    ⟨"La:(b;".toList, ["static".toList], "f->g".toList, "[ILa:(b;".toList,
      ["[I".toList, "La:(b;".toList], ['V'], [], false⟩]
  diagnostics := []
  path := none
  origin := none
  modified := false

/-- The second ones of the members that the sample declares twice are read back from their
references, which find the first ones. -/
theorem references_faithful_sample :
    Reference.parse " La:(b; ->x:I\t".toList = .ok (.ofField ⟨"La:(b;".toList, ['x'], ['I']⟩) ∧
    Reference.parse "La:(b;->x:I".toList = .ok (.ofField ⟨"La:(b;".toList, ['x'], ['I']⟩) ∧
    parse {} keysSample.text = .ok keysSample ∧ ¬ arrow <:+: keysSample.descriptor ∧
    (∃ field ∈ keysSample.fields, '(' ∉ field.name ∧ field.modifiers = ["static".toList] ∧
      Reference.parse field.reference = .ok (.ofField field.fieldRef) ∧
      ∃ first, keysSample.field? field.reference = some first ∧ first.modifiers = []) ∧
    ∃ method ∈ keysSample.methods, ':' ∉ method.name ∧ method.modifiers = ["static".toList] ∧
      Reference.parse method.reference = .ok (.ofMethod method.methodRef) ∧
      ∃ first, keysSample.method? method.reference = some first ∧ first.modifiers = [] := by
  -- Reading the text gives the members that are listed.
  have spaced : Reference.parse " La:(b; ->x:I\t".toList =
      .ok (.ofField ⟨"La:(b;".toList, ['x'], ['I']⟩) := by
    decide +kernel
  have source : ClassText.parse keysSample.text = .ok keysSample.toClassText := by
    decide +kernel
  have read : parse {} keysSample.text = .ok keysSample := bind_eq_ok.2 ⟨_, source, rfl⟩
  have noArrow : ¬ arrow <:+: keysSample.descriptor := by
    decide +kernel
  obtain ⟨keys, members⟩ := references_faithful
  obtain ⟨fields, methods⟩ := members {} _ _ read noArrow
  obtain ⟨field, first, found, one⟩ := fields keysSample.fields[1] (by decide) (by decide)
  obtain ⟨method, first', found', one'⟩ := methods keysSample.methods[1] (by decide) (by decide)
  cases one
  cases one'
  exact ⟨spaced, keys _ _ spaced, read, noArrow,
    ⟨_, by decide, by decide, rfl, field, _, found, rfl⟩,
    _, by decide, by decide, rfl, method, _, found', rfl⟩

end Document

end Smali
