import Smali.Proofs.ClassText.Brackets
import Smali.Proofs.Field
import Smali.Proofs.Reference

/-! A class declares a member exactly if a line shows it as the last word before any value or
comment. -/

namespace Smali

open Text (LastWord)

namespace Field

/-- The part of a declaration behind its directive that stands before the value. -/
def leftSide (body : Text) : Text :=
  -- Without a value it is all of it.
  match Text.splitOnce " = ".toList body with
  | some (left, _) => left
  | none => body

/-- A declaration is its directive, spaces or tabs and a body. -/
structure Directed (declaration gap body : Text) : Prop where
  /-- These are the parts of the declaration. -/
  whole : declaration = ".field".toList ++ (gap ++ body)
  /-- There is a space or a tab. -/
  nonempty : gap ≠ []
  /-- There is nothing else. -/
  spaces : ∀ c ∈ gap, Text.isSpace c
  /-- All of them stand before the body. -/
  stops : ∀ c, body.head? = some c → Text.isSpace c = false

/-- What follows the directive is the body. -/
theorem afterDirective?_eq_some {declaration body : Text} :
    afterDirective? declaration = some body ↔ ∃ gap, Directed declaration gap body := by
  -- The first space or tab has to be there.
  constructor
  · intro found
    obtain ⟨c, rest, rfl, space, rfl⟩ := afterDirective_some found
    -- The gap is all that is skipped behind the directive.
    refine ⟨c :: rest.takeWhile Text.isSpace, ?_, by simp, fun d member => ?_, fun d first => ?_⟩
    · rw [List.cons_append, Text.skipSpaces, List.takeWhile_append_dropWhile]
    · rcases List.mem_cons.1 member with rfl | inside
      · exact space
      · exact List.mem_takeWhile_imp inside
    · have stopped := List.head?_dropWhile_not Text.isSpace rest
      rw [show List.dropWhile Text.isSpace rest = Text.skipSpaces rest from rfl, first] at stopped
      simpa using stopped
  · rintro ⟨gap, rfl, nonempty, spaces, stops⟩
    obtain ⟨c, rest, rfl⟩ := List.exists_cons_of_ne_nil nonempty
    -- Skipping stops where the body begins.
    have skipped : Text.skipSpaces (rest ++ body) = body := by
      rw [Text.skipSpaces, List.dropWhile_append_of_pos fun d member => spaces d (by simp [member])]
      cases body with
      | nil => rfl
      | cons d others => rw [List.dropWhile_cons_of_neg (by simp [stops d rfl])]
    have found := Text.afterPrefix?_eq_some.2
      (rfl : ".field".toList ++ (c :: rest ++ body) = ".field".toList ++ (c :: rest ++ body))
    rw [List.cons_append] at found
    rw [afterDirective?, List.cons_append, found]
    simp only [spaces c (by simp), if_true, skipped]

/-- A declaration shows a member behind a front, as the last word before the value. -/
structure Shows (declaration front member : Text) : Prop where
  /-- The front is the directive with what stands before the last word. -/
  parts : ∃ gap body left tail, Directed declaration gap body ∧
    LastWord (leftSide body) left member tail ∧ front = ".field".toList ++ (gap ++ left)

/-- A declaration has one body only. -/
theorem Directed.unique {declaration gap body gap' body' : Text}
    (directed : Directed declaration gap body) (directed' : Directed declaration gap' body') :
    gap = gap' ∧ body = body' := by
  -- The body is what follows the directive.
  have found := afterDirective?_eq_some.2 ⟨gap, directed⟩
  rw [afterDirective?_eq_some.2 ⟨gap', directed'⟩, Option.some.injEq] at found
  subst found
  have whole := directed.whole
  rw [directed'.whole, List.append_cancel_left_eq, List.append_cancel_right_eq] at whole
  exact ⟨whole.symm, rfl⟩

/-- A declaration shows a member behind one front only. -/
theorem Shows.unique {declaration front member front' : Text}
    (shown : Shows declaration front member) (shown' : Shows declaration front' member) :
    front = front' := by
  -- There is one body, which has one left side.
  obtain ⟨gap, body, left, tail, directed, last, rfl⟩ := shown
  obtain ⟨gap', body', left', tail', directed', last', rfl⟩ := shown'
  obtain ⟨rfl, rfl⟩ := directed.unique directed'
  rw [(last.unique last').1]

/-- The words before the value are those of the left side. -/
theorem partLiteral_words (body : Text) : (partLiteral body).1 = Text.words (leftSide body) := by
  -- Both are split alike.
  unfold partLiteral leftSide
  cases Text.splitOnce " = ".toList body <;> rfl

/-- The front of a declaration ends with a blank, and its words are the directive and those of the
left side before the member. -/
theorem Directed.front {declaration gap body left : Text} (directed : Directed declaration gap body)
    (apart : ∀ c, left.getLast? = some c → Text.isBlank c) :
    (∀ c, (".field".toList ++ (gap ++ left)).getLast? = some c → Text.isBlank c) ∧
      Text.words (".field".toList ++ (gap ++ left)) = ".field".toList :: Text.words left := by
  -- The spaces and tabs are blank.
  have blank : ∀ c ∈ gap, Text.isBlank c := fun c member =>
    Text.isBlank_of_isSpace (directed.spaces c member)
  constructor
  · intro c final
    rw [List.getLast?_append_of_ne_nil _ (by simp [directed.nonempty])] at final
    rcases List.mem_append.1 (List.mem_of_getLast? final) with inside | inside
    · exact blank c inside
    · obtain ⟨d, last⟩ := Option.isSome_iff_exists.1
        (List.getLast?_isSome.2 (List.ne_nil_of_mem inside))
      rw [List.getLast?_append, last, Option.some_or, Option.some.injEq] at final
      exact final ▸ apart d last
  · obtain ⟨c, rest, same⟩ := List.exists_cons_of_ne_nil directed.nonempty
    rw [same, List.cons_append, words_directive (directed.spaces c (by simp [same])),
      Text.words_append_lead fun d member => blank d (by simp [same, member])]

/-- A declaration that is read shows its member behind its modifiers. -/
theorem exists_shows {owner line : Text} {field : Field} (done : parse owner line = .ok field) :
    ∃ front, Shows (Text.trim line) front field.member ∧
      Text.words front = ".field".toList :: field.modifiers := by
  -- The member is the last word that is read.
  obtain ⟨body, last, modifiers, name, type, found, reversed, split, -, -, rfl⟩ :=
    parse_eq_ok.1 done
  obtain ⟨gap, directed⟩ := afterDirective?_eq_some.1 found
  have words : Text.words (leftSide body) = modifiers.reverse ++ [last] := by
    rw [← partLiteral_words, ← List.reverse_reverse (partLiteral body).1, reversed,
      List.reverse_cons]
  have final : (Text.words (leftSide body)).getLast? = some last := by
    rw [words, List.getLast?_concat]
  obtain ⟨left, tail, shown⟩ := Text.exists_lastWord final
  have member : last = name ++ ':' :: type := by
    rw [Text.eq_of_splitOnce split, List.append_assoc]
    rfl
  rw [member] at shown
  refine ⟨_, ⟨gap, body, left, tail, directed, shown, rfl⟩, ?_⟩
  rw [shown.words, member] at words
  rw [(directed.front shown.apart).2, (List.append_inj' words rfl).1]

/-- A declaration that shows a well-formed field with a name is read as that field. -/
theorem Shows.exists_parse {field : FieldRef} (formed : (Reference.ofField field).WellFormed)
    (named : field.name ≠ []) {line front : Text}
    (shows' : Shows (Text.trim line) front field.member) (owner : Text) :
    ∃ read, parse owner line = .ok read ∧ read.member = field.member := by
  -- The name ends at the colon, and the type is a whole one.
  obtain ⟨gap, body, left, tail, directed, shown, -⟩ := shows'
  have colon : ':' ∉ field.name := fun member => absurd (formed.name ':' member) (by decide)
  have isType : Descriptor.isType field.descriptor := by
    have typing := formed.typing
    simp only [Reference.splitTyping, Reference.typing, FieldRef.splitTyping,
      Option.map_eq_some_iff, Prod.mk.injEq, List.cons.injEq, true_and, Prod.exists] at typing
    obtain ⟨type, behind, taken, rfl, rfl⟩ := typing
    exact Descriptor.isType_iff.2 taken
  have words : (partLiteral body).1.reverse = field.member :: (Text.words left).reverse := by
    rw [partLiteral_words, shown.words, List.reverse_append]
    rfl
  exact ⟨_, parse_eq_ok.2 ⟨body, field.member, _, field.name, field.descriptor,
    afterDirective?_eq_some.2 ⟨gap, directed⟩, words, Text.splitOnce_char colon field.descriptor,
    named, isType, rfl⟩, rfl⟩

/-- The member stands behind a space in the declaration of a field. -/
def Spaced (field : Field) : Prop :=
  -- The words before it are the directive and the modifiers.
  ∃ front back, field.declaration = front ++ ' ' :: (field.member ++ back) ∧
    Text.words front = ".field".toList :: field.modifiers

/-- The member of a field stands behind a space exactly if the front that shows it ends with one. -/
theorem spaced_iff {field : Field} {front : Text}
    (shows' : Shows field.declaration front field.member)
    (words : Text.words front = ".field".toList :: field.modifiers) :
    field.Spaced ↔ front.getLast? = some ' ' := by
  -- The member stands only once behind these words.
  obtain ⟨gap, body, left, tail, directed, shown, rfl⟩ := shows'
  obtain ⟨apart, -⟩ := directed.front shown.apart
  -- Behind the equals sign stands the value, which is no part of the front.
  obtain ⟨value, whole⟩ : ∃ value, body = left ++ (field.member ++ (tail ++ value)) := by
    unfold leftSide at shown
    split at shown
    · next side literal split =>
      rw [shown.whole] at split
      exact ⟨" = ".toList ++ literal, by rw [Text.eq_of_splitOnce split]; simp⟩
    · exact ⟨[], by rw [shown.whole]; simp⟩
  have whole' : field.declaration =
      (".field".toList ++ (gap ++ left)) ++ (field.member ++ (tail ++ value)) := by
    rw [directed.whole, whole]
    simp
  constructor
  · rintro ⟨front, back, parts, words'⟩
    have apart' : ∀ c, (front ++ [' ']).getLast? = some c → Text.isBlank c := fun c final => by
      rw [List.getLast?_concat, Option.some.injEq] at final
      exact final ▸ by decide
    -- Both fronts have the same words, so that they end at the same member.
    have same : Text.words (front ++ [' ']) = Text.words (".field".toList ++ (gap ++ left)) := by
      rw [words, ← words', Text.words_append_tail (by simpa using by decide)]
    have both : (front ++ [' ']) ++ (field.member ++ back) =
        (".field".toList ++ (gap ++ left)) ++ (field.member ++ (tail ++ value)) := by
      rw [← whole', parts]
      simp
    rw [← Text.front_unique shown.nonempty shown.solid apart' apart same both,
      List.getLast?_concat]
  · intro final
    obtain ⟨before, same⟩ := List.getLast?_eq_some_iff.1 final
    refine ⟨before, tail ++ value, ?_, ?_⟩
    · rw [whole', same]
      simp
    · rw [← words, same, Text.words_append_tail (by simpa using by decide)]

end Field

namespace Reference

/-- A line shows a member behind a front where a member of the same sort is declared. -/
def Shows (content front member : Text) : Reference → Prop
  -- A comment may follow a method.
  | ofClass _ => False
  | ofField _ => Field.Shows (Text.trim content) front member
  | ofMethod _ => ∃ tail, LastWord (Text.beforeComment .outside content) front member tail

/-- The lines that declare members of the same sort. -/
def declaring (outside : List Line) (blocks : List ClassText.Block) : Reference → List Line
  -- Fields are declared outside methods, and methods by their headers.
  | ofClass _ => []
  | ofField _ => outside.filter fun line => line.opensWith ".field".toList
  | ofMethod _ => blocks.map ClassText.Block.header

end Reference

namespace ClassText

/-- The class declares a member. -/
def Declares (reference : Reference) (source : ClassText) : Prop :=
  -- The class that the member belongs to is not looked at.
  match reference with
  | .ofClass _ => False
  | .ofField field => ∃ declared ∈ source.fields, declared.member = field.member
  | .ofMethod method => ∃ declared ∈ source.methods, declared.signature = method.member

/-- The class declares a member only behind a space. -/
def DeclaresSpaced (reference : Reference) (source : ClassText) : Prop :=
  -- Headers of methods may have comments.
  match reference with
  | .ofClass _ => True
  | .ofField field => ∀ declared ∈ source.fields, declared.member = field.member → declared.Spaced
  | .ofMethod method => ∀ line ∈ Text.lines source.text, isHeaderOf method.member line →
      ' ' :: method.member <:+ Text.codePart line.content

variable {source : ClassText} {text : Text} {outside : List Line} {blocks : List Block}
  {reference : Reference}

/-- The fields of a class are what is read from the lines outside that declare one. -/
theorem Accounts.mem_fields_iff (accounts : source.Accounts text outside blocks) {field : Field} :
    field ∈ source.fields ↔ ∃ line ∈ outside, line.opensWith ".field".toList ∧
      Field.parse source.descriptor line.content = .ok field := by
  -- The other lines are reported.
  rw [accounts.fields]
  simp only [verdicts, List.mem_filterMap, List.mem_map, List.mem_filter]
  constructor
  · rintro ⟨_, ⟨line, ⟨member, opened⟩, rfl⟩, read⟩
    refine ⟨line, member, opened, ?_⟩
    unfold verdict at read
    split at read
    · next found =>
      rw [found]
      exact congrArg Except.ok (Option.some.inj read)
    · cases read
  · rintro ⟨line, member, opened, read⟩
    exact ⟨_, ⟨line, ⟨member, opened⟩, rfl⟩, by rw [verdict, read]; rfl⟩

/-- The header of a block shows the signature of the method that the block holds. -/
theorem Block.Holds.signature {block : Block} {owner : Text} {method : Method}
    (holds : block.Holds text owner method) (opened : block.header.opensWith ".method".toList) :
    (Text.words (Text.codePart block.header.content)).getLast? = some method.signature := by
  -- The header is read behind its directive.
  have said : Text.tells ".method".toList block.header.content := by
    rwa [Line.opensWith_eq_opens _ (by decide)] at opened
  have read := holds.read
  rw [← parse_method_trimmed] at read
  rw [Text.words_codePart]
  exact Method.signature_of_parse said read

/-- Each header of a block is a line of the text that opens a method, and shows a signature exactly
if it is a header with that signature. -/
theorem Accounts.header (accounts : source.Accounts text outside blocks) {block : Block}
    (member : block ∈ blocks) : block.header ∈ Text.lines text ∧
      ∀ signature, isHeaderOf signature block.header ↔
        ∃ front tail, LastWord (Text.beforeComment .outside block.header.content) front signature
          tail := by
  -- The signature is the last word before any comment.
  obtain ⟨opened, -, -, front, back, split⟩ := accounts.parted.exists_lines member
  refine ⟨by simp [split], fun signature => ?_⟩
  rw [isHeaderOf, opened, Bool.true_and, beq_iff_eq, ← Text.words_beforeComment]
  constructor
  · exact Text.exists_lastWord
  · rintro ⟨front, tail, shown⟩
    rw [shown.words, List.getLast?_concat]

/-- Every header with a signature is that of a block. -/
theorem Accounts.exists_block (accounts : source.Accounts text outside blocks) {line : Line}
    (inside : line ∈ Text.lines text) (opened : line.opensWith ".method".toList) :
    ∃ block ∈ blocks, block.header = line := by
  -- It is a bracket, and no terminator opens a method.
  have bracket : line ∈ (Text.lines text).filter Line.isBracket :=
    List.mem_filter.2 ⟨inside, Bool.or_eq_true_iff.2 (.inl opened)⟩
  rw [accounts.brackets, List.mem_flatMap] at bracket
  obtain ⟨block, member, either⟩ := bracket
  obtain ⟨-, -, closed, -⟩ := accounts.parted.exists_lines member
  simp only [List.mem_cons, List.not_mem_nil, or_false] at either
  rcases either with rfl | rfl
  · exact ⟨block, member, rfl⟩
  · rw [opensMethod_of_closes closed] at opened
    cases opened

/-- A method that is read has a name, up to the first parenthesis of its signature. -/
theorem splitOnce_signature {owner line body : Text} {method : Method}
    (done : Method.parse owner line body = .ok method) :
    ∃ rest, Text.splitOnce ['('] method.signature = some (method.name, rest) ∧
      method.name ≠ [] := by
  -- The signature is parted there.
  obtain ⟨_, word, _, name, parameterRun, returnType, _, -, -, parted, named, -, rfl⟩ :=
    Method.parse_eq_ok.1 done
  exact ⟨_, Text.splitOnce_char (Method.partSignature_eq_some.1 parted).2.1 _,
    by simpa using named⟩

/-- A class declares a well-formed member exactly if it has a name and a line that declares such
members shows it. -/
theorem Accounts.declares_iff (accounts : source.Accounts text outside blocks)
    (formed : reference.WellFormed) : source.Declares reference ↔ reference.name ≠ [] ∧
      ∃ line ∈ reference.declaring outside blocks, ∃ front,
        reference.Shows line.content front reference.token := by
  -- Fields are read from their lines, and methods from their headers.
  cases reference with
  | ofClass descriptor => cases formed.isMember
  | ofField field =>
    constructor
    · rintro ⟨declared, member, same⟩
      obtain ⟨line, inside, opened, read⟩ := accounts.mem_fields_iff.1 member
      obtain ⟨front, shown, -⟩ := Field.exists_shows read
      have reading := Field.reading_of_parse read
      -- The first colon parts both members into name and type.
      have colon : ':' ∉ field.name := fun member => absurd (formed.name ':' member) (by decide)
      have split : Text.splitOnce [':'] field.member = some (field.name, field.descriptor) :=
        Text.splitOnce_char colon field.descriptor
      have split' : Text.splitOnce [':'] declared.member = some (declared.name, declared.type) :=
        Text.splitOnce_char reading.noColon declared.type
      rw [same, split, Option.some.injEq, Prod.mk.injEq] at split'
      refine ⟨?_, line, List.mem_filter.2 ⟨inside, opened⟩, front, ?_⟩
      · rw [Reference.name, split'.1]
        exact reading.name
      · rw [same] at shown
        exact shown
    · rintro ⟨named, line, member, front, shown⟩
      obtain ⟨inside, opened⟩ := List.mem_filter.1 member
      obtain ⟨declared, read, same⟩ := Field.Shows.exists_parse formed named shown source.descriptor
      exact ⟨declared, accounts.mem_fields_iff.2 ⟨line, inside, opened, read⟩, same⟩
  | ofMethod method =>
    constructor
    · rintro ⟨declared, member, same⟩
      obtain ⟨block, inside, holds⟩ := List.exists_of_mem_right accounts.methods member
      obtain ⟨opened, -⟩ := accounts.parted.exists_lines inside
      obtain ⟨rest, split, named⟩ := splitOnce_signature holds.read
      have shown := holds.signature opened
      rw [← Text.words_beforeComment, same] at shown
      obtain ⟨front, tail, last⟩ := Text.exists_lastWord shown
      refine ⟨fun nameless => named ?_, block.header, List.mem_map_of_mem inside, front, tail, last⟩
      -- Without a name the signature would begin with the parenthesis of its prototype.
      obtain ⟨others, prototype⟩ : ∃ others, method.descriptor = '(' :: others := by
        obtain ⟨sign, others, typing, rfl | rfl⟩ := formed.exists_sign
        · have taken := formed.typing
          rw [typing] at taken
          cases taken
        · exact ⟨others, typing⟩
      rw [same, MethodRef.member, prototype, show method.name = [] from nameless] at split
      have first : Text.splitOnce ['('] ([] ++ '(' :: others) = some ([], others) :=
        Text.splitOnce_char (by simp) others
      rw [first, Option.some.injEq, Prod.mk.injEq] at split
      exact split.1.symm
    · rintro ⟨named, line, member, front, tail, last⟩
      obtain ⟨block, inside, rfl⟩ := List.mem_map.1 member
      obtain ⟨opened, -⟩ := accounts.parted.exists_lines inside
      obtain ⟨declared, member', holds⟩ := List.exists_of_mem_left accounts.methods inside
      -- A header says the signature of its method as its last word.
      have shown := holds.signature opened
      rw [← Text.words_beforeComment, last.words, List.getLast?_concat, Option.some.injEq] at shown
      exact ⟨declared, member', shown.symm⟩

/-- A class declares a member only behind spaces exactly if the fronts that show it end with
spaces. -/
theorem Accounts.declaresSpaced_iff (accounts : source.Accounts source.text outside blocks)
    (formed : reference.WellFormed) (named : reference.name ≠ []) :
    source.DeclaresSpaced reference ↔ ∀ line ∈ reference.declaring outside blocks, ∀ front,
        reference.Shows line.content front reference.token → front.getLast? = some ' ' := by
  -- What is declared is shown, and what is shown is declared.
  cases reference with
  | ofClass descriptor => cases formed.isMember
  | ofField field =>
    constructor
    · intro spaced line member front shown
      obtain ⟨inside, opened⟩ := List.mem_filter.1 member
      obtain ⟨declared, read, same⟩ := Field.Shows.exists_parse formed named shown source.descriptor
      obtain ⟨front', shown', words⟩ := Field.exists_shows read
      have declaration := Field.declaration_of_parse read
      -- A line shows its member in one place alone.
      rw [shown.unique (same ▸ shown')]
      exact (Field.spaced_iff (declaration ▸ shown') words).1
        (spaced declared (accounts.mem_fields_iff.2 ⟨line, inside, opened, read⟩) same)
    · intro spaced declared member same
      obtain ⟨line, inside, opened, read⟩ := accounts.mem_fields_iff.1 member
      obtain ⟨front, shown, words⟩ := Field.exists_shows read
      have declaration := Field.declaration_of_parse read
      refine (Field.spaced_iff (declaration ▸ shown) words).2 ?_
      rw [same] at shown
      exact spaced line (List.mem_filter.2 ⟨inside, opened⟩) front shown
  | ofMethod method =>
    -- Headers are compared without their comments.
    have ends {line : Line} {front tail : Text}
        (shown : LastWord (Text.beforeComment .outside line.content) front method.member tail) :
        ' ' :: method.member <:+ Text.codePart line.content ↔ front.getLast? = some ' ' :=
      shown.spaced_iff
    constructor
    · intro spaced line member front ⟨tail, shown⟩
      obtain ⟨block, inside, rfl⟩ := List.mem_map.1 member
      obtain ⟨inText, header⟩ := accounts.header inside
      exact (ends shown).1 (spaced _ inText ((header method.member).2 ⟨front, tail, shown⟩))
    · intro spaced line inText header
      have opened : line.opensWith ".method".toList := (Bool.and_eq_true_iff.1 header).1
      obtain ⟨block, inside, rfl⟩ := accounts.exists_block inText opened
      obtain ⟨front, tail, shown⟩ := ((accounts.header inside).2 method.member).1 header
      exact (ends shown).2 (spaced _ (List.mem_map_of_mem inside) front ⟨tail, shown⟩)

/-- What the lines of all bodies say is what the lines of all blocks say. -/
theorem Accounts.exists_line_iff (accounts : source.Accounts text outside blocks)
    (Says : Text → Prop) : (∃ method ∈ source.methods, ∃ line ∈ Text.lines method.body,
        Says line.content) ↔ ∃ block ∈ blocks, ∃ line ∈ block.inside, Says line.content := by
  -- A body is made up of the lines of its block.
  have each {block : Block} (member : block ∈ blocks) {method : Method}
      (holds : block.Holds text source.descriptor method) :
      (∃ line ∈ Text.lines method.body, Says line.content) ↔
        ∃ line ∈ block.inside, Says line.content := by
    obtain ⟨-, -, -, front, back, split⟩ := accounts.parted.exists_lines member
    have body := holds.body
    rw [slice_between split, Option.some.injEq] at body
    rw [← body]
    exact Text.exists_line_iff (accounts.parted.inside_sublist member) Says
  constructor
  · rintro ⟨method, member, told⟩
    obtain ⟨block, inside, holds⟩ := List.exists_of_mem_right accounts.methods member
    exact ⟨block, inside, (each inside holds).1 told⟩
  · rintro ⟨block, inside, told⟩
    obtain ⟨method, member, holds⟩ := List.exists_of_mem_left accounts.methods inside
    exact ⟨method, member, (each inside holds).2 told⟩

end ClassText

end Smali
