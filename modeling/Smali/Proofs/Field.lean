import Smali.Field
import Smali.Proofs.Attempt
import Smali.Proofs.Text.Escape
import Smali.Proofs.Text.Saying
import Smali.Proofs.Text.Splitting

/-! A declaration that a field asks for is read back as that field. -/

namespace Smali

/-- A value whose literal is read back as that value. -/
structure FieldValue.Readable (value : FieldValue) : Prop where
  /-- The literal is read as the value. -/
  read : FieldValue.ofLiteral value.display = value
  /-- The literal is not empty. -/
  nonempty : value.display ≠ []
  /-- The literal has no blank at its ends. -/
  trimmed : Text.trim value.display = value.display

namespace FieldValue

/-- A string between its quotes is read back. -/
theorem readable_str (text : Text) : (str text).Readable := by
  -- The quotes are the ends of the literal.
  have final : (str text).display.getLast? = some '"' :=
    List.getLast?_concat (l := '"' :: Text.escape text)
  have ends : ['"'].isPrefixOf (str text).display ∧ Text.endsWith '"' (str text).display :=
    ⟨rfl, by simp [Text.endsWith, final]⟩
  refine ⟨?_, by simp [display], ?_⟩
  · have long : 2 ≤ (str text).display.length := by simp [display]
    have inside : ((str text).display.drop 1).dropLast = Text.escape text := by
      simp [display]
    rw [ofLiteral, inside, Text.unescape_escape]
    simp [ends, long]
  · refine Text.trim_eq_self (fun c first => ?_) fun c last => ?_
    · have quote : c = '"' := by simpa [display, eq_comm] using first
      exact quote ▸ by decide
    · have quote : '"' = c := by simpa [final] using last
      exact quote ▸ by decide

/-- A string between its quotes stays on one line. -/
theorem open_str (text : Text) : '\n' ∉ (str text).display := by
  -- Line feeds are escaped.
  intro feed
  have inside : '\n' ∈ Text.escape text := by simpa [display] using feed
  exact absurd (Text.printable_escape inside).1 (by decide)

/-- A literal without blanks at its ends gives a value that is read back. -/
theorem readable_ofLiteral {literal : Text} (nonempty : literal ≠ [])
    (trimmed : Text.trim literal = literal) : (ofLiteral literal).Readable := by
  -- Strings are always read back, and any other literal is taken as it is written.
  by_cases quoted : 2 ≤ literal.length && ['"'].isPrefixOf literal && Text.endsWith '"' literal
  · rw [ofLiteral, if_pos quoted]
    exact readable_str _
  · have same : ofLiteral literal = raw literal := by rw [ofLiteral, if_neg quoted]
    rw [same]
    exact ⟨same, nonempty, trimmed⟩

/-- A literal on one line gives a value that stays on one line. -/
theorem open_ofLiteral {literal : Text} (single : '\n' ∉ literal) :
    '\n' ∉ (ofLiteral literal).display := by
  -- Any literal but a string is written as it was.
  unfold ofLiteral
  split
  · exact open_str _
  · exact single

end FieldValue

namespace Field

/-- A text is one word, with no blank in it. -/
def IsWord (text : Text) : Prop :=
  -- The empty text is no word.
  text ≠ [] ∧ ∀ c ∈ text, Text.isBlank c = false

/-- Whether a text is one word can be decided. -/
instance (text : Text) : Decidable (IsWord text) :=
  -- Every character is looked at.
  inferInstanceAs (Decidable (_ ∧ _))

/-- A field whose declaration can be read back. -/
structure Restorable (field : Field) : Prop where
  /-- Every modifier is a word. -/
  modifiers : ∀ word ∈ field.modifiers, IsWord word
  /-- No modifier looks like the sign before the value. -/
  noEquals : ['='] ∉ field.modifiers
  /-- The name is a word. -/
  name : IsWord field.name
  /-- The name ends before the colon. -/
  noColon : ':' ∉ field.name
  /-- The type is a word. -/
  solid : ∀ c ∈ field.type, Text.isBlank c = false
  /-- The type is a type. -/
  type : Descriptor.isType field.type
  /-- The value can be read back. -/
  value : ∀ value, field.value = some value → value.Readable

/-- A field whose declaration can be read back and stays on one line. -/
structure Writable (field : Field) : Prop extends field.Restorable where
  /-- The value stays on one line. -/
  single : ∀ value, field.value = some value → '\n' ∉ value.display

/-- The words of a declaration between the directive and the sign for its value. -/
def saidWords (field : Field) : List Text :=
  -- The name and the type make up the last of them.
  field.modifiers ++ [field.member]

/-- No word that a field says is an equals sign if none of its modifiers is. -/
theorem equals_not_mem_saidWords {field : Field} (noEquals : ['='] ∉ field.modifiers) :
    ['='] ∉ field.saidWords := by
  -- The member has a colon.
  intro member
  rcases List.mem_append.1 member with member | member
  · exact noEquals member
  · have colon : ':' ∈ ['='] := by
      rw [List.mem_singleton.1 member]
      simp [Field.member, FieldRef.member]
    exact absurd colon (by decide)

/-- What a declaration says behind its words. -/
def saidValue (field : Field) : Text :=
  -- Without a value there is no sign for it.
  match field.value with
  | some value => " = ".toList ++ value.display
  | none => []

/-- A type is not empty. -/
theorem type_ne_nil {type : Text} (isType : Descriptor.isType type) : type ≠ [] := by
  -- Nothing can be taken from the empty text.
  rintro rfl
  exact absurd isType (by decide)

/-- The name and the type of a field that can be read back are one word. -/
theorem Restorable.member {field : Field} (restorable : field.Restorable) :
    IsWord field.member := by
  -- The colon between them is not blank.
  refine ⟨by simp [Field.member, FieldRef.member], fun c inside => ?_⟩
  have cases' : c ∈ field.name ∨ c = ':' ∨ c ∈ field.type := by
    simpa [Field.member, FieldRef.member, fieldRef] using inside
  rcases cases' with inside | rfl | inside
  · exact restorable.name.2 c inside
  · decide
  · exact restorable.solid c inside

/-- The words before the value are words. -/
theorem Restorable.saidWords {field : Field} (restorable : field.Restorable) :
    ∀ word ∈ field.saidWords, IsWord word := by
  -- They are the modifiers and the member.
  intro word member
  rcases List.mem_append.1 member with inside | inside
  · exact restorable.modifiers word inside
  · exact List.mem_singleton.1 inside ▸ restorable.member

/-- A declaration is the directive, a space, the other words and the value. -/
theorem declarationText_eq (field : Field) :
    field.declarationText =
      ".field".toList ++ ' ' :: ([' '].intercalate field.saidWords ++ field.saidValue) := by
  -- The sign and the literal are joined like words.
  have nonempty : field.saidWords ≠ [] := by simp [saidWords]
  have directive : ∀ words, words ≠ [] → [' '].intercalate (".field".toList :: words) =
      ".field".toList ++ ' ' :: [' '].intercalate words := by
    intro words some'
    obtain ⟨word, rest, rfl⟩ := List.exists_cons_of_ne_nil some'
    simp [List.intercalate_cons_cons]
  unfold declarationText saidValue
  cases field.value with
  | none =>
    simp only [List.append_nil]
    exact directive field.saidWords nonempty
  | some value =>
    have whole : ".field".toList :: field.modifiers ++ field.member :: [['='], value.display] =
        ".field".toList :: (field.saidWords ++ ['='] :: [value.display]) := by
      simp [saidWords]
    simp only
    rw [whole, directive _ (by simp), Text.intercalate_append nonempty]
    simp [List.intercalate_cons_cons]

/-- A blank behind the directive keeps it apart from the words that follow. -/
theorem words_directive {c : Char} (space : Text.isSpace c) (rest : Text) :
    Text.words (".field".toList ++ c :: rest) = ".field".toList :: Text.words rest := by
  -- Spaces and tabs are blank.
  have directive : Text.words ".field".toList = [".field".toList] :=
    Text.words_of_solid (by decide) (by decide)
  rw [Text.words_append_cons (Text.isBlank_of_isSpace space), directive]
  rfl

/-- Only blanks are skipped as spaces. -/
theorem exists_skipSpaces (text : Text) :
    ∃ spaces, spaces ++ Text.skipSpaces text = text ∧ ∀ c ∈ spaces, Text.isBlank c := by
  -- They are the spaces and tabs before the first other character.
  exact ⟨text.takeWhile Text.isSpace, List.takeWhile_append_dropWhile, fun c member =>
    Text.isBlank_of_isSpace (List.mem_takeWhile_imp member)⟩

/-- What follows the directive stands behind a space or a tab. -/
theorem afterDirective_some {declaration body : Text}
    (found : afterDirective? declaration = some body) :
    ∃ c rest, declaration = ".field".toList ++ c :: rest ∧ Text.isSpace c ∧
      body = Text.skipSpaces rest := by
  -- The directive is a beginning of the declaration.
  unfold afterDirective? Text.afterPrefix? at found
  by_cases beginning : ".field".toList.isPrefixOf declaration
  case neg =>
    rw [if_neg beginning] at found
    simp at found
  case pos =>
    obtain ⟨behind, rfl⟩ := List.isPrefixOf_iff_prefix.1 beginning
    simp only [beginning, if_true, List.drop_left] at found
    cases behind with
    | nil => simp at found
    | cons c rest =>
      simp only at found
      split at found
      · next space => exact ⟨c, rest, rfl, space, (Option.some.inj found).symm⟩
      · simp at found

/-- What a declaration that is read says. -/
structure Reading (owner line : Text) (field : Field) : Prop where
  /-- The words before the value are the modifiers and the member. -/
  words : ∃ front literal, (∃ body, afterDirective? (Text.trim line) = some body ∧
      body = front ++ (match literal with
        | some literal => " = ".toList ++ literal
        | none => [])) ∧
    Text.words front = field.modifiers ++ [field.member] ∧
    field.value = literal.map fun literal => FieldValue.ofLiteral (Text.trim literal)
  /-- The name is not empty. -/
  name : field.name ≠ []
  /-- The name ends before the colon. -/
  noColon : ':' ∉ field.name
  /-- The type is a type. -/
  type : Descriptor.isType field.type
  /-- Nothing is still to be written. -/
  fresh : field = { field with
    owner := owner
    declaration := Text.trim line
    declaredReference := (FieldRef.mk owner field.name field.type).display
    previous := none
    pending := .unchanged
    dirty := false }

/-- The literal of a declaration stands behind the sign for it. -/
theorem partLiteral_eq {body : Text} {words : List Text} {literal : Option Text}
    (parted : partLiteral body = (words, literal)) :
    ∃ front behind, body = front ++ (match behind with
        | some literal => " = ".toList ++ literal
        | none => []) ∧
      Text.words front = words ∧ literal = behind.map Text.trim := by
  -- Without the sign all of the body is words.
  unfold partLiteral at parted
  split at parted
  · next front literal found =>
    cases parted
    exact ⟨front, some literal, by simpa using Text.eq_of_splitOnce found, rfl, rfl⟩
  · cases parted
    exact ⟨body, none, by simp, rfl, rfl⟩

/-- A field is read exactly if its declaration has the directive, the last word before the value
parts at a colon into a name and a type, and the name is not empty. -/
theorem parse_eq_ok {owner line : Text} {field : Field} : parse owner line = .ok field ↔
    ∃ body last modifiers name type, afterDirective? (Text.trim line) = some body ∧
      (partLiteral body).1.reverse = last :: modifiers ∧
      Text.splitOnce [':'] last = some (name, type) ∧ name ≠ [] ∧ Descriptor.isType type ∧
      field = {
        owner := owner
        modifiers := modifiers.reverse
        name := name
        type := type
        value := (partLiteral body).2.map FieldValue.ofLiteral
        declaration := Text.trim line
        declaredReference := (FieldRef.mk owner name type).display
        previous := none
        pending := .unchanged
        dirty := false } := by
  -- The checks are made one after the other.
  unfold parse
  dsimp only
  constructor
  · -- The reading that has not been refused has passed each check.
    intro done
    split at done
    · exact absurd done refuse_ne_ok
    · next body found =>
      split at done
      · exact absurd done refuse_ne_ok
      · next last modifiers reversed =>
        split at done
        · exact absurd done refuse_ne_ok
        · next name type split' =>
          split at done
          · exact absurd done refuse_ne_ok
          · next checks =>
            simp only [Bool.or_eq_true, List.isEmpty_iff, Bool.not_eq_true', not_or,
              Bool.not_eq_false] at checks
            exact ⟨body, last, modifiers, name, type, found, reversed, split', checks.1, checks.2,
              (Except.ok.inj done).symm⟩
  · -- With all checks passed the result can be computed.
    rintro ⟨body, last, modifiers, name, type, found, reversed, split', named, isType, rfl⟩
    simp [found, reversed, split', named, isType]

/-- A declaration that is read says what the field holds. -/
theorem reading_of_parse {owner line : Text} {field : Field}
    (done : parse owner line = .ok field) : Reading owner line field := by
  -- Every check of the reader has passed.
  obtain ⟨body, last, modifiers, name, type, found, reversed, split', named, isType, rfl⟩ :=
    parse_eq_ok.1 done
  obtain ⟨front, behind, whole, words, literal⟩ := partLiteral_eq (Prod.eta (partLiteral body)).symm
  refine ⟨⟨front, behind, ⟨body, found, whole⟩, ?_, ?_⟩, named, Text.not_mem_of_splitOnce split',
    isType, rfl⟩
  · rw [words, ← List.reverse_reverse (partLiteral body).1, reversed, List.reverse_cons,
      Text.eq_of_splitOnce split']
    simp [Field.member, FieldRef.member, fieldRef]
  · simp only [literal]
    cases behind <;> rfl

/-- The reader of fields looks at what a line says. -/
theorem parse_trim (owner line : Text) : parse owner (Text.trim line) = parse owner line := by
  -- Trimming twice is trimming once.
  unfold parse
  rw [Text.trim_trim]

/-- The declaration of a field that is read is its line without the blanks at the ends. -/
theorem declaration_of_parse {owner line : Text} {field : Field}
    (done : parse owner line = .ok field) : field.declaration = Text.trim line := by
  -- The line is kept.
  rw [(reading_of_parse done).fresh]

/-- The words of a declaration that is read, without the modifier that looks like the sign for the
value, are split off by that sign. -/
theorem Reading.declared {owner line : Text} {field : Field} (reading : Reading owner line field)
    (noEquals : ['='] ∉ field.modifiers) :
    ∃ front value, field.declaration = front ++ value ∧
      Text.words front = ".field".toList :: field.saidWords ∧
      (value = [] ∧ field.value = none ∧ Text.splitOnce " = ".toList field.declaration = none ∨
        ∃ literal, value = " = ".toList ++ literal ∧
          field.value = some (FieldValue.ofLiteral (Text.trim literal)) ∧
          Text.splitOnce " = ".toList field.declaration = some (front, literal)) := by
  -- No word before the sign is an equals sign, so the sign is found in its place.
  obtain ⟨front, literal, ⟨body, found, whole⟩, words, value⟩ := reading.words
  obtain ⟨c, rest, declaration, space, skipped⟩ := afterDirective_some found
  have same : field.declaration = Text.trim line := by rw [reading.fresh]
  -- The words before the value are the directive and the words that the field says.
  obtain ⟨spaces, parts, blank⟩ := exists_skipSpaces rest
  rw [← skipped] at parts
  have before : Text.words (".field".toList ++ c :: (spaces ++ front)) =
      ".field".toList :: field.saidWords := by
    rw [words_directive space, Text.words_append_lead blank, words]
    rfl
  have noWord : ['='] ∉ ".field".toList :: field.saidWords := by
    intro member
    rcases List.mem_cons.1 member with absurd' | member
    · exact absurd absurd' (by decide)
    · exact equals_not_mem_saidWords noEquals member
  rw [← before] at noWord
  cases literal with
  | none =>
    have all : field.declaration = ".field".toList ++ c :: (spaces ++ front) := by
      rw [same, declaration, ← parts, whole]
      simp
    refine ⟨_, [], by rw [List.append_nil]; exact all, before, .inl ⟨rfl, value, ?_⟩⟩
    rw [all]
    exact Text.splitOnce_equals_none noWord
  | some literal =>
    -- The first equals sign stands before the literal.
    have all : field.declaration =
        ".field".toList ++ c :: (spaces ++ front) ++ (" = ".toList ++ literal) := by
      rw [same, declaration, ← parts, whole]
      simp
    refine ⟨_, _, all, before, .inr ⟨literal, rfl, value, ?_⟩⟩
    rw [all, ← List.append_assoc]
    exact Text.splitOnce_equals noWord literal

/-- The modifiers of a declaration that is read are those that the field holds. -/
theorem Reading.declaredModifiers {owner line : Text} {field : Field}
    (reading : Reading owner line field) (noEquals : ['='] ∉ field.modifiers) :
    field.declaredModifiers = field.modifiers := by
  -- They stand between the directive and the member.
  obtain ⟨front, value, whole, words, ⟨rfl, -, split⟩ | ⟨literal, rfl, -, split⟩⟩ :=
    reading.declared noEquals
  · rw [List.append_nil] at whole
    simp only [Field.declaredModifiers, split]
    rw [whole, words]
    simp [saidWords]
  · simp only [Field.declaredModifiers, split]
    rw [words]
    simp [saidWords]

/-- The words of a declaration that is read have no blank in them. -/
theorem Reading.saidWords {owner line : Text} {field : Field} (reading : Reading owner line field) :
    ∀ word ∈ field.saidWords, IsWord word := by
  -- They are words of the line.
  obtain ⟨front, literal, -, words, -⟩ := reading.words
  have said : Text.words front = field.saidWords := words
  exact fun word member => Text.solid_of_mem_words (said ▸ member)

/-- The name and the type of a field that is read have no blank in them. -/
theorem Reading.solid_member {owner line : Text} {field : Field}
    (reading : Reading owner line field) : ∀ c ∈ field.member, Text.isBlank c = false := by
  -- They make up the last word.
  exact (reading.saidWords field.member (by simp [Field.saidWords])).2

/-- The literal of a declaration that is read is not blank. -/
theorem Reading.literal_ne_nil {owner line : Text} {field : Field}
    (reading : Reading owner line field) {front literal : Text}
    (whole : field.declaration = front ++ (" = ".toList ++ literal)) :
    Text.trim literal ≠ [] := by
  -- A blank literal would leave a blank at the end of the trimmed line.
  intro nothing
  obtain ⟨lead, tail, blankLead, blankTail, parts⟩ := Text.exists_trim literal
  rw [nothing, List.append_nil] at parts
  have blank : ∀ c ∈ ' ' :: literal, Text.isBlank c := by
    rw [parts]
    intro c inside
    rcases List.mem_cons.1 inside with rfl | inside
    · decide
    · exact (List.mem_append.1 inside).elim (blankLead c) (blankTail c)
  -- The declaration would end with the last character of the blank part.
  obtain ⟨before, last, ends⟩ := (List.eq_nil_or_concat (' ' :: literal)).resolve_left (by simp)
  rw [List.concat_eq_append] at ends
  have trimmed : Text.trim line = front ++ [' ', '='] ++ before ++ [last] := by
    have same : field.declaration = Text.trim line := by rw [reading.fresh]
    rw [← same, whole, List.append_assoc, List.append_assoc, ← ends]
    rfl
  have final : (Text.trim line).getLast? = some last := by rw [trimmed, List.getLast?_concat]
  have visible := Text.not_isBlank_of_getLast?_trimEnd final
  rw [blank last (by simp [ends])] at visible
  cases visible

/-- A field that is read can be read back. -/
theorem Reading.restorable {owner line : Text} {field : Field} (reading : Reading owner line field)
    (noEquals : ['='] ∉ field.modifiers) : field.Restorable := by
  -- Its words are words of the line, and its literal is not blank.
  obtain ⟨front, value, whole, words, valued⟩ := reading.declared noEquals
  have solid := reading.saidWords
  have member := reading.solid_member
  refine ⟨fun word inside => solid word (by simp [Field.saidWords, inside]), noEquals,
    ⟨reading.name, fun c inside => member c ?_⟩, reading.noColon, fun c inside => member c ?_,
    reading.type, fun value' some' => ?_⟩
  · simp [Field.member, FieldRef.member, fieldRef, inside]
  · simp [Field.member, FieldRef.member, fieldRef, inside]
  · rcases valued with ⟨-, none', -⟩ | ⟨literal, rfl, valued, -⟩
    · rw [none'] at some'
      cases some'
    · rw [valued] at some'
      cases some'
      exact FieldValue.readable_ofLiteral (reading.literal_ne_nil whole) (Text.trim_trim literal)

/-- A field that is read from one line can be written again. -/
theorem Reading.writable {owner line : Text} {field : Field} (reading : Reading owner line field)
    (noEquals : ['='] ∉ field.modifiers) (single : '\n' ∉ line) : field.Writable := by
  -- Its literal ends where the line does.
  refine ⟨reading.restorable noEquals, fun value' some' => ?_⟩
  obtain ⟨front, value, whole, -, ⟨-, none', -⟩ | ⟨literal, rfl, valued, -⟩⟩ :=
    reading.declared noEquals
  · rw [none'] at some'
    cases some'
  · rw [valued] at some'
    cases some'
    have inside : Text.trim literal <:+: Text.trim line := by
      have same : field.declaration = Text.trim line := by rw [reading.fresh]
      rw [← same, whole]
      exact (Text.trim_isInfix literal).trans
        ((List.suffix_append _ literal).trans (List.suffix_append _ _)).isInfix
    exact FieldValue.open_ofLiteral fun feed =>
      single ((inside.trans (Text.trim_isInfix line)).subset feed)

/-- A text whose first character is no blank loses nothing when spaces are skipped. -/
theorem skipSpaces_solid {text : Text} {c : Char} (first : text.head? = some c)
    (solid : Text.isBlank c = false) : Text.skipSpaces text = text := by
  -- Spaces and tabs are blank.
  obtain ⟨rest, rfl⟩ : ∃ rest, text = c :: rest := by
    cases text with
    | nil => simp at first
    | cons d rest => exact ⟨rest, by rw [Option.some.inj first]⟩
  have apart : Text.isSpace c = false := by
    rw [← Bool.not_eq_true]
    intro space
    rw [Text.isBlank_of_isSpace space] at solid
    cases solid
  simp [Text.skipSpaces, apart]

/-- The words behind the directive start with no blank, so nothing of them is skipped. -/
theorem afterDirective_declarationText {field : Field} (restorable : field.Restorable) :
    afterDirective? field.declarationText =
      some ([' '].intercalate field.saidWords ++ field.saidValue) := by
  -- The first word is a modifier or the member.
  have kept : Text.skipSpaces ([' '].intercalate field.saidWords ++ field.saidValue) =
      [' '].intercalate field.saidWords ++ field.saidValue := by
    have words := restorable.saidWords
    obtain ⟨word, rest, listed⟩ : ∃ word rest, field.saidWords = word :: rest :=
      List.exists_cons_of_ne_nil (by simp [saidWords])
    obtain ⟨nonempty, solid⟩ := words word (by simp [listed])
    obtain ⟨c, others, rfl⟩ := List.exists_cons_of_ne_nil nonempty
    refine skipSpaces_solid (c := c) ?_ (solid c (by simp))
    rw [List.head?_append, listed, Text.head?_intercalate (by simp)]
    rfl
  have beginning (body : Text) : ".field".toList.isPrefixOf (".field".toList ++ ' ' :: body) :=
    List.isPrefixOf_iff_prefix.2 (List.prefix_append ..)
  rw [declarationText_eq]
  simp only [afterDirective?, Text.afterPrefix?, beginning, if_true, List.drop_left, kept]
  rfl

/-- A declaration has no blank at its ends. -/
theorem trim_declarationText {field : Field} (restorable : field.Restorable) :
    Text.trim field.declarationText = field.declarationText := by
  -- It begins with a dot and ends with the type or the value.
  refine Text.trim_eq_self (fun c first => ?_) fun c last => ?_
  · rw [declarationText_eq] at first
    have dot : '.' = c := by simpa using first
    exact dot ▸ by decide
  · rw [declarationText_eq, saidValue] at last
    cases valued : field.value with
    -- The text ends with the type.
    | none =>
      obtain ⟨front, final, parts⟩ :=
        (List.eq_nil_or_concat field.type).resolve_left (type_ne_nil restorable.type)
      rw [List.concat_eq_append] at parts
      have member : field.member = field.name ++ ':' :: front ++ [final] := by
        simp [Field.member, FieldRef.member, fieldRef, parts]
      have ends : ([' '].intercalate field.saidWords).getLast? = some final := by
        rw [saidWords, Text.getLast?_intercalate restorable.member.1, member, List.getLast?_concat]
      simp only [valued, List.append_nil] at last
      rw [List.getLast?_append, List.getLast?_cons, ends] at last
      cases last
      exact restorable.solid _ (by simp [parts])
    -- The text ends with the value.
    | some value =>
      have readable := restorable.value value valued
      obtain ⟨front, final, parts⟩ :=
        (List.eq_nil_or_concat value.display).resolve_left readable.nonempty
      rw [List.concat_eq_append] at parts
      have visible : Text.isBlank final = false := by
        have ends : (Text.trimEnd (Text.trimStart value.display)).getLast? = some final := by
          rw [show Text.trimEnd (Text.trimStart value.display) = value.display from
            readable.trimmed, parts, List.getLast?_concat]
        exact Text.not_isBlank_of_getLast?_trimEnd ends
      simp only [valued, parts] at last
      rw [← List.append_assoc, ← List.append_assoc, ← List.cons_append, ← List.append_assoc,
        List.getLast?_concat] at last
      exact Option.some.inj last ▸ visible

/-- The declaration that a field asks for is read back as that field. -/
theorem parse_declarationText {field : Field} (restorable : field.Restorable) :
    parse field.owner field.declarationText =
      .ok { field with
        declaration := field.declarationText
        declaredReference := field.reference
        previous := none
        pending := .unchanged
        dirty := false } := by
  -- No word before the value is an equals sign.
  have words : Text.words ([' '].intercalate field.saidWords) = field.saidWords :=
    Text.words_intercalate restorable.saidWords
  have noWord : ['='] ∉ Text.words ([' '].intercalate field.saidWords) := by
    rw [words]
    exact equals_not_mem_saidWords restorable.noEquals
  -- The part before the value has the words of the field, and the value is what follows the sign.
  have parted : partLiteral ([' '].intercalate field.saidWords ++ field.saidValue) =
      (field.saidWords, field.value.map FieldValue.display) := by
    unfold partLiteral saidValue
    cases valued : field.value with
    | none =>
      simp only [Option.map_none, List.append_nil, Text.splitOnce_equals_none noWord, words]
    | some value =>
      have split := Text.splitOnce_equals noWord value.display
      rw [List.append_assoc] at split
      simp only [Option.map_some, split, words, (restorable.value value valued).trimmed]
  have member : Text.splitOnce [':'] field.member = some (field.name, field.type) :=
    Text.splitOnce_char restorable.noColon field.type
  have literal : (field.value.map FieldValue.display).map FieldValue.ofLiteral = field.value := by
    cases valued : field.value with
    | none => rfl
    | some value => simp [(restorable.value value valued).read]
  have nonempty : field.name.isEmpty = false := by simpa using restorable.name.1
  -- The last word is the member, and those before it are the modifiers.
  have reversed : field.saidWords.reverse = field.member :: field.modifiers.reverse := by
    simp [saidWords]
  simp only [parse, trim_declarationText restorable, afterDirective_declarationText restorable,
    parted, reversed, member, nonempty, restorable.type, literal, List.reverse_reverse]
  rfl

end Field

end Smali
