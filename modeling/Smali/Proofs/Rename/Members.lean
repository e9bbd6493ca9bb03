import Smali.Field
import Smali.Header
import Smali.Method
import Smali.Proofs.Attempt
import Smali.Proofs.Rename.Types

/-! Headers and members are read alike before and after one class is replaced by another. -/

namespace Smali

/-- What a field becomes when one class is replaced by another. -/
structure Field.Renamed (old new : Text) (field renamed : Field) : Prop where
  /-- The modifiers are replaced one by one. -/
  modifiers : renamed.modifiers = field.modifiers.map (Text.replace old new)
  /-- The name is replaced. -/
  name : renamed.name = Text.replace old new field.name
  /-- The type is replaced. -/
  type : renamed.type = Text.replace old new field.type

/-- What a method becomes when one class is replaced by another. -/
structure Method.Renamed (old new : Text) (method renamed : Method) : Prop where
  /-- The modifiers are replaced one by one. -/
  modifiers : renamed.modifiers = method.modifiers.map (Text.replace old new)
  /-- The name is replaced. -/
  name : renamed.name = Text.replace old new method.name
  /-- The parameter types are replaced one by one. -/
  parameters : renamed.parameters = method.parameters.map (Text.replace old new)
  /-- The return type is replaced. -/
  returnType : renamed.returnType = Text.replace old new method.returnType
  /-- The body is replaced. -/
  body : renamed.body = Text.replace old new method.body

/-- What a class header becomes when one class is replaced by another. -/
structure ClassHeader.Renamed (old new : Text) (header renamed : ClassHeader) : Prop where
  /-- The modifiers are replaced one by one. -/
  modifiers : renamed.modifiers = header.modifiers.map (Text.replace old new)
  /-- The class is replaced. -/
  descriptor : renamed.descriptor = Text.replace old new header.descriptor

namespace Renames

variable {old new : Text}

/-- A space is a mark. -/
theorem isMark_of_isSpace {c : Char} (space : Text.isSpace c) : Descriptor.isMark c :=
  -- Spaces and tabs are blank.
  Descriptor.isMark_of_isBlank (Text.isBlank_of_isSpace space)

/-- A text has the form of a class descriptor if and only if what it becomes has. -/
theorem isClass_replace (renames : Renames old new) (text : Text) :
    Descriptor.isClass (Text.replace old new text) = Descriptor.isClass text := by
  -- The ends stay, and so does whether there is room for a name.
  have room : min 3 (Text.byteLength (Text.replace old new text)) =
      min 3 (Text.byteLength text) := by
    induction text using Text.replace_induct renames.old.ne_nil with
    | nil => rfl
    -- A class with its marks takes the place of one with its marks.
    | found rest ih =>
      have first := renames.old.long
      have second := renames.new.long
      rw [Text.replace_found renames.old.ne_nil, Text.byteLength_append, Text.byteLength_append]
      omega
    | other c rest absent ih =>
      rw [Text.replace_other absent, Text.byteLength_cons, Text.byteLength_cons]
      omega
  -- Three bytes are the least that a descriptor has.
  have roomy : decide (2 < Text.byteLength (Text.replace old new text)) =
      decide (2 < Text.byteLength text) := by
    rw [decide_eq_decide]
    omega
  have starts (text : Text) : ['L'].isPrefixOf text = (text.head? == some 'L') := by
    cases text with
    | nil => rfl
    | cons c rest => simp [List.isPrefixOf, Bool.beq_comm]
  unfold Descriptor.isClass Text.endsWith
  rw [roomy, starts, starts, renames.head?_replace, renames.getLast?_replace]

/-- A text is on one line if and only if what it becomes is. -/
theorem single_replace (renames : Renames old new) (text : Text) :
    ((Text.replace old new text).all fun c => c != '\r' && c != '\n') =
      text.all fun c => c != '\r' && c != '\n' := by
  -- Line breaks neither come nor go.
  have absent (text : Text) : (text.all fun c => c != '\r' && c != '\n') =
      decide ('\r' ∉ text ∧ '\n' ∉ text) := by
    rw [Bool.eq_iff_iff]
    simp only [List.all_eq_true, Bool.and_eq_true, bne_iff_ne, ne_eq, decide_eq_true_eq]
    refine ⟨fun all => ⟨fun member => (all _ member).1 rfl, fun member => (all _ member).2 rfl⟩,
      fun absent c member => ⟨?_, ?_⟩⟩
    · rintro rfl
      exact absent.1 member
    · rintro rfl
      exact absent.2 member
  rw [absent, absent, decide_eq_decide, renames.mem_replace (by decide),
    renames.mem_replace (by decide)]

/-- The words behind a directive become what they become one by one. -/
theorem wordsAfter_replace (renames : Renames old new) {directive : Text}
    (letter : 'L' ∉ directive) (line : Text) :
    Header.wordsAfter directive (Text.replace old new line) =
      (Header.wordsAfter directive line).map (Text.replace old new) := by
  -- Neither spaces nor line breaks come or go.
  unfold Header.wordsAfter
  rw [renames.afterPrefix?_replace letter]
  cases Text.afterPrefix? directive line with
  | none => rfl
  | some behind =>
    cases behind with
    | nil => rfl
    | cons c rest =>
      by_cases space : Text.isSpace c
      · have other : c ≠ 'L' := fun same => absurd space (by rw [same]; decide)
        simp only [Option.map_some, renames.replace_cons other, space, Bool.true_and,
          renames.single_replace]
        split
        · rw [renames.splitOnP_replace fun d => isMark_of_isSpace, renames.filter_replace]
        · rfl
      · obtain ⟨others, same⟩ : ∃ others, Text.replace old new (c :: rest) = c :: others :=
          List.head?_eq_some_iff.1 (renames.head?_replace (c :: rest))
        simp [same, space]

/-- A class header is read alike. -/
theorem parseClass_replace (renames : Renames old new) (line : Text) :
    Alike (ClassHeader.Renamed old new) (Header.parseClass line)
      (Header.parseClass (Text.replace old new line)) := by
  -- The last word is a class in both cases or in neither.
  unfold Header.parseClass
  simp only [renames.trim_replace]
  rw [renames.wordsAfter_replace (by decide), ← List.map_reverse]
  cases (Header.wordsAfter ".class".toList (Text.trim line)).reverse with
  | nil => exact .refused _ _
  | cons descriptor modifiers =>
    simp only [List.map_cons, renames.isClass_replace]
    split
    · exact .done ⟨by rw [List.map_reverse], rfl⟩
    · exact .refused _ _

/-- The superclass is read alike. -/
theorem parseSuper_replace (renames : Renames old new) (line : Text) :
    Alike (fun before after => after = Text.replace old new before) (Header.parseSuper line)
      (Header.parseSuper (Text.replace old new line)) := by
  -- There is a single word in both cases or in neither.
  unfold Header.parseSuper
  simp only [renames.trim_replace]
  rw [renames.wordsAfter_replace (by decide)]
  cases Header.wordsAfter ".super".toList (Text.trim line) with
  | nil => exact .refused _ _
  | cons descriptor others =>
    cases others with
    | nil =>
      simp only [List.map_cons, List.map_nil, renames.isClass_replace]
      split
      · exact .done rfl
      · exact .refused _ _
    | cons second rest => exact .refused _ _

/-- What follows the directive of a field becomes what follows it afterwards. -/
theorem afterDirective?_replace (renames : Renames old new) (declaration : Text) :
    Field.afterDirective? (Text.replace old new declaration) =
      (Field.afterDirective? declaration).map (Text.replace old new) := by
  -- The spaces behind the directive are kept.
  unfold Field.afterDirective?
  rw [renames.afterPrefix?_replace (by decide)]
  cases Text.afterPrefix? ".field".toList declaration with
  | none => rfl
  | some behind =>
    cases behind with
    | nil => rfl
    | cons c rest =>
      by_cases space : Text.isSpace c
      -- A space begins no class.
      · have other : c ≠ 'L' := fun same => absurd space (by rw [same]; decide)
        have skipped : Text.skipSpaces (Text.replace old new rest) =
            Text.replace old new (Text.skipSpaces rest) := by
          have whole := List.takeWhile_append_dropWhile (p := Text.isSpace) (l := rest)
          have spaces : ∀ d ∈ rest.takeWhile Text.isSpace, Text.isSpace d := fun d =>
            List.all_eq_true.1 List.all_takeWhile d
          have stopped := List.head?_dropWhile_not Text.isSpace rest
          conv => lhs; rw [← whole]
          rw [renames.replace_lead fun d member => isMark_of_isSpace (spaces d member),
            Text.skipSpaces, List.dropWhile_append_of_pos spaces]
          -- What follows the spaces begins as before, so that no further space is skipped.
          rw [← renames.head?_replace] at stopped
          cases same : Text.replace old new (rest.dropWhile Text.isSpace) with
          | nil => rw [Text.skipSpaces, same]; rfl
          | cons d others =>
            rw [same] at stopped
            have solid : Text.isSpace d = false := by simpa using stopped
            rw [List.dropWhile_cons_of_neg (by simp [solid]), Text.skipSpaces, same]
        simp [renames.replace_cons other, space, skipped]
      · -- Without a space there is no directive before and after.
        obtain ⟨others, same⟩ : ∃ others, Text.replace old new (c :: rest) = c :: others :=
          List.head?_eq_some_iff.1 (renames.head?_replace (c :: rest))
        simp [same, space]

/-- The words and the literal of a declaration become what they become one by one. -/
theorem partLiteral_replace (renames : Renames old new) (body : Text) :
    Field.partLiteral (Text.replace old new body) =
      ((Field.partLiteral body).1.map (Text.replace old new),
        (Field.partLiteral body).2.map (Text.replace old new)) := by
  -- The sign for the value is made of marks.
  have split := renames.splitOnce_replace ' ' "= ".toList (by decide) body
  have sign : ' ' :: "= ".toList = " = ".toList := rfl
  rw [sign] at split
  unfold Field.partLiteral
  rw [split]
  cases Text.splitOnce " = ".toList body with
  | none => simp [renames.words_replace]
  | some parts => simp [renames.words_replace, renames.trim_replace]

/-- A field is read alike. -/
theorem parseField_replace (renames : Renames old new) (owner owner' line : Text) :
    Alike (Field.Renamed old new) (Field.parse owner line)
      (Field.parse owner' (Text.replace old new line)) := by
  -- Each check of the reader passes in both cases or in neither.
  unfold Field.parse
  simp only [renames.trim_replace]
  rw [renames.afterDirective?_replace]
  cases Field.afterDirective? (Text.trim line) with
  | none => exact .refused _ _
  | some body =>
    simp only [Option.map_some, renames.partLiteral_replace, ← List.map_reverse]
    cases (Field.partLiteral body).1.reverse with
    | nil => exact .refused _ _
    | cons last modifiers =>
      have split := renames.splitOnce_replace ':' [] (by decide) last
      simp only [List.map_cons, split]
      cases Text.splitOnce [':'] last with
      | none => exact .refused _ _
      | some parts =>
        obtain ⟨name, type⟩ := parts
        -- A name that is replaced does not vanish.
        have named : (Text.replace old new name).isEmpty = name.isEmpty := by
          rw [Bool.eq_iff_iff]
          simp [renames.replace_eq_nil]
        simp only [Option.map_some, Prod.map_apply, named, renames.isType_replace]
        split
        · exact .refused _ _
        · exact .done ⟨by simp [List.map_reverse], rfl, rfl⟩

/-- A signature is parted into what its parts become. -/
theorem partSignature_replace (renames : Renames old new) (word : Text) :
    Method.partSignature (Text.replace old new word) =
      (Method.partSignature word).map fun (name, parameterRun, returnType) =>
        (Text.replace old new name, Text.replace old new parameterRun,
          Text.replace old new returnType) := by
  -- Parentheses are marks.
  have opening := renames.splitOnce_replace '(' [] (by decide) word
  unfold Method.partSignature
  rw [opening]
  cases Text.splitOnce ['('] word with
  | none => rfl
  | some parts =>
    obtain ⟨name, rest⟩ := parts
    have closing := renames.splitOnce_replace ')' [] (by decide) rest
    simp only [Option.map_some, Prod.map_apply, Option.bind_eq_bind, Option.bind_some, closing]
    cases Text.splitOnce [')'] rest with
    | none => rfl
    | some parts =>
      obtain ⟨parameterRun, rest⟩ := parts
      simp only [Option.map_some, Prod.map_apply, Option.bind_some, renames.splitReturn_replace]
      cases Descriptor.splitReturn rest with
      | none => rfl
      | some parts =>
        obtain ⟨returnType, behind⟩ := parts
        cases behind with
        | nil => rfl
        | cons c others =>
          -- Something behind the returned type stays something.
          have some' : Text.replace old new (c :: others) ≠ [] := by simp [renames.replace_eq_nil]
          obtain ⟨d, others', same⟩ := List.exists_cons_of_ne_nil some'
          simp [same]

/-- A method is read alike. -/
theorem parseMethod_replace (renames : Renames old new) (owner owner' line body : Text) :
    Alike (Method.Renamed old new) (Method.parse owner line body)
      (Method.parse owner' (Text.replace old new line) (Text.replace old new body)) := by
  -- Each check of the reader passes in both cases or in neither.
  unfold Method.parse
  simp only [renames.trim_replace, renames.codePart_replace]
  rw [renames.afterPrefix?_replace (by decide)]
  cases Text.afterPrefix? ".method".toList (Text.codePart (Text.trim line)) with
  | none => exact .refused _ _
  | some rest =>
    simp only [Option.map_some, renames.words_replace, ← List.map_reverse]
    cases (Text.words rest).reverse with
    | nil => exact .refused _ _
    | cons word modifiers =>
      simp only [List.map_cons, renames.partSignature_replace]
      cases Method.partSignature word with
      | none => exact .refused _ _
      | some parts =>
        obtain ⟨name, parameterRun, returnType⟩ := parts
        -- A name that is replaced does not vanish.
        have named : (Text.replace old new name).isEmpty = name.isEmpty := by
          rw [Bool.eq_iff_iff]
          simp [renames.replace_eq_nil]
        simp only [Option.map_some, named]
        split
        · exact .refused _ _
        · refine ((renames.segment_replace parameterRun).concerning _ _).bind
            fun parameters renamed same => ?_
          exact .done ⟨by simp [List.map_reverse], rfl, same, rfl, rfl⟩

end Renames

end Smali
