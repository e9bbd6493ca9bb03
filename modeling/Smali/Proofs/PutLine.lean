import Smali.Proofs.Decoding

/-! A line is decoded to a put of a field exactly if it has the written form of one. -/

namespace Smali

namespace Text

/-- What holds no blank and stands in a text with blanks in front stands in the text itself. -/
theorem infix_of_lead {needle lead text : Text} (nonempty : needle ≠ []) (solid : Solid needle)
    (blank : ∀ c ∈ lead, isBlank c) (inside : needle <:+: lead ++ text) : needle <:+: text := by
  -- It begins at none of the blanks.
  induction lead with
  | nil => exact inside
  | cons c lead ih =>
    rw [List.forall_mem_cons] at blank
    rcases List.infix_cons_iff.1 inside with beginning | later
    · obtain ⟨d, rest, rfl⟩ := List.exists_cons_of_ne_nil nonempty
      have first := solid d (by simp)
      rw [(List.cons_prefix_cons.1 beginning).1, blank.1] at first
      cases first
    · exact ih blank.2 later

/-- What holds no blank and stands in a text between blanks stands in the text itself. -/
theorem infix_of_between {needle lead text tail : Text} (nonempty : needle ≠ [])
    (solid : Solid needle) (blankLead : ∀ c ∈ lead, isBlank c)
    (blankTail : ∀ c ∈ tail, isBlank c) (inside : needle <:+: lead ++ text ++ tail) :
    needle <:+: text := by
  -- In reverse the tail comes first.
  rw [← List.reverse_infix, List.reverse_append] at inside
  have later := infix_of_lead (List.reverse_ne_nil_iff.2 nonempty)
    (fun c member => solid c (List.mem_reverse.1 member))
    (fun c member => blankTail c (List.mem_reverse.1 member)) inside
  exact infix_of_lead nonempty solid blankLead (List.reverse_infix.1 later)

/-- Spaces and tabs in front of a text are skipped. -/
theorem skipSpaces_append {lead : Text} (spaces : ∀ c ∈ lead, isSpace c) (text : Text) :
    skipSpaces (lead ++ text) = skipSpaces text := by
  -- Dropping passes over all of the lead.
  exact List.dropWhile_append_of_pos spaces

/-- Spaces and tabs are skipped up to a mark behind them. -/
theorem skipSpaces_mark {lead : Text} (spaces : ∀ c ∈ lead, isSpace c) {mark : Char}
    (other : isSpace mark = false) (rest : Text) :
    skipSpaces (lead ++ mark :: rest) = mark :: rest := by
  -- The mark is no space.
  rw [skipSpaces_append spaces, skipSpaces, List.dropWhile_cons_of_neg (by simp [other])]

/-- What is skipped at the start of a text is spaces and tabs. -/
theorem exists_skipSpaces (text : Text) :
    ∃ lead, (∀ c ∈ lead, isSpace c) ∧ text = lead ++ skipSpaces text := by
  -- They are the run at the start.
  exact ⟨text.takeWhile isSpace, fun c => List.mem_takeWhile_imp,
    List.takeWhile_append_dropWhile.symm⟩

/-- Blanks stay in front of a text when spaces and tabs are skipped, up to some of them. -/
theorem skipSpaces_blank {lead : Text} (blank : ∀ c ∈ lead, isBlank c) (text : Text)
    (solid : ∀ c, text.head? = some c → isBlank c = false) :
    ∃ kept, (∀ c ∈ kept, isBlank c) ∧ skipSpaces (lead ++ text) = kept ++ text := by
  -- The text itself begins with no space.
  refine ⟨skipSpaces lead, fun c member => blank c ((List.dropWhile_sublist _).subset member), ?_⟩
  have start : text.dropWhile isSpace = text := by
    refine List.dropWhile_eq_self_iff.2 fun long space => ?_
    have first := solid _ (List.head?_eq_getElem? ▸ List.getElem?_eq_getElem long)
    rw [isBlank_of_isSpace space] at first
    cases first
  rw [skipSpaces, List.dropWhile_append]
  split
  · next nothing =>
    rw [start, skipSpaces, List.isEmpty_iff.1 nothing, List.nil_append]
  · rfl

end Text

namespace Register

/-- A text is a comma with any spaces and tabs around it. -/
def IsComma (text : Text) : Prop :=
  -- No other blanks may stand there.
  ∃ before after, (∀ c ∈ before, Text.isSpace c) ∧ (∀ c ∈ after, Text.isSpace c) ∧
    text = before ++ ',' :: after

/-- A text is one register or several with commas between them. -/
inductive Row : Text → Prop where
  /-- One register alone. -/
  | single {register : Text} (named : isRegister register) : Row register
  /-- A register in front of a comma and further registers. -/
  | more {register comma others : Text} (named : isRegister register) (between : IsComma comma)
    (row : Row others) : Row (register ++ comma ++ others)

/-- A text is a list of registers, which may be empty. -/
def Listed (text : Text) : Prop :=
  -- Without a register there is nothing at all.
  text = [] ∨ Row text

/-- What is taken as a register is one. -/
theorem isRegister_of_split {text register behind : Text}
    (taken : split text = some (register, behind)) :
    isRegister register ∧ text = register ++ behind := by
  -- The letter and the run of digits are moved to the register.
  cases text with
  | nil => cases taken
  | cons c text =>
    simp only [split] at taken
    split at taken
    · next known =>
      obtain ⟨rfl, rfl⟩ := Prod.mk.inj (Option.some.inj taken)
      refine ⟨?_, by rw [List.cons_append, List.takeWhile_append_dropWhile]⟩
      have letter : (c == 'v' || c == 'p') = true := by simpa using known.1
      simp only [isRegister, letter, known.2, List.all_takeWhile, Bool.and_self]
    · cases taken

/-- A register does not begin with a character of another text. -/
theorem split_eq_none {text : Text} (other : ∀ c, text.head? = some c → c ≠ 'v' ∧ c ≠ 'p') :
    split text = none := by
  -- Its letter would stand there.
  cases text with
  | nil => rfl
  | cons c rest => simp [split, other c rfl]

/-- What is skipped as a comma is one. -/
theorem isComma_of_skipComma {text behind : Text} (skipped : skipComma text = some behind) :
    ∃ comma, IsComma comma ∧ text = comma ++ behind := by
  -- The spaces on both sides are skipped with it.
  unfold skipComma at skipped
  split at skipped
  · next rest found =>
    obtain ⟨before, spaces, whole⟩ := Text.exists_skipSpaces text
    obtain ⟨after, spaces', whole'⟩ := Text.exists_skipSpaces rest
    rw [← Option.some.inj skipped]
    refine ⟨before ++ ',' :: after, ⟨before, after, spaces, spaces', rfl⟩, ?_⟩
    rw [List.append_assoc, List.cons_append, ← whole', ← found]
    exact whole
  · cases skipped

/-- A comma is skipped together with the spaces and tabs behind it. -/
theorem skipComma_of_isComma {comma : Text} (separates : IsComma comma) (text : Text) :
    skipComma (comma ++ text) = some (Text.skipSpaces text) := by
  -- The comma itself is no space.
  obtain ⟨before, after, spaces, spaces', rfl⟩ := separates
  rw [skipComma, List.append_assoc, List.cons_append, Text.skipSpaces_mark spaces rfl]
  exact congrArg some (Text.skipSpaces_append spaces' text)

/-- Neither spaces and tabs nor a mark behind them that is no digit begin with a digit. -/
theorem not_isDigit_of_spaces {lead : Text} (spaces : ∀ c ∈ lead, Text.isSpace c) {mark : Char}
    (other : Text.isDigit mark = false) (rest : Text) :
    ∀ c, (lead ++ mark :: rest).head? = some c → Text.isDigit c = false := by
  -- Only the first character is looked at.
  intro c first
  cases lead with
  | nil =>
    cases first
    exact other
  | cons d lead =>
    cases first
    have either : c = ' ' ∨ c = '\t' := by simpa [Text.isSpace] using spaces c (by simp)
    rcases either with rfl | rfl <;> rfl

/-- A comma begins with no digit. -/
theorem IsComma.not_isDigit {comma : Text} (separates : IsComma comma) (text : Text) :
    ∀ c, (comma ++ text).head? = some c → Text.isDigit c = false := by
  -- Neither a space nor the comma itself is a digit.
  obtain ⟨before, after, spaces, -, rfl⟩ := separates
  rw [List.append_assoc]
  exact not_isDigit_of_spaces spaces rfl (after ++ text)

/-- A register begins with its letter. -/
theorem head?_of_isRegister {register : Text} (named : isRegister register) (text : Text) :
    ∃ letter rest, (letter = 'v' ∨ letter = 'p') ∧ register ++ text = letter :: rest := by
  -- There is at least the letter.
  cases register with
  | nil => cases named
  | cons letter digits =>
    simp only [isRegister, Bool.and_eq_true, Bool.or_eq_true, beq_iff_eq] at named
    exact ⟨letter, digits ++ text, named.1.1, rfl⟩

/-- A text is the registers of a list in their order with commas between them. -/
inductive Spelled : List Text → Text → Prop where
  /-- One register alone. -/
  | single {register : Text} (named : isRegister register) : Spelled [register] register
  /-- A register in front of a comma and further registers. -/
  | more {register comma others : Text} {registers : List Text} (named : isRegister register)
    (between : IsComma comma) (later : Spelled registers others) :
    Spelled (register :: registers) (register ++ comma ++ others)

/-- A row is a list of registers that is written out. -/
theorem Row.exists_spelled {row : Text} (written : Row row) :
    ∃ registers, Spelled registers row := by
  -- The registers are collected one by one.
  induction written with
  | single named => exact ⟨_, .single named⟩
  | more named between row ih =>
    obtain ⟨registers, later⟩ := ih
    exact ⟨_, .more named between later⟩

/-- Registers that are written out begin with the letter of the first one. -/
theorem Spelled.head? {registers : List Text} {row : Text} (spelled : Spelled registers row)
    (text : Text) :
    ∃ letter rest, (letter = 'v' ∨ letter = 'p') ∧ row ++ text = letter :: rest := by
  -- The first register stands at the start.
  cases spelled with
  | single named => exact head?_of_isRegister named text
  | more named between later =>
    rw [List.append_assoc, List.append_assoc]
    exact head?_of_isRegister named _

/-- A row begins with the letter of a register. -/
theorem Row.head? {row : Text} (written : Row row) (text : Text) :
    ∃ letter rest, (letter = 'v' ∨ letter = 'p') ∧ row ++ text = letter :: rest := by
  -- It is a list of registers that is written out.
  obtain ⟨registers, spelled⟩ := written.exists_spelled
  exact spelled.head? text

/-- Further registers are taken as a row behind a comma, or there are none. -/
theorem exists_row_of_splitMore (text : Text) : (splitMore text).2 = text ∨
    ∃ comma row, IsComma comma ∧ Row row ∧ text = comma ++ row ++ (splitMore text).2 := by
  -- One comma and one register are taken at a time.
  rw [splitMore_eq]
  cases skipped : skipComma text with
  | none => exact .inl rfl
  | some between =>
    rw [Option.bind_some]
    cases taken : split between with
    | none => exact .inl rfl
    | some parts =>
      obtain ⟨register, left⟩ := parts
      -- Comma and register take something off, so that the induction is on the length.
      have shorter : left.length < text.length :=
        (split_length taken).trans (skipComma_length skipped)
      obtain ⟨comma, separates, whole⟩ := isComma_of_skipComma skipped
      obtain ⟨named, whole'⟩ := isRegister_of_split taken
      refine .inr ?_
      rcases exists_row_of_splitMore left with last | ⟨comma', row, separates', written, whole''⟩
      · exact ⟨comma, register, separates, .single named, by simp [whole, whole', last]⟩
      -- The register and the row behind it are a row again.
      · refine ⟨comma, register ++ comma' ++ row, separates, .more named separates' written, ?_⟩
        rw [whole, whole']
        conv => lhs; rw [whole'']
        simp only [List.append_assoc]
termination_by text.length

/-- What is taken as a list of registers is one. -/
theorem listed_of_splitList (text : Text) :
    ∃ listed, Listed listed ∧ text = listed ++ (splitList text).2 := by
  -- The further registers follow the first one.
  unfold splitList
  cases taken : split text with
  | none => exact ⟨[], .inl rfl, rfl⟩
  | some parts =>
    obtain ⟨register, behind⟩ := parts
    obtain ⟨named, whole⟩ := isRegister_of_split taken
    rcases exists_row_of_splitMore behind with last | ⟨comma, row, separates, written, whole'⟩
    · exact ⟨register, .inr (.single named), by rw [whole, last]⟩
    · refine ⟨register ++ comma ++ row, .inr (.more named separates written), ?_⟩
      rw [whole]
      conv => lhs; rw [whole']
      simp only [List.append_assoc]

/-- A register is reached when spaces and tabs in front of it are skipped. -/
theorem skipSpaces_register {lead text : Text} (spaces : ∀ c ∈ lead, Text.isSpace c)
    (letter : ∃ letter rest, (letter = 'v' ∨ letter = 'p') ∧ text = letter :: rest) :
    Text.skipSpaces (lead ++ text) = text := by
  -- Its letter is no space.
  obtain ⟨letter, rest, known, rfl⟩ := letter
  exact Text.skipSpaces_mark spaces (by rcases known with rfl | rfl <;> rfl) rest

/-- A comma in front of registers is skipped up to the first of them. -/
theorem skipComma_register {comma text : Text} (separates : IsComma comma)
    (letter : ∃ letter rest, (letter = 'v' ∨ letter = 'p') ∧ text = letter :: rest) :
    skipComma (comma ++ text) = some text := by
  -- No more spaces follow.
  rw [skipComma_of_isComma separates]
  exact congrArg some (skipSpaces_register (List.forall_mem_nil _) letter)

/-- Registers that are written out are taken in their order, with and without a comma in front, if
neither a digit nor a further register follows. -/
theorem Spelled.splitList_append {registers : List Text} {row behind : Text}
    (spelled : Spelled registers row)
    (stops : ∀ c, behind.head? = some c → Text.isDigit c = false)
    (last : (skipComma behind).bind split = none) :
    splitList (row ++ behind) = (registers, behind) ∧
      ∀ comma, IsComma comma → splitMore (comma ++ (row ++ behind)) = (registers, behind) := by
  -- Each register ends at the comma behind it, and the last one at what follows.
  induction spelled with
  | @single register named =>
    have taken := split_append named stops
    -- Behind the last register no further one is found.
    have none : splitMore behind = ([], behind) := by rw [splitMore_eq, last]
    refine ⟨by simp only [splitList, taken, none], fun comma separates => ?_⟩
    rw [splitMore_eq, skipComma_register separates (head?_of_isRegister named behind),
      Option.bind_some, taken]
    simp only [none]
  | @more register between others registers named separates later ih =>
    have whole : register ++ between ++ others ++ behind =
        register ++ (between ++ (others ++ behind)) := by
      simp only [List.append_assoc]
    have taken := split_append named (separates.not_isDigit (others ++ behind))
    -- The others are read behind the comma that has to be there.
    have rest := ih.2 between separates
    rw [whole]
    refine ⟨by simp only [splitList, taken, rest], fun comma separates' => ?_⟩
    rw [splitMore_eq, skipComma_register separates' (head?_of_isRegister named _),
      Option.bind_some, taken]
    simp only [rest]

/-- A list of registers is taken whole in front of a comma with no register behind it. -/
theorem splitList_listed {comma behind listed : Text} (separates : IsComma comma)
    (other : split (Text.skipSpaces behind) = none) (written : Listed listed) :
    (splitList (listed ++ (comma ++ behind))).2 = comma ++ behind := by
  -- A comma begins no register.
  rcases written with rfl | row
  · have none : split (comma ++ behind) = none := by
      refine split_eq_none fun c first => ?_
      obtain ⟨before, after, spaces, -, rfl⟩ := separates
      cases before with
      | nil =>
        cases first
        decide
      | cons d before =>
        cases first
        have either : c = ' ' ∨ c = '\t' := by simpa [Text.isSpace] using spaces c (by simp)
        rcases either with rfl | rfl <;> decide
    rw [List.nil_append]
    simp only [splitList, none]
  · obtain ⟨registers, spelled⟩ := row.exists_spelled
    have last : (skipComma (comma ++ behind)).bind split = none := by
      rw [skipComma_of_isComma separates, Option.bind_some, other]
    rw [(spelled.splitList_append (separates.not_isDigit behind) last).1]

end Register

namespace FieldRef

/-- A reference is written alike by no other field whose class holds no arrow and whose name ends
before the colon. -/
theorem display_inj {field other : FieldRef} (noArrow : ¬ arrow <:+: field.owner)
    (noArrow' : ¬ arrow <:+: other.owner) (named : ∀ c ∈ field.name, isMemberChar c)
    (named' : ∀ c ∈ other.name, isMemberChar c) (same : field.display = other.display) :
    field = other := by
  -- The arrow and the colon part it in one way only.
  have split := Text.splitOnce_arrow noArrow field.member
  rw [← display, same, display, Text.splitOnce_arrow noArrow' other.member] at split
  obtain ⟨owner, member⟩ := Prod.mk.inj (Option.some.inj split)
  obtain ⟨name, descriptor⟩ := Text.eq_of_first (Reference.forall_isMemberChar.1 named).1
    (Reference.forall_isMemberChar.1 named').1 member.symm
  cases field
  cases other
  simp_all

/-- A field that is taken from a text has a class without an arrow and a name that ends before the
colon. -/
theorem of_split {text behind : Text} {field : FieldRef}
    (taken : split text = some (field, behind)) :
    ¬ arrow <:+: field.owner ∧ ∀ c ∈ field.name, isMemberChar c := by
  -- The reference is well formed.
  obtain ⟨formed, -, noArrow⟩ := Reference.wellFormed_of_splits
    (show (Reference.ofField field).Splits text behind from taken)
  exact ⟨noArrow, formed.name⟩

end FieldRef

namespace Instruction

/-- The opcodes that write a field. -/
def putOpcodes : List Text :=
  -- There are seven for each sort of field.
  ["sput", "sput-wide", "sput-object", "sput-boolean", "sput-byte", "sput-char", "sput-short",
    "iput", "iput-wide", "iput-object", "iput-boolean", "iput-byte", "iput-char",
    "iput-short"].map String.toList

/-- A text without blanks at its ends puts a value into a field. -/
inductive PutLine (field : FieldRef) : Text → Prop where
  /-- The opcode and the registers are followed by the class, which may have blanks around it, and
  any text may follow the type. -/
  | written {opcode gap registers comma lead tail : Text} (rest : Text)
    (known : opcode ∈ putOpcodes) (nonempty : gap ≠ []) (blank : ∀ c ∈ gap, Text.isBlank c)
    (listed : Register.Listed registers) (separates : Register.IsComma comma)
    (blankLead : ∀ c ∈ lead, Text.isBlank c) (blankTail : ∀ c ∈ tail, Text.isBlank c) :
    PutLine field (opcode ++ (gap ++ registers ++ comma ++
      (lead ++ field.owner ++ tail ++ arrow ++ (field.name ++ ':' :: field.descriptor ++ rest))))

/-- The opcodes that write a field are those listed for puts. -/
theorem mem_putOpcodes_iff (opcode : Text) : opcode ∈ putOpcodes ↔
    ∃ access, fieldOpcodes.lookup opcode = some access ∧ access.kind = .put := by
  -- Both lists are gone through.
  constructor
  · intro known
    have each : ∀ opcode ∈ putOpcodes,
        (fieldOpcodes.lookup opcode).any fun access => access.kind == .put := by decide +kernel
    obtain ⟨access, found, put⟩ := (Option.any_eq_true _ _).1 (each opcode known)
    exact ⟨access, found, eq_of_beq put⟩
  · rintro ⟨access, found, put⟩
    have each : ∀ entry ∈ fieldOpcodes, entry.2.kind = .put → entry.1 ∈ putOpcodes := by
      decide +kernel
    exact each (opcode, access) (List.mem_of_lookup found) put

/-- A line that names a field is decoded to the access that its opcode stands for. -/
theorem decode_of_lookup {line : Text} {access : FieldAccess} {field : FieldRef}
    (found : fieldOpcodes.lookup line.opcode = some access)
    (named : (decode line).names (.ofField field)) :
    ∃ registers, decode line = .fieldAccess line.opcode access registers field := by
  -- The operands have been read, as any other line would name nothing.
  have taken : (Reference.ofField field).takesOpcode line.opcode := by
    simp only [Reference.takesOpcode, found, Option.isSome_some]
  rw [decode_of_takesOpcode taken, ofOpcode, ← Text.opcode, ← Text.operands] at named ⊢
  simp only [ofOperands?, found] at named ⊢
  cases read : ofFieldOperands? line.opcode access (Text.trimStart line.operands) with
  | none =>
    rw [read] at named
    cases named
  | some instruction =>
    rw [read] at named
    simp only [ofFieldOperands?, Option.bind_eq_bind, Option.bind_eq_some_iff, Option.pure_def,
      Option.some.injEq] at read
    obtain ⟨operand, -, ⟨other, behind⟩, -, rfl⟩ := read
    have same : Reference.ofField field = .ofField other := eq_of_beq named
    cases same
    exact ⟨_, rfl⟩

/-- A line is decoded to a put of a written reference exactly if its opcode is one of the puts and
it names a field that is written so. -/
theorem assigns_decode {line reference : Text} : (decode line).assigns reference ↔
    line.opcode ∈ putOpcodes ∧
      ∃ field : FieldRef, field.display = reference ∧ (decode line).names (.ofField field) := by
  -- The kind of access is the one of the opcode.
  constructor
  · intro assigned
    cases decoded : decode line with
    | fieldAccess opcode access registers field =>
      rw [decoded] at assigned
      simp only [assigns, Bool.and_eq_true, beq_iff_eq] at assigned
      have named : (decode line).names (.ofField field) := by
        rw [decoded]
        exact beq_self_eq_true _
      -- The opcode that was read is that of a field access.
      obtain ⟨access', found⟩ := Option.isSome_iff_exists.1 ((names_decode line).1 named).1
      obtain ⟨registers', same⟩ := decode_of_lookup found named
      rw [decoded] at same
      cases same
      rw [decoded] at named
      exact ⟨(mem_putOpcodes_iff line.opcode).2 ⟨access, found, assigned.1⟩, field, assigned.2,
        named⟩
    -- No other instruction assigns anything.
    | _ =>
      rw [decoded] at assigned
      cases assigned
  · rintro ⟨known, field, display, named⟩
    obtain ⟨access, found, put⟩ := (mem_putOpcodes_iff line.opcode).1 known
    obtain ⟨registers, same⟩ := decode_of_lookup found named
    rw [same]
    simp [assigns, put, display]

/-- A line is decoded to a put of a field exactly if its opcode is one of the puts, registers and a
comma follow, and the class before the first arrow and the token behind it are the field's. -/
theorem assigns_display_iff {field : FieldRef} (formed : (Reference.ofField field).WellFormed)
    (noArrow : ¬ arrow <:+: field.owner) (line : Text) :
    (decode line).assigns field.display ↔ line.opcode ∈ putOpcodes ∧ ∃ operand front back,
      Register.skipComma (Register.splitList (Text.trimStart line.operands)).2 = some operand ∧
        Text.splitOnce arrow operand = some (front, back) ∧ Text.trim front = field.owner ∧
          (Reference.ofField field).token <+: back := by
  -- No other field is written alike.
  -- Texts of two fields can be equal only if the fields are, because of the arrow.
  have only : (∃ other : FieldRef, other.display = field.display ∧
      (decode line).names (.ofField other)) ↔ (decode line).names (.ofField field) := by
    constructor
    · rintro ⟨other, same, named⟩
      obtain ⟨-, rest, behind, -, taken⟩ := (names_decode line).1 named
      obtain ⟨noArrow', named'⟩ := FieldRef.of_split taken
      rwa [FieldRef.display_inj noArrow' noArrow named' formed.name same] at named
    · exact fun named => ⟨field, rfl, named⟩
  rw [assigns_decode, only, names_decode]
  -- Every opcode that puts accesses fields.
  have takes (known : line.opcode ∈ putOpcodes) :
      (Reference.ofField field).takesOpcode line.opcode := by
    obtain ⟨access, found, -⟩ := (mem_putOpcodes_iff line.opcode).1 known
    simp only [Reference.takesOpcode, found, Option.isSome_some]
  constructor
  · rintro ⟨known, -, operand, behind, skipped, taken⟩
    obtain ⟨front, back, parts⟩ := formed.exists_splits.1 ⟨behind, taken⟩
    exact ⟨known, operand, front, back, skipped, parts⟩
  · rintro ⟨known, operand, front, back, skipped, parts⟩
    obtain ⟨behind, taken⟩ := formed.exists_splits.2 ⟨front, back, parts⟩
    exact ⟨known, takes known, operand, behind, skipped, taken⟩

section Lines

variable {field : FieldRef} (isClass : Descriptor.isClass field.owner)
  (noArrow : ¬ arrow <:+: field.owner) (named : ∀ c ∈ field.name, isMemberChar c)
  (typed : Descriptor.isType field.descriptor)

include isClass noArrow in
/-- Between blanks a class is the same, and an arrow behind them is the first one. -/
theorem splitOnce_owner {lead tail : Text} (blankLead : ∀ c ∈ lead, Text.isBlank c)
    (blankTail : ∀ c ∈ tail, Text.isBlank c) (back : Text) :
    Text.splitOnce arrow (lead ++ field.owner ++ tail ++ arrow ++ back) =
        some (lead ++ field.owner ++ tail, back) ∧
      Text.trim (lead ++ field.owner ++ tail) = field.owner := by
  -- No character of an arrow is blank.
  refine ⟨Text.splitOnce_arrow (fun inside => noArrow ?_) back, ?_⟩
  · exact Text.infix_of_between (by decide) (by decide) blankLead blankTail inside
  · rw [Text.trim_append blankLead blankTail, Descriptor.trim_class isClass]

/-- What a put needs behind its opcode is written after blanks as registers, a comma, the class
between blanks, an arrow and the token. -/
theorem exists_written_of_operands {operands operand front back : Text}
    (skipped : Register.skipComma (Register.splitList (Text.trimStart operands)).2 = some operand)
    (parts : Text.splitOnce arrow operand = some (front, back)) :
    ∃ registers comma lead tail, Register.Listed registers ∧ Register.IsComma comma ∧
      (∀ c ∈ lead, Text.isBlank c) ∧ (∀ c ∈ tail, Text.isBlank c) ∧
      operands = operands.takeWhile Text.isBlank ++ registers ++ comma ++
        (lead ++ Text.trim front ++ tail ++ arrow ++ back) := by
  -- Each reader takes its part from the start of what is left.
  obtain ⟨registers, listed, whole⟩ := Register.listed_of_splitList (Text.trimStart operands)
  obtain ⟨comma, separates, whole'⟩ := Register.isComma_of_skipComma skipped
  obtain ⟨lead, tail, blankLead, blankTail, whole''⟩ := Text.exists_trim front
  refine ⟨registers, comma, lead, tail, listed, separates, blankLead, blankTail, ?_⟩
  rw [← whole'', ← Text.eq_of_splitOnce parts, List.append_assoc, List.append_assoc, ← whole',
    ← whole]
  exact List.takeWhile_append_dropWhile.symm

/-- Blanks stand between the opcode and what is read as registers and a comma. -/
theorem takeWhile_operands_ne_nil {line operand : Text}
    (skipped : Register.skipComma
      (Register.splitList (Text.trimStart line.operands)).2 = some operand) :
    line.operands.takeWhile Text.isBlank ≠ [] := by
  -- The opcode ends at a blank, and no comma is read from nothing.
  have stops := List.head?_dropWhile_not (fun c => !Text.isBlank c) (Text.trim line)
  rw [← Text.operands] at stops
  cases operands : line.operands with
  | nil =>
    rw [operands] at skipped
    cases skipped
  | cons c rest =>
    have blank : Text.isBlank c := by simpa [operands] using stops
    simp [blank]

/-- The opcode of a written put is its first word. -/
theorem opcode_written {line opcode gap rest : Text}
    (written : Text.trim line = opcode ++ (gap ++ rest)) (known : opcode ∈ putOpcodes)
    (nonempty : gap ≠ []) (blank : ∀ c ∈ gap, Text.isBlank c) :
    line.opcode = opcode ∧ line.operands = gap ++ rest := by
  -- No opcode holds a blank.
  have solid : ∀ opcode ∈ putOpcodes, Text.Solid opcode := by decide +kernel
  obtain ⟨c, others, rfl⟩ := List.exists_cons_of_ne_nil nonempty
  rw [Text.opcode, Text.operands, written]
  exact Text.takeWhile_word (solid opcode known)
    (Text.afterWord_cons (blank c (by simp)) (others ++ rest))

/-- Blanks in front of registers and a comma are trimmed away, and the comma stays. -/
theorem trimStart_registers {gap registers comma : Text} (blank : ∀ c ∈ gap, Text.isBlank c)
    (listed : Register.Listed registers) (separates : Register.IsComma comma) (behind : Text) :
    ∃ comma', Register.IsComma comma' ∧
      Text.trimStart (gap ++ registers ++ comma ++ behind) = registers ++ (comma' ++ behind) := by
  -- Without registers the spaces in front of the comma are trimmed away, too.
  rw [List.append_assoc, List.append_assoc, Text.trimStart_append blank]
  rcases listed with rfl | row
  · obtain ⟨before, after, spaces, spaces', rfl⟩ := separates
    refine ⟨',' :: after, ⟨[], after, by simp, spaces', rfl⟩, ?_⟩
    rw [List.nil_append, List.append_assoc,
      Text.trimStart_append fun c member => Text.isBlank_of_isSpace (spaces c member)]
    rfl
  · obtain ⟨letter, rest, known, whole⟩ := row.head? (comma ++ behind)
    refine ⟨comma, separates, ?_⟩
    rw [whole]
    rcases known with rfl | rfl <;> rfl

/-- Registers and a comma are read behind blanks in front of a class. -/
theorem skipComma_written {gap registers comma lead behind : Text}
    (blank : ∀ c ∈ gap, Text.isBlank c) (listed : Register.Listed registers)
    (separates : Register.IsComma comma) (blankLead : ∀ c ∈ lead, Text.isBlank c)
    (mark : ∃ rest, behind = 'L' :: rest) :
    ∃ kept, (∀ c ∈ kept, Text.isBlank c) ∧
      Register.skipComma (Register.splitList
        (Text.trimStart (gap ++ registers ++ comma ++ (lead ++ behind)))).2 =
          some (kept ++ behind) := by
  -- Neither a blank nor the mark of a class begins a register.
  obtain ⟨rest, rfl⟩ := mark
  -- Behind the registers and their comma the blanks are passed.
  obtain ⟨comma', separates', trimmed⟩ :=
    trimStart_registers blank listed separates (lead ++ 'L' :: rest)
  obtain ⟨kept, blankKept, skipped⟩ := Text.skipSpaces_blank blankLead ('L' :: rest)
    fun c first => by
      cases first
      decide
  -- The operand begins with a blank or with the mark, so that no further register is read.
  have other : Register.split (Text.skipSpaces (lead ++ 'L' :: rest)) = none := by
    rw [skipped]
    refine Register.split_eq_none fun c first => ?_
    cases kept with
    | nil =>
      cases first
      decide
    | cons d kept =>
      cases first
      have blank := blankKept c (by simp)
      constructor <;> rintro rfl <;> cases blank
  refine ⟨kept, blankKept, ?_⟩
  rw [trimmed, Register.splitList_listed separates' other listed,
    Register.skipComma_of_isComma separates', skipped]

include isClass noArrow named typed

/-- A line is decoded to a put of a field exactly if, without the blanks at its ends, it is one of
the put opcodes, blanks, registers with commas between them, a comma, the class with any blanks
around it, the arrow, the name, a colon, the type and any text. -/
theorem assigns_iff_putLine (line : Text) :
    (decode line).assigns field.display ↔ PutLine field (Text.trim line) := by
  -- Each part is read exactly where it is written.
  rw [assigns_display_iff (Reference.wellFormed_field named typed) noArrow, Reference.token_field]
  have whole : line.opcode ++ line.operands = Text.trim line := List.takeWhile_append_dropWhile
  constructor
  · -- What has been read was written in this way.
    rintro ⟨known, operand, front, back, skipped, parts, owner, rest, rfl⟩
    obtain ⟨registers, comma, lead, tail, listed, separates, blankLead, blankTail, written⟩ :=
      exists_written_of_operands skipped parts
    have put : PutLine field _ := .written rest known (takeWhile_operands_ne_nil skipped)
      (fun c => Text.isBlank_of_mem_takeWhile) listed separates blankLead blankTail
    rw [← whole, written, owner]
    simpa only [List.append_assoc] using put
  · -- What is written in this way is read part by part.
    intro written
    generalize same : Text.trim line = trimmed at written
    cases written with
    | @written opcode gap registers comma lead tail rest known nonempty blank listed separates
        blankLead blankTail =>
      -- The owner begins with the mark of a class.
      obtain ⟨mark, word⟩ := Descriptor.exists_mark isClass
      obtain ⟨kept, blankKept, skipped⟩ := skipComma_written blank listed separates blankLead
        (⟨mark ++ tail ++ arrow ++ (field.name ++ ':' :: field.descriptor ++ rest), by
          simp only [word, List.cons_append]⟩ : ∃ others, field.owner ++ tail ++ arrow ++
            (field.name ++ ':' :: field.descriptor ++ rest) = 'L' :: others)
      obtain ⟨front, trimmed⟩ := splitOnce_owner isClass noArrow blankKept blankTail
        (field.name ++ ':' :: field.descriptor ++ rest)
      rw [List.append_assoc gap, List.append_assoc gap] at same
      obtain ⟨opcode', operands⟩ := opcode_written same known nonempty blank
      rw [opcode', operands]
      refine ⟨known, _, _, _, ?_, front, trimmed, List.prefix_append _ rest⟩
      simpa only [List.append_assoc] using skipped

end Lines

/-- Tabs, a blank behind the class and a comment at the end belong to a put. -/
theorem assigns_iff_putLine_sample :
    PutLine ⟨"Lx;".toList, "z".toList, "[I".toList⟩
      (Text.trim "  sput-object v0\t,p12 , Lx; ->z:[I # set".toList) :=
  -- The line is decoded to the put.
  (assigns_iff_putLine (by decide) (by decide) (by decide) (by decide) _).1 (by decide +kernel)

end Instruction

end Smali
