import Smali.Proofs.Instruction
import Smali.Proofs.Numeral

/-! Instructions that are written on a line of their own are decoded as they were meant. -/

namespace Smali

namespace Text

/-- Nothing is dropped from a text whose ends are not blank. -/
theorem trimStart_eq_self {text : Text} (trimmed : trim text = text) : trimStart text = text := by
  -- The first character stays.
  cases text with
  | nil => rfl
  | cons c rest =>
    have solid := not_isBlank_of_trim_cons trimmed
    simp [trimStart, solid]

end Text

namespace Register

/-- A text is a register, which is a letter and digits. -/
def isRegister : Text → Bool
  -- There is at least one digit.
  | [] => false
  | letter :: digits =>
    (letter == 'v' || letter == 'p') && !digits.isEmpty && digits.all Text.isDigit

/-- A register is taken up to the first character that is no digit. -/
theorem split_append {register behind : Text} (named : isRegister register)
    (stops : ∀ c, behind.head? = some c → Text.isDigit c = false) :
    split (register ++ behind) = some (register, behind) := by
  -- The digits make up a run.
  cases register with
  | nil => cases named
  | cons letter digits =>
    simp only [isRegister, Bool.and_eq_true, Bool.or_eq_true, beq_iff_eq, Bool.not_eq_true',
      List.all_eq_true] at named
    obtain ⟨⟨known, nonempty⟩, decimal⟩ := named
    obtain ⟨run, rest⟩ := Text.takeWhile_run decimal stops
    simp [split, run, rest, known, nonempty]

/-- The comma and the space behind a register are skipped. -/
theorem skipComma_append {operands : Text} (trimmed : Text.trim operands = operands) :
    skipComma (", ".toList ++ operands) = some operands := by
  -- The operands do not begin with a space.
  have start : Text.skipSpaces (' ' :: operands) = operands := by
    cases operands with
    | nil => rfl
    | cons c rest =>
      have solid := Text.not_isBlank_of_trim_cons trimmed
      have other : Text.isSpace c = false := by
        rw [← Bool.not_eq_true]
        intro space
        rw [Text.isBlank_of_isSpace space] at solid
        cases solid
      simp [Text.skipSpaces, other, show Text.isSpace ' ' by decide]
  exact congrArg some start

/-- A register and the comma behind it are read in front of operands. -/
theorem split_comma {register operands : Text} (named : isRegister register)
    (trimmed : Text.trim operands = operands) :
    split (register ++ (", ".toList ++ operands)) = some (register, ", ".toList ++ operands) ∧
      skipComma (", ".toList ++ operands) = some operands := by
  -- A comma is no digit.
  refine ⟨split_append named fun c first => ?_, skipComma_append trimmed⟩
  cases first
  rfl

end Register

namespace Instruction

/-- A word may open an instruction. -/
def isOpcode : Text → Bool
  -- Its first character is not the mark of a comment, a label or a directive.
  | [] => false
  | c :: rest => !(['#', ':', '.'].contains c) && (c :: rest).all fun d => !Text.isBlank d

/-- An opcode and operands behind it are decoded by the opcode, whatever the line is indented. -/
theorem decode_written {indent opcode operands : Text} (blank : ∀ c ∈ indent, Text.isBlank c)
    (word : isOpcode opcode) (nonempty : operands ≠ [])
    (trimmed : Text.trim operands = operands) :
    decode (indent ++ (opcode ++ ' ' :: operands)) =
      (ofOperands? opcode operands).getD (.other (opcode ++ ' ' :: operands)) := by
  -- The line begins with the opcode and ends with the operands.
  cases opcode with
  | nil => cases word
  | cons c rest =>
    simp only [isOpcode, Bool.and_eq_true, Bool.not_eq_true', List.all_eq_true] at word
    obtain ⟨mark, solid⟩ := word
    -- The operands end without a blank, and the whole line does so with them.
    have last : ∀ d, (c :: rest ++ ' ' :: operands).getLast? = some d →
        Text.isBlank d = false := by
      intro d found
      obtain ⟨e, final⟩ := Option.isSome_iff_exists.1 (List.getLast?_isSome.2 nonempty)
      have ends := Text.not_isBlank_of_trim trimmed final
      rw [List.getLast?_append, List.getLast?_cons, final] at found
      cases found
      exact ends
    have whole : Text.trim (indent ++ (c :: rest ++ ' ' :: operands)) =
        c :: rest ++ ' ' :: operands := by
      rw [Text.trim_lead blank]
      refine Text.trim_eq_self (fun d first => ?_) last
      cases first
      exact solid c (by simp)
    have space : Text.isBlank ' ' := by decide
    -- The opcode ends at the blank, behind which the operands begin.
    obtain ⟨run, behind⟩ := Text.takeWhile_word solid (Text.afterWord_cons space operands)
    have start : Text.trimStart (' ' :: operands) = operands := by
      rw [← List.singleton_append, Text.trimStart_append (by decide)]
      exact Text.trimStart_eq_self trimmed
    -- An opcode begins with no mark of a comment, a label or a directive.
    have opened : decode (indent ++ (c :: rest ++ ' ' :: operands)) =
        ofOpcode (c :: rest ++ ' ' :: operands) := by
      simp only [List.contains_cons, List.contains_nil, Bool.or_false, Bool.or_eq_false_iff,
        beq_eq_false_iff_ne] at mark
      unfold decode
      rw [whole, List.cons_append]
      simp [mark]
    rw [opened, ofOpcode, run, behind, start]

/-- An opcode for strings reads its operands as a register and a string literal. -/
theorem ofOperands?_string {opcode : Text} (known : opcode ∈ stringOpcodes) (operands : Text) :
    isOpcode opcode ∧ ofOperands? opcode operands = ofStringOperands? operands := by
  -- No other kind of opcode is tried before.
  have each : ∀ opcode ∈ stringOpcodes, isOpcode opcode ∧ fieldOpcodes.lookup opcode = none ∧
      "invoke-".toList.isPrefixOf opcode = false := by decide +kernel
  obtain ⟨word, field, call⟩ := each opcode known
  have listed : stringOpcodes.contains opcode := List.contains_iff_mem.2 known
  refine ⟨word, ?_⟩
  unfold ofOperands?
  rw [field]
  dsimp only
  rw [call, if_neg (by decide), if_pos listed]

/-- An opcode for integers reads its operands as a register and an integer. -/
theorem ofOperands?_const {opcode : Text} (known : opcode ∈ constOpcodes) (operands : Text) :
    isOpcode opcode ∧ ofOperands? opcode operands = ofConstOperands? opcode operands := by
  -- No other kind of opcode is tried before.
  have each : ∀ opcode ∈ constOpcodes, isOpcode opcode ∧ fieldOpcodes.lookup opcode = none ∧
      "invoke-".toList.isPrefixOf opcode = false ∧ stringOpcodes.contains opcode = false := by
    decide +kernel
  obtain ⟨word, field, call, string⟩ := each opcode known
  have listed : constOpcodes.contains opcode := List.contains_iff_mem.2 known
  refine ⟨word, ?_⟩
  unfold ofOperands?
  rw [field]
  dsimp only
  rw [call, string, if_neg (by decide), if_neg (by decide), if_pos listed]

/-- Operands with a register in front are neither empty nor blank at their ends. -/
theorem trim_operands {register operands : Text} (named : Register.isRegister register)
    (nonempty : operands ≠ []) (trimmed : Text.trim operands = operands) :
    register ++ (", ".toList ++ operands) ≠ [] ∧
      Text.trim (register ++ (", ".toList ++ operands)) =
        register ++ (", ".toList ++ operands) := by
  -- A register begins with a letter.
  cases register with
  | nil => cases named
  | cons letter digits =>
    refine ⟨by simp, Text.trim_eq_self (fun c first => ?_) fun c found => ?_⟩
    · simp only [Register.isRegister, Bool.and_eq_true, Bool.or_eq_true, beq_iff_eq] at named
      cases first
      rcases named.1.1 with rfl | rfl <;> decide
    · obtain ⟨last, final⟩ := Option.isSome_iff_exists.1 (List.getLast?_isSome.2 nonempty)
      rw [List.getLast?_append, List.getLast?_append, final] at found
      cases found
      exact Text.not_isBlank_of_trim trimmed final

/-- The line that puts an integer into a register. -/
def constLine (opcode register : Text) (numeral : Literal.Numeral) : Text :=
  -- A space parts the opcode from the operands, and a comma the operands from one another.
  opcode ++ ' ' :: (register ++ (", ".toList ++ numeral.text))

section Constants

variable {indent register : Text} (blank : ∀ c ∈ indent, Text.isBlank c)
  (named : Register.isRegister register)

include blank named

/-- An escaped text between quotes is decoded as that text. -/
theorem decode_constString {opcode : Text} (known : opcode ∈ stringOpcodes) (text : Text) :
    decode (indent ++ (opcode ++ ' ' :: (register ++ (", ".toList ++
      ('"' :: Text.escape text ++ ['"']))))) = .constString register text := by
  -- The literal is read up to its closing quote.
  have trimmed : Text.trim ('"' :: Text.escape text ++ ['"']) =
      '"' :: Text.escape text ++ ['"'] := by
    refine Text.trim_eq_self (fun c first => ?_) fun c last => ?_
    · cases first
      decide
    · rw [List.getLast?_concat] at last
      cases last
      decide
  obtain ⟨word, kind⟩ := ofOperands?_string known
    (register ++ (", ".toList ++ ('"' :: Text.escape text ++ ['"'])))
  obtain ⟨nonempty, whole⟩ := trim_operands named (by simp) trimmed
  obtain ⟨taken, comma⟩ := Register.split_comma named trimmed
  rw [decode_written blank word nonempty whole, kind]
  simp only [ofStringOperands?, taken, comma, Literal.splitString_escape, Option.bind_eq_bind,
    Option.bind_some, Text.unescape_escape, Option.pure_def, Option.getD_some]

/-- A numeral is decoded as the integer that it stands for if its digits stay below the bound of the
base. -/
theorem decode_constLine {opcode : Text} (known : opcode ∈ constOpcodes)
    (numeral : Literal.Numeral) :
    decode (indent ++ constLine opcode register numeral) =
      if numeral.magnitude < numeral.base.bound then
        .const opcode register (Int64.ofInt numeral.value)
      else .other (constLine opcode register numeral) := by
  -- The numeral is read to the end of the line.
  have trimmed := numeral.solid_text.trim
  obtain ⟨word, kind⟩ := ofOperands?_const known (register ++ (", ".toList ++ numeral.text))
  obtain ⟨nonempty, whole⟩ := trim_operands named numeral.text_ne_nil trimmed
  obtain ⟨taken, comma⟩ := Register.split_comma named trimmed
  rw [constLine, decode_written blank word nonempty whole, kind]
  simp only [ofConstOperands?, taken, comma, numeral.splitInteger_text, Option.bind_eq_bind,
    Option.bind_some, Option.pure_def]
  split <;> rfl

/-- A number in hexadecimal is decoded as that number. -/
theorem decode_const {opcode : Text} (known : opcode ∈ constOpcodes) {number : Nat}
    (fits : number < 0x10000000000000000) :
    decode (indent ++ (opcode ++ ' ' :: (register ++ (", ".toList ++ Text.hexadecimal number)))) =
      .const opcode register (Int64.ofNat number) := by
  -- It is a numeral without a sign.
  have line := decode_constLine blank named known (.ofInt (.hexadecimal false) number)
  rw [constLine, Literal.Numeral.text_ofInt, Literal.Numeral.magnitude_ofInt,
    Literal.Numeral.value_ofInt, Int64.ofInt_eq_ofNat] at line
  exact line.trans (if_pos fits)

end Constants

/-- Escaping loses nothing: only printable characters are written, they are read back as the text,
and between quotes they are decoded as the text for each register. -/
theorem escape_lossless (text : Text) :
    (∀ c ∈ Text.escape text, ' ' ≤ c ∧ c ≤ '~') ∧ Text.unescape (Text.escape text) = text ∧
      ∀ register, Register.isRegister register →
        decode ("const-string ".toList ++ register ++ ", \"".toList ++ Text.escape text ++
          "\"".toList) = .constString register text := by
  -- The line is not indented.
  refine ⟨fun c => Text.printable_escape, Text.unescape_escape text, fun register named => ?_⟩
  have line := decode_constString (List.forall_mem_nil _) named
    (show "const-string".toList ∈ stringOpcodes by decide) text
  rw [← line]
  exact congrArg decode (by simp)

/-- A quote behind a backslash, a control and a character of two units are read back. -/
theorem escape_lossless_sample :
    let text := ['a', '\\', '"', '\n', '\x01', '7', '😀']
    decode ("const-string ".toList ++ "p12".toList ++ ", \"".toList ++ Text.escape text ++
      "\"".toList) = .constString "p12".toList text :=
  -- The register has two digits.
  (escape_lossless _).2.2 _ (by decide)

section Numerals

variable {opcode register : Text} (known : opcode ∈ constOpcodes)
  (named : Register.isRegister register)

include known named

/-- A numeral on a line that is not indented is decoded in the same way. -/
theorem decode_numeral (numeral : Literal.Numeral) :
    decode (constLine opcode register numeral) =
      if numeral.magnitude < numeral.base.bound then
        .const opcode register (Int64.ofInt numeral.value)
      else .other (constLine opcode register numeral) :=
  -- Nothing stands before the line.
  decode_constLine (List.forall_mem_nil _) named known numeral

/-- An integer written in a base is read back if its magnitude stays below the bound of the base. -/
theorem decode_ofInt {base : Literal.Base} {value : Int64}
    (fits : value.toInt.natAbs < base.bound) :
    decode (constLine opcode register (.ofInt base value.toInt)) =
      .const opcode register value := by
  -- The numeral stands for the integer.
  rw [decode_numeral known named, Literal.Numeral.magnitude_ofInt, Literal.Numeral.value_ofInt,
    Int64.ofInt_toInt]
  exact if_pos fits

end Numerals

/-- Hexadecimal digits below 2 to the power of 64 are decoded as the integer of 64 bits that they
and their sign stand for up to a multiple of that power, and others are not decoded; each integer is
read back from its magnitude behind its sign and from the digits of its bits. -/
theorem decode_hexadecimal {opcode register : Text} (known : opcode ∈ constOpcodes)
    (named : Register.isRegister register) (capital : Bool) :
    (∀ numeral : Literal.Numeral, numeral.base = .hexadecimal capital →
      (numeral.magnitude < 0x10000000000000000 →
        ∃ value : Int64,
          decode (constLine opcode register numeral) = .const opcode register value ∧
            -0x8000000000000000 ≤ value.toInt ∧ value.toInt < 0x8000000000000000 ∧
            value.toInt % 0x10000000000000000 = numeral.value % 0x10000000000000000) ∧
      (0x10000000000000000 ≤ numeral.magnitude →
        decode (constLine opcode register numeral) =
          .other (constLine opcode register numeral))) ∧
    ∀ value : Int64,
      decode (constLine opcode register (.ofInt (.hexadecimal capital) value.toInt)) =
          .const opcode register value ∧
        decode (constLine opcode register (.ofWord capital value.toUInt64)) =
          .const opcode register value := by
  -- The bound of the base is the number of words.
  refine ⟨fun numeral hexadecimal => ?_, fun value => ⟨?_, ?_⟩⟩
  · -- Below the bound the value is reduced to a word, which keeps it modulo the number of words.
    have bound : numeral.base.bound = 0x10000000000000000 := by rw [hexadecimal]; rfl
    have line := decode_numeral known named numeral
    rw [bound] at line
    constructor
    · intro fits
      rw [if_pos fits] at line
      refine ⟨_, line, Int64.le_toInt _, Int64.toInt_lt _, ?_⟩
      rw [Int64.toInt_ofInt]
      exact Int.bmod_emod
    · intro large
      rwa [if_neg (Nat.not_lt.2 large)] at line
  · -- The magnitude of the least integer is half the number of words.
    have least := Int64.le_toInt value
    have most := Int64.toInt_lt value
    refine decode_ofInt known named (show value.toInt.natAbs < 0x10000000000000000 from ?_)
    omega
  · -- A word written without a sign is below the bound by itself.
    have fits : value.toUInt64.toNat < 0x10000000000000000 := value.toUInt64.toNat_lt
    rw [decode_numeral known named, Literal.Numeral.magnitude_ofWord,
      Literal.Numeral.value_ofWord, Int64.ofInt_eq_ofNat, ← UInt64.toInt64_ofNat',
      UInt64.ofNat_toNat, Int64.toInt64_toUInt64]
    exact if_pos fits

/-- The least integer is read from more than sixteen digits behind its sign, a word with all bits
set is read without a sign, and the first number that is too large is not read. -/
theorem decode_hexadecimal_sample :
    let least : Literal.Numeral := ⟨true, .hexadecimal true, "008000000000000000".toList, some 'L',
      by decide, by decide, by simp [Literal.isWidth]⟩
    let large : Literal.Numeral := ⟨false, .hexadecimal true, "10000000000000000".toList, none,
      by decide, by decide, by simp⟩
    let line := constLine "const-wide".toList "p10".toList
    line least = "const-wide p10, -0X008000000000000000L".toList ∧
      (∃ value : Int64, decode (line least) = .const "const-wide".toList "p10".toList value ∧
        -0x8000000000000000 ≤ value.toInt ∧ value.toInt < 0x8000000000000000 ∧
        value.toInt % 0x10000000000000000 = least.value % 0x10000000000000000) ∧
      line (.ofWord true (-1 : Int64).toUInt64) = "const-wide p10, 0Xffffffffffffffff".toList ∧
      decode (line (.ofWord true (-1 : Int64).toUInt64)) =
        .const "const-wide".toList "p10".toList (-1) ∧
      decode (line large) = .other (line large) := by
  -- Each line is taken apart as it is written.
  intro least large line
  have lines := decode_hexadecimal (show "const-wide".toList ∈ constOpcodes by decide)
    (show Register.isRegister "p10".toList by decide) true
  exact ⟨by decide, (lines.1 least rfl).1 (by decide), by decide, (lines.2 (-1)).2,
    (lines.1 large rfl).2 (by decide)⟩

/-- Decimal digits are decoded exactly as the integer that they and their sign stand for if it is
below 2 to the power of 63 and above the negative of that power, and are not decoded otherwise; each
integer of 64 bits but the least is read back. -/
theorem decode_decimal {opcode register : Text} (known : opcode ∈ constOpcodes)
    (named : Register.isRegister register) :
    (∀ numeral : Literal.Numeral, numeral.base = .decimal →
      (-0x8000000000000000 < numeral.value ∧ numeral.value < 0x8000000000000000 →
        ∃ value : Int64,
          decode (constLine opcode register numeral) = .const opcode register value ∧
            value.toInt = numeral.value) ∧
      (¬ (-0x8000000000000000 < numeral.value ∧ numeral.value < 0x8000000000000000) →
        decode (constLine opcode register numeral) =
          .other (constLine opcode register numeral))) ∧
    ∀ value : Int64,
      decode (constLine opcode register (.ofInt .decimal value.toInt)) =
        .const opcode register value ↔ value ≠ Int64.minValue := by
  -- The digits are bounded before the sign is applied.
  refine ⟨fun numeral decimal => ?_, fun value => ⟨?_, fun other => ?_⟩⟩
  · have bound : numeral.base.bound = 0x8000000000000000 := by rw [decimal]; rfl
    have line := decode_numeral known named numeral
    have signs := numeral.value_eq_or
    rw [bound] at line
    constructor
    · intro range
      rw [if_pos (by omega)] at line
      exact ⟨_, line, Int64.toInt_ofInt_of_le (Int.le_of_lt range.1) range.2⟩
    · intro outside
      rwa [if_neg (by omega)] at line
  · -- The digits of the least integer reach the bound.
    intro line same
    rw [same, decode_numeral known named, Literal.Numeral.magnitude_ofInt] at line
    cases line
  · -- Every other value has a magnitude below half the number of words.
    have apart : value.toInt ≠ -0x8000000000000000 := fun same =>
      other (Int64.toInt_inj.1 (same.trans Int64.toInt_minValue.symm))
    have least := Int64.le_toInt value
    have most := Int64.toInt_lt value
    refine decode_ofInt known named (show value.toInt.natAbs < 0x8000000000000000 from ?_)
    omega

/-- Zeros may stand in front of digits and a letter for the width behind them, and the greatest
integer is the last that is read. -/
theorem decode_decimal_sample :
    let long : Literal.Numeral := ⟨true, .decimal, "009223372036854775807".toList, some 'L',
      by decide, by decide, by simp [Literal.isWidth]⟩
    let large : Literal.Numeral := ⟨false, .decimal, "9223372036854775808".toList, none,
      by decide, by decide, by simp⟩
    let line := constLine "const-wide".toList "v0".toList
    line long = "const-wide v0, -009223372036854775807L".toList ∧
      (∃ value : Int64, decode (line long) = .const "const-wide".toList "v0".toList value ∧
        value.toInt = long.value) ∧
      decode (line (.ofInt .decimal Int64.maxValue.toInt)) =
        .const "const-wide".toList "v0".toList Int64.maxValue ∧
      decode (line large) = .other (line large) := by
  -- Each line is taken apart as it is written.
  intro long large line
  have lines := decode_decimal (show "const-wide".toList ∈ constOpcodes by decide)
    (show Register.isRegister "v0".toList by decide)
  exact ⟨by decide, (lines.1 long rfl).1 (by decide), (lines.2 Int64.maxValue).2 (by decide),
    (lines.1 large rfl).2 (by decide)⟩

/-- The least integer of 64 bits is not read from its decimal digits. -/
theorem decode_decimal_leastSample :
    let least := Literal.Numeral.ofInt .decimal (-0x8000000000000000)
    let line := constLine "const-wide".toList "v0".toList least
    line = "const-wide v0, -9223372036854775808".toList ∧ least.base = .decimal ∧
      least.value = -0x8000000000000000 ∧ decode line = .other line := by
  -- Its digits reach the bound before the sign is applied.
  intro least line
  have known : "const-wide".toList ∈ constOpcodes := by decide
  have named : Register.isRegister "v0".toList := by decide
  have written : line = "const-wide v0, -9223372036854775808".toList := by decide +kernel
  exact ⟨written, rfl, Literal.Numeral.value_ofInt _ _,
    (decode_numeral known named least).trans (if_neg (by decide +kernel))⟩

end Instruction

end Smali
