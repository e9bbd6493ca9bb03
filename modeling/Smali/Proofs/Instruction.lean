import Smali.Instruction
import Smali.Proofs.Pairing
import Smali.Proofs.Reference
import Smali.Proofs.Register

/-! An instruction names a member where the opcode, the registers and the reference fit together. -/

namespace Smali

/-- The instruction is an access to a field or a call of a method that a reference names. -/
def Instruction.names (reference : Reference) : Instruction → Bool
  -- The class counts, too.
  | fieldAccess _ _ _ field => reference == .ofField field
  | invoke _ _ method => reference == .ofMethod method
  | _ => false

/-- The first word of a line. -/
def Text.opcode (line : Text) : Text :=
  -- Blanks before it do not count.
  (trim line).takeWhile fun c => !isBlank c

/-- What follows the first word of a line. -/
def Text.operands (line : Text) : Text :=
  -- Blanks behind the line do not count.
  (trim line).dropWhile fun c => !isBlank c

namespace Reference

variable {reference : Reference}

/-- The opcode is one whose operands end with a reference of the same sort. -/
def takesOpcode (opcode : Text) : Reference → Bool
  -- Classes are not looked at.
  | ofClass _ => false
  | ofField _ => (Instruction.fieldOpcodes.lookup opcode).isSome
  | ofMethod _ => "invoke-".toList.isPrefixOf opcode

/-- Takes the registers of an access or a call and the comma behind them from operands. -/
def skipRegisters (operands : Text) : Reference → Option Text
  -- Only calls have braces around the registers.
  | ofClass _ => none
  | ofField _ => Register.skipComma (Register.splitList operands).2
  | ofMethod _ => (Register.splitBraced operands).bind fun (_, rest) => Register.skipComma rest

/-- Registers are skipped alike in front of a hyphen. -/
theorem skipRegisters_hyphen (text rest : Text) :
    reference.skipRegisters (text ++ '-' :: rest) =
      (reference.skipRegisters text).map (· ++ '-' :: rest) := by
  -- All parts are read so.
  cases reference with
  | ofClass descriptor => rfl
  | ofField field =>
    simp only [skipRegisters, Register.splitList_hyphen, Register.skipComma_hyphen]
  | ofMethod method =>
    simp only [skipRegisters, Register.splitBraced_hyphen]
    cases Register.splitBraced text with
    | none => rfl
    | some parts => simp [Register.skipComma_hyphen]

/-- What is skipped is without signs. -/
theorem reaches_skipRegisters {text behind : Text}
    (skipped : reference.skipRegisters text = some behind) : Text.Reaches text behind := by
  -- The comma comes behind the registers.
  cases reference with
  | ofClass descriptor => cases skipped
  | ofField field =>
    exact (Register.reaches_splitList text).trans (Register.reaches_skipComma skipped)
  | ofMethod method =>
    obtain ⟨⟨registers, rest⟩, braced, comma⟩ := Option.bind_eq_some_iff.1 skipped
    exact (Register.reaches_splitBraced braced).trans (Register.reaches_skipComma comma)

end Reference

namespace Instruction

variable {reference : Reference}

/-- An opcode that takes fields takes no methods. -/
theorem not_isPrefixOf_of_lookup {opcode : Text} {access : FieldAccess}
    (found : fieldOpcodes.lookup opcode = some access) :
    "invoke-".toList.isPrefixOf opcode = false := by
  -- All opcodes of the list are looked at.
  have each : ∀ entry ∈ fieldOpcodes, "invoke-".toList.isPrefixOf entry.1 = false := by
    decide +kernel
  exact each (opcode, access) (List.mem_of_lookup found)

/-- Operands of a field access name the field that stands behind the registers. -/
theorem names_ofFieldOperands? (opcode : Text) (access : FieldAccess) (operands : Text) :
    (ofFieldOperands? opcode access operands).any (names reference) ↔
      (∃ field, reference = .ofField field) ∧ ∃ rest behind,
        reference.skipRegisters operands = some rest ∧ reference.Splits rest behind := by
  -- No other member is compared with the field.
  cases reference <;> simp [ofFieldOperands?, Option.any_eq_true, Option.bind_eq_some_iff, names,
    Reference.skipRegisters, Reference.Splits]

/-- Operands of a call name the method that stands behind the registers. -/
theorem names_ofInvokeOperands? (opcode operands : Text) :
    (ofInvokeOperands? opcode operands).any (names reference) ↔
      (∃ method, reference = .ofMethod method) ∧ ∃ rest behind,
        reference.skipRegisters operands = some rest ∧ reference.Splits rest behind := by
  -- No other member is compared with the method.
  cases reference with
  | ofClass descriptor =>
    simp [ofInvokeOperands?, Option.any_eq_true, Option.bind_eq_some_iff, names]
  | ofField field => simp [ofInvokeOperands?, Option.any_eq_true, Option.bind_eq_some_iff, names]
  | ofMethod method =>
    simp only [ofInvokeOperands?, Option.any_eq_true, Option.bind_eq_bind, Option.bind_eq_some_iff,
      Reference.skipRegisters, Reference.Splits, Option.pure_def, Option.some.injEq]
    constructor
    · rintro ⟨_, ⟨⟨registers, rest⟩, braced, operand, comma, ⟨other, behind⟩, split, rfl⟩, named⟩
      have same : Reference.ofMethod method = .ofMethod other := eq_of_beq named
      cases same
      exact ⟨⟨method, rfl⟩, operand, behind, ⟨⟨registers, rest⟩, braced, comma⟩, split⟩
    · rintro ⟨-, operand, behind, ⟨⟨registers, rest⟩, braced, comma⟩, split⟩
      exact ⟨_, ⟨⟨registers, rest⟩, braced, operand, comma, ⟨method, behind⟩, split, rfl⟩,
        beq_self_eq_true (Reference.ofMethod method)⟩

/-- An instruction that puts a string or an integer into a register names no member. -/
theorem not_names_of_constant (opcode : Text) {operands : Text} {instruction : Instruction}
    (read : ofStringOperands? operands = some instruction ∨
      ofConstOperands? opcode operands = some instruction) :
    instruction.names reference = false := by
  -- It has another form.
  simp only [ofStringOperands?, ofConstOperands?, Option.bind_eq_bind, Option.bind_eq_some_iff,
    Option.pure_def, Option.some.injEq] at read
  rcases read with ⟨_, _, _, _, _, _, rfl⟩ | ⟨_, _, _, _, _, _, rfl⟩ <;> rfl

/-- Operands are read to an instruction that names a member exactly if the opcode takes it and it
stands behind the registers. -/
theorem names_ofOperands? (opcode operands : Text) :
    (ofOperands? opcode operands).any (names reference) ↔
      reference.takesOpcode opcode ∧ ∃ rest behind,
        reference.skipRegisters operands = some rest ∧ reference.Splits rest behind := by
  -- The opcode decides how the operands are read.
  unfold ofOperands?
  cases found : fieldOpcodes.lookup opcode with
  | some access =>
    -- An opcode that accesses a field is no call.
    have noCall := not_isPrefixOf_of_lookup found
    rw [names_ofFieldOperands?]
    refine and_congr_left' ?_
    cases reference <;> simp only [Reference.takesOpcode, found, noCall] <;> simp
  | none =>
    dsimp only
    by_cases call : "invoke-".toList.isPrefixOf opcode
    case pos =>
      rw [if_pos call, names_ofInvokeOperands?]
      refine and_congr_left' ?_
      cases reference <;> simp only [Reference.takesOpcode, found, call] <;> simp
    case neg =>
      have other : reference.takesOpcode opcode = false := by
        cases reference with
        | ofClass descriptor => rfl
        | ofField field => simp only [Reference.takesOpcode, found, Option.isSome_none]
        | ofMethod method => simpa only [Reference.takesOpcode, Bool.not_eq_true] using call
      rw [if_neg call, other]
      refine iff_of_false (fun named => ?_) (by simp)
      -- Whatever else is read has no reference.
      obtain ⟨instruction, read, named⟩ := (Option.any_eq_true _ _).1 named
      split at read
      · rw [not_names_of_constant opcode (.inl read)] at named
        cases named
      split at read
      · rw [not_names_of_constant opcode (.inr read)] at named
        cases named
      split at read
      · obtain ⟨parts, -, rfl⟩ := Option.map_eq_some_iff.1 read
        cases named
      split at read
      · cases read
        cases named
      split at read
      · obtain ⟨parts, -, rfl⟩ := Option.map_eq_some_iff.1 read
        cases named
      · cases read

/-- The blanks around an instruction do not count. -/
theorem decode_trim (line : Text) : decode (Text.trim line) = decode line := by
  -- The decoder trims the line itself.
  rw [decode, Text.trim_trim, decode]

/-- An opcode that takes members begins with one of two letters. -/
theorem head?_of_takesOpcode {opcode : Text} (taken : reference.takesOpcode opcode) :
    opcode.head? = some 's' ∨ opcode.head? = some 'i' := by
  -- All opcodes for fields are looked at.
  cases reference with
  | ofClass descriptor => cases taken
  | ofField field =>
    have each : ∀ entry ∈ fieldOpcodes, entry.1.head? = some 's' ∨ entry.1.head? = some 'i' := by
      decide +kernel
    obtain ⟨access, found⟩ := Option.isSome_iff_exists.1 taken
    exact each (opcode, access) (List.mem_of_lookup found)
  | ofMethod method =>
    obtain ⟨rest, rfl⟩ := List.isPrefixOf_iff_prefix.1 taken
    exact .inr rfl

/-- A line whose opcode takes members is not a comment, a label or a directive. -/
theorem decode_of_takesOpcode {line : Text} (taken : reference.takesOpcode line.opcode) :
    decode line = ofOpcode (Text.trim line) := by
  -- These begin with other characters.
  have first := head?_of_takesOpcode taken
  have begins {c : Char} {rest : Text} (same : Text.trim line = c :: rest)
      (mark : c ≠ 's' ∧ c ≠ 'i') : False := by
    rw [Text.opcode, same, List.takeWhile_cons] at first
    split at first
    · simp [mark.1, mark.2] at first
    · simp at first
  unfold decode
  split
  · next nothing => simp [Text.opcode, nothing] at first
  · next rest same => exact (begins same (by decide)).elim
  · next rest same => exact (begins same (by decide)).elim
  · next rest same => exact (begins same (by decide)).elim
  · next rest same => rw [same]

/-- A line is decoded to an instruction that names a member exactly if its opcode takes it and it
stands behind the registers. -/
theorem names_decode (line : Text) : (decode line).names reference ↔
    reference.takesOpcode line.opcode ∧ ∃ rest behind,
      reference.skipRegisters (Text.trimStart line.operands) = some rest ∧
        reference.Splits rest behind := by
  -- Comments, labels and directives name nothing.
  rw [← names_ofOperands?]
  have opened : (ofOpcode (Text.trim line)).names reference ↔
      (ofOperands? line.opcode (Text.trimStart line.operands)).any (names reference) := by
    rw [ofOpcode, ← Text.opcode, ← Text.operands]
    cases ofOperands? line.opcode (Text.trimStart line.operands) <;> rfl
  by_cases taken : reference.takesOpcode line.opcode
  case pos => rw [decode_of_takesOpcode taken, opened]
  case neg =>
    have silent : ¬ (ofOperands? line.opcode (Text.trimStart line.operands)).any
        (names reference) := fun named => taken ((names_ofOperands? _ _).1 named).1
    refine iff_of_false ?_ silent
    rw [← opened] at silent
    unfold decode
    -- What is read without its opcode has no reference at all.
    split
    · simp [names]
    · simp [names]
    · simp [names]
    · simp [names]
    · next rest same => rwa [same] at silent

/-- A line names a member behind a front if the front is what stands between the opcode and the
first arrow, and the registers, the class and the token stand where they should. -/
structure NamesBehind (reference : Reference) (line front : Text) : Prop where
  /-- The opcode takes the member. -/
  opcode : reference.takesOpcode line.opcode
  /-- The class is all that stands between the registers and the arrow, and the token follows. -/
  parts : ∃ operand rest, Text.splitOnce arrow line.operands = some (front, rest) ∧
    reference.skipRegisters (Text.trimStart front) = some operand ∧
    Text.trim operand = reference.owner ∧ reference.token <+: rest

/-- Registers are skipped in front of the first arrow, which is then the first one of what is
left. -/
theorem skipRegisters_of_split (reference : Reference) {text front rest : Text}
    (split : Text.splitOnce arrow text = some (front, rest)) :
    reference.skipRegisters (Text.trimStart text) =
        (reference.skipRegisters (Text.trimStart front)).map (· ++ arrow ++ rest) ∧
      ∀ operand, reference.skipRegisters (Text.trimStart front) = some operand →
        Text.splitOnce arrow (operand ++ arrow ++ rest) = some (operand, rest) := by
  -- The arrow begins with a hyphen.
  have whole : text = front ++ '-' :: ('>' :: rest) := by
    rw [Text.eq_of_splitOnce split, List.append_assoc]
    rfl
  constructor
  · rw [whole, Text.trimStart_hyphen, Reference.skipRegisters_hyphen]
    cases reference.skipRegisters (Text.trimStart front) with
    | none => rfl
    | some operand =>
      rw [Option.map_some, Option.map_some, List.append_assoc]
      rfl
  · intro operand skipped
    obtain ⟨passed, -, same⟩ := Reference.reaches_skipRegisters skipped
    -- The arrow stands behind the registers too, where it still is the first one.
    have blanks : front.takeWhile Text.isBlank ++ (passed ++ operand) = front := by
      rw [← same]
      exact List.takeWhile_append_dropWhile
    rw [Text.eq_of_splitOnce split, ← blanks, ← List.append_assoc] at split
    have later : Text.splitOnce arrow
        ((front.takeWhile Text.isBlank ++ passed) ++ (operand ++ arrow ++ rest)) =
          some ((front.takeWhile Text.isBlank ++ passed) ++ operand, rest) := by
      simpa only [List.append_assoc] using split
    exact Text.splitOnce_suffix later

/-- A line is decoded to an instruction that names a well-formed member exactly if it names it
behind some front. -/
theorem names_decode_iff (formed : reference.WellFormed) (line : Text) :
    (decode line).names reference ↔ ∃ front, NamesBehind reference line front := by
  -- The arrow of the reference is the first one.
  rw [names_decode]
  constructor
  · rintro ⟨opcode, rest, behind, skipped, taken⟩
    obtain ⟨front, back, split, owner, token⟩ := formed.exists_splits.1 ⟨behind, taken⟩
    obtain ⟨passed, -, same⟩ := Reference.reaches_skipRegisters skipped
    -- The arrow of the operand is an arrow of the line.
    have held : arrow <:+: line.operands := by
      have inside : arrow <:+: rest := ⟨front, back, (Text.eq_of_splitOnce split).symm⟩
      have part : rest <:+ Text.trimStart line.operands := ⟨passed, same.symm⟩
      exact inside.trans (part.trans (List.dropWhile_suffix _)).isInfix
    obtain ⟨front', back', split'⟩ := Text.exists_splitOnce held
    obtain ⟨whole, first⟩ := skipRegisters_of_split reference split'
    rw [skipped, eq_comm, Option.map_eq_some_iff] at whole
    obtain ⟨operand, skipped', rfl⟩ := whole
    rw [first operand skipped', Option.some.injEq, Prod.mk.injEq] at split
    obtain ⟨rfl, rfl⟩ := split
    exact ⟨front', opcode, operand, back', split', skipped', owner, token⟩
  · rintro ⟨front, opcode, operand, rest, split, skipped, owner, token⟩
    obtain ⟨whole, first⟩ := skipRegisters_of_split reference split
    obtain ⟨behind, taken⟩ := formed.exists_splits.2
      ⟨operand, rest, first operand skipped, owner, token⟩
    exact ⟨opcode, _, behind, by rw [whole, skipped, Option.map_some], taken⟩

end Instruction

end Smali
