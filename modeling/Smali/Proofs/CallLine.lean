import Smali.Proofs.PutLine

/-! A call that is written on a line is decoded to its opcode, its registers and its method. -/

namespace Smali

namespace Register

/-- A text gives registers, which are none, a list or a range. -/
inductive Group : List Text → Text → Prop where
  /-- There are no registers. -/
  | nothing : Group [] []
  /-- The registers are written out with commas between them. -/
  | list {registers : List Text} {row : Text} (spelled : Spelled registers row) :
    Group registers row
  /-- The first and the last register are written with two dots between them. -/
  | range {first before after last : Text} (named : isRegister first)
    (spaces : ∀ c ∈ before, Text.isSpace c) (spaces' : ∀ c ∈ after, Text.isSpace c)
    (named' : isRegister last) :
    Group [first, last] (first ++ (before ++ ("..".toList ++ (after ++ last))))

/-- A text gives registers between braces with any spaces and tabs inside them. -/
def Braced (registers : List Text) (text : Text) : Prop :=
  -- No blanks stand outside of the braces.
  ∃ lead inside tail, (∀ c ∈ lead, Text.isSpace c) ∧ (∀ c ∈ tail, Text.isSpace c) ∧
    Group registers inside ∧ text = '\x7b' :: (lead ++ inside ++ tail ++ ['\x7d'])

/-- No range begins with a register that dots do not follow. -/
theorem splitRange_eq_none {register behind : Text} (named : isRegister register)
    (stops : ∀ c, behind.head? = some c → Text.isDigit c = false)
    (noDots : Text.afterPrefix? "..".toList (Text.skipSpaces behind) = none) :
    splitRange (register ++ behind) = none := by
  -- The register is taken, and then the dots are missed.
  simp only [splitRange, split_append named stops, noDots, Option.bind_eq_bind, Option.bind_some,
    Option.bind_none]

/-- Registers with commas between them are no range if neither a digit nor dots follow. -/
theorem Spelled.splitRange_append {registers : List Text} {row behind : Text}
    (spelled : Spelled registers row)
    (stops : ∀ c, behind.head? = some c → Text.isDigit c = false)
    (noDots : Text.afterPrefix? "..".toList (Text.skipSpaces behind) = none) :
    splitRange (row ++ behind) = none := by
  -- What follows the first register is a comma or what is behind the whole row.
  cases spelled with
  | single named => exact splitRange_eq_none named stops noDots
  | @more register comma others registers named between later =>
    rw [List.append_assoc, List.append_assoc]
    refine splitRange_eq_none named (between.not_isDigit (others ++ behind)) ?_
    obtain ⟨before, after, spaces, -, rfl⟩ := between
    rw [List.append_assoc, List.cons_append, Text.skipSpaces_mark spaces rfl]
    rfl

/-- A range is taken in front of what does not begin with a digit. -/
theorem splitRange_append {first before after last behind : Text} (named : isRegister first)
    (spaces : ∀ c ∈ before, Text.isSpace c) (spaces' : ∀ c ∈ after, Text.isSpace c)
    (named' : isRegister last) (stops : ∀ c, behind.head? = some c → Text.isDigit c = false) :
    splitRange (first ++ (before ++ ("..".toList ++ (after ++ (last ++ behind))))) =
      some ([first, last], behind) := by
  -- The dots end the first register and the spaces behind it.
  have dots (rest : Text) :
      Text.skipSpaces (before ++ ("..".toList ++ rest)) = "..".toList ++ rest :=
    Text.skipSpaces_mark spaces rfl _
  have taken (rest : Text) : split (first ++ (before ++ ("..".toList ++ rest))) =
      some (first, before ++ ("..".toList ++ rest)) :=
    split_append named (not_isDigit_of_spaces spaces (show Text.isDigit '.' = false from rfl) _)
  simp only [splitRange, taken, dots, Text.afterPrefix?_eq_some.2 rfl,
    skipSpaces_register spaces' (head?_of_isRegister named' behind), split_append named' stops,
    Option.bind_eq_bind, Option.bind_some, Option.pure_def]

/-- Registers are taken as a range or as a list in front of a closing brace. -/
theorem Group.read {registers : List Text} {inside tail : Text} (group : Group registers inside)
    (spaces : ∀ c ∈ tail, Text.isSpace c) (behind : Text) :
    ∃ kept, (∀ c ∈ kept, Text.isSpace c) ∧
      (splitRange (Text.skipSpaces (inside ++ (tail ++ '\x7d' :: behind)))).getD
          (splitList (Text.skipSpaces (inside ++ (tail ++ '\x7d' :: behind)))) =
        (registers, kept ++ '\x7d' :: behind) := by
  -- The brace is neither a digit nor a dot nor a comma.
  have stops := not_isDigit_of_spaces spaces (show Text.isDigit '\x7d' = false from rfl) behind
  have closing : Text.skipSpaces (tail ++ '\x7d' :: behind) = '\x7d' :: behind :=
    Text.skipSpaces_mark spaces rfl behind
  have atStart {text : Text}
      (letter : ∃ letter rest, (letter = 'v' ∨ letter = 'p') ∧ text = letter :: rest) :
      Text.skipSpaces text = text := skipSpaces_register (List.forall_mem_nil _) letter
  cases group with
  | nothing =>
    -- Without registers the closing brace is all that is left.
    refine ⟨[], List.forall_mem_nil _, ?_⟩
    rw [List.nil_append, closing]
    rfl
  | list spelled =>
    -- A list goes on only behind a comma, and there is none.
    have last : (skipComma (tail ++ '\x7d' :: behind)).bind split = none := by
      rw [skipComma, closing]
      rfl
    refine ⟨tail, spaces, ?_⟩
    rw [atStart (spelled.head? _), spelled.splitRange_append stops (by rw [closing]; rfl),
      Option.getD_none, (spelled.splitList_append stops last).1]
  | range named spaces' spaces'' named' =>
    -- A range is tried before a list, so that it is read as one.
    refine ⟨tail, spaces, ?_⟩
    simp only [List.append_assoc]
    rw [atStart (head?_of_isRegister named _),
      splitRange_append named spaces' spaces'' named' stops, Option.getD_some]

/-- Registers between braces are taken in their order, whatever follows. -/
theorem Braced.splitBraced_append {registers : List Text} {text : Text}
    (braced : Braced registers text) (behind : Text) :
    splitBraced (text ++ behind) = some (registers, behind) := by
  -- The spaces on both sides are skipped.
  obtain ⟨lead, inside, tail, spaces, spaces', group, rfl⟩ := braced
  obtain ⟨kept, spaces'', read⟩ := group.read spaces' behind
  have whole : '\x7b' :: (lead ++ inside ++ tail ++ ['\x7d']) ++ behind =
      '\x7b' :: (lead ++ (inside ++ (tail ++ '\x7d' :: behind))) := by
    simp only [List.cons_append, List.append_assoc, List.nil_append]
  rw [whole]
  simp only [splitBraced, Text.skipSpaces_append spaces, read,
    Text.skipSpaces_mark spaces'' (show Text.isSpace '\x7d' = false from rfl)]

end Register

namespace Reference

variable {reference : Reference} {text behind : Text}

/-- A member that is taken from a text is taken behind blanks, too. -/
theorem Splits.lead {lead : Text} (taken : reference.Splits text behind)
    (blank : ∀ c ∈ lead, Text.isBlank c) : reference.Splits (lead ++ text) behind := by
  -- The blanks are trimmed from the class, and the first arrow is the same.
  obtain ⟨front, rest, split, owner, name, typing⟩ := splits_iff.1 taken
  have noArrow := Text.not_infix_of_splitOnce (by decide) split
  refine splits_iff.2 ⟨lead ++ front, rest, ?_, ?_, name, typing⟩
  · rw [Text.eq_of_splitOnce split, List.append_assoc, ← List.append_assoc,
      ← List.append_assoc]
    exact Text.splitOnce_arrow
      (fun inside => noArrow (Text.infix_of_lead (by decide) (by decide) blank inside)) rest
  · rw [Text.trim_lead blank, owner]

/-- A member that is taken from a text has an arrow in it. -/
theorem Splits.ne_nil (taken : reference.Splits text behind) : text ≠ [] := by
  -- The arrow is not empty.
  obtain ⟨front, rest, split, -⟩ := splits_iff.1 taken
  rw [Text.eq_of_splitOnce split]
  simp [arrow]

end Reference

namespace Instruction

/-- An opcode for calls reads its operands as registers between braces and a method. -/
theorem ofOperands?_call {opcode : Text} (call : "invoke-".toList <+: opcode) (operands : Text) :
    ofOperands? opcode operands = ofInvokeOperands? opcode operands := by
  -- No opcode for fields begins so.
  have taken := List.isPrefixOf_iff_prefix.2 call
  unfold ofOperands?
  cases found : fieldOpcodes.lookup opcode with
  | none => exact if_pos taken
  | some access =>
    rw [not_isPrefixOf_of_lookup found] at taken
    cases taken

section Calls

variable {indent opcode inside separator text : Text} {registers : List Text} {method : MethodRef}
  (blank : ∀ c ∈ indent, Text.isBlank c) (call : "invoke-".toList <+: opcode)
  (solid : Text.Solid opcode) (braced : Register.Braced registers inside)
  (separates : Register.IsComma separator)

include braced separates in
/-- Registers between braces, a comma and a method behind blanks are read as operands of a call. -/
theorem ofInvokeOperands?_written (opcode : Text) {lead operand : Text}
    (blankLead : ∀ c ∈ lead, Text.isBlank c) (trimmed : Text.trim operand = operand)
    (taken : (Reference.ofMethod method).Splits operand []) :
    ofInvokeOperands? opcode (inside ++ (separator ++ (lead ++ operand))) =
      some (.invoke opcode registers method) := by
  -- Some of the blanks are skipped with the comma, and the others belong to the class.
  obtain ⟨c, rest, rfl⟩ := List.exists_cons_of_ne_nil taken.ne_nil
  obtain ⟨kept, blankKept, skipped⟩ := Text.skipSpaces_blank blankLead (c :: rest)
    fun d first => by
      cases first
      exact Text.not_isBlank_of_trim_cons trimmed
  have read : MethodRef.split (kept ++ c :: rest) = some (method, []) := taken.lead blankKept
  simp only [ofInvokeOperands?, braced.splitBraced_append,
    Register.skipComma_of_isComma separates, skipped, read, Option.bind_eq_bind, Option.bind_some,
    Option.pure_def]

include blank call solid braced separates

/-- A line with an opcode for calls, registers between braces, a comma and a method behind blanks is
decoded to the call. -/
theorem decode_operand {lead operand : Text} (blankLead : ∀ c ∈ lead, Text.isBlank c)
    (trimmed : Text.trim operand = operand)
    (taken : (Reference.ofMethod method).Splits operand []) :
    decode (indent ++ (opcode ++ ' ' :: (inside ++ (separator ++ (lead ++ operand))))) =
      .invoke opcode registers method := by
  -- The operands begin with a brace and end with the method.
  have word : isOpcode opcode := by
    obtain ⟨rest, rfl⟩ := call
    simpa [isOpcode, Text.Solid] using solid
  obtain ⟨rest, brace⟩ : ∃ rest, inside = '\x7b' :: rest := by
    obtain ⟨before, group, after, -, -, -, rfl⟩ := braced
    exact ⟨_, rfl⟩
  have ends : Text.trim (inside ++ (separator ++ (lead ++ operand))) =
      inside ++ (separator ++ (lead ++ operand)) := by
    refine Text.trim_eq_self (fun c first => ?_) fun c found => ?_
    · rw [brace] at first
      cases first
      rfl
    · obtain ⟨last, final⟩ := Option.isSome_iff_exists.1 (List.getLast?_isSome.2 taken.ne_nil)
      rw [List.getLast?_append, List.getLast?_append, List.getLast?_append, final] at found
      cases found
      exact Text.not_isBlank_of_trim trimmed final
  rw [decode_written blank word (by simp [brace]) ends, ofOperands?_call call,
    ofInvokeOperands?_written braced separates opcode blankLead trimmed taken, Option.getD_some]

/-- A line with an opcode for calls, registers between braces, a comma and the text of a method is
decoded to the call of that method with those registers, and so is the line with the method as it
is displayed. -/
theorem decode_call (read : Reference.parse text = .ok (.ofMethod method)) :
    decode (indent ++ (opcode ++ ' ' :: (inside ++ (separator ++ text)))) =
        .invoke opcode registers method ∧
      decode (indent ++ (opcode ++ ' ' :: (inside ++ (separator ++ method.display)))) =
        .invoke opcode registers method := by
  -- Every text that is read as the method will do, as the blanks behind it do not count.
  have each {text : Text} (read : Reference.parse text = .ok (.ofMethod method)) :
      decode (indent ++ (opcode ++ ' ' :: (inside ++ (separator ++ text)))) =
        .invoke opcode registers method := by
    obtain ⟨lead, tail, blankLead, blankTail, whole⟩ := Text.exists_trim text
    have line : indent ++ (opcode ++ ' ' :: (inside ++ (separator ++ text))) =
        indent ++ (opcode ++ ' ' :: (inside ++ (separator ++ (lead ++ Text.trim text)))) ++
          tail := by
      conv => lhs; rw [whole]
      simp only [List.append_assoc, List.cons_append]
    rw [line, ← decode_trim, Text.trim_tail blankTail, decode_trim]
    exact decode_operand blank call solid braced separates blankLead (Text.trim_trim text)
      (Reference.splits_of_parse read rfl)
  exact ⟨each read, each (Reference.parse_display_of_parse read)⟩

end Calls

/-- Spaces and tabs stand around a list of registers and around the dots of a range, and a blank
stands in front of an arrow. -/
theorem decode_call_sample :
    decode "\tinvoke-virtual \x7b v0 ,\tp12\x7d\t, La; ->run([[La;I)V ".toList =
        .invoke "invoke-virtual".toList ["v0".toList, "p12".toList]
          ⟨"La;".toList, "run".toList, "([[La;I)V".toList⟩ ∧
      decode "invoke-static/range \x7bv3\t.. v5\t\x7d,[I->copy()[I".toList =
        .invoke "invoke-static/range".toList ["v3".toList, "v5".toList]
          ⟨"[I".toList, "copy".toList, "()[I".toList⟩ := by
  -- Each line is taken apart as it is written.
  have list : Register.Braced ["v0".toList, "p12".toList] "\x7b v0 ,\tp12\x7d".toList :=
    ⟨[' '], "v0".toList ++ " ,\t".toList ++ "p12".toList, [], by decide, by decide,
      .list (.more (by decide) ⟨[' '], ['\t'], by decide, by decide, rfl⟩ (.single (by decide))),
      by decide⟩
  have range : Register.Braced ["v3".toList, "v5".toList] "\x7bv3\t.. v5\t\x7d".toList :=
    ⟨[], "v3".toList ++ (['\t'] ++ ("..".toList ++ ([' '] ++ "v5".toList))), ['\t'], by decide,
      by decide, .range (by decide) (by decide) (by decide) (by decide), by decide⟩
  have spaced : Register.IsComma "\t, ".toList := ⟨['\t'], [' '], by decide, by decide, rfl⟩
  have bare : Register.IsComma ",".toList := ⟨[], [], by decide, by decide, rfl⟩
  have run : Reference.parse "La; ->run([[La;I)V ".toList =
      .ok (.ofMethod ⟨"La;".toList, "run".toList, "([[La;I)V".toList⟩) := by decide +kernel
  have copy : Reference.parse "[I->copy()[I".toList =
      .ok (.ofMethod ⟨"[I".toList, "copy".toList, "()[I".toList⟩) := by decide +kernel
  exact ⟨(decode_call (show ∀ c ∈ ['\t'], Text.isBlank c by decide)
      (show _ <+: "invoke-virtual".toList by decide) (by decide) list spaced run).1,
    (decode_call (List.forall_mem_nil _)
      (show _ <+: "invoke-static/range".toList by decide) (by decide) range bare copy).1⟩

end Instruction

end Smali
