import Smali.Proofs.ClassText.Members
import Smali.Proofs.Literal
import Smali.Proofs.Method.Rewriting

/-! Changes of fields leave a body without the directives that make up a class text. -/

namespace Smali

namespace Text

/-- A first character behind blanks is the first of what a line says. -/
theorem head?_trim {lead : Text} (blank : ∀ c ∈ lead, isBlank c) {c : Char}
    (solid : isBlank c = false) (rest : Text) : (trim (lead ++ c :: rest)).head? = some c := by
  -- Trimming the end stops at that character at the latest.
  have start : trimStart (lead ++ c :: rest) = c :: rest := by
    rw [trimStart_append blank]
    simp [trimStart, solid]
  have whole := trimEnd_append_trailing (c :: rest)
  rw [trim, start]
  cases kept : trimEnd (c :: rest) with
  | nil =>
    rw [kept, List.nil_append] at whole
    have inside : c ∈ trailing (c :: rest) := by rw [whole]; simp
    rw [isBlank_of_mem_trailing inside] at solid
    cases solid
  | cons d others =>
    rw [kept, List.cons_append] at whole
    exact congrArg some (List.cons.inj whole).1

/-- A line whose first other character than a blank is another one does not say a directive. -/
theorem tells_eq_false {lead : Text} (blank : ∀ c ∈ lead, isBlank c) {c d : Char}
    (solid : isBlank c = false) (other : d ≠ c) (directive rest : Text) :
    tells (d :: directive) (lead ++ c :: rest) = false := by
  -- What the line says begins with that character.
  rw [← Bool.not_eq_true]
  intro said
  obtain ⟨behind, whole⟩ := prefix_of_opens said
  have first := head?_trim blank solid rest
  rw [← whole] at first
  exact other (Option.some.inj first)

/-- The pieces of a text that is empty or ends with a line feed are all closed. -/
theorem closed_of_mem_pieces {text piece : Text} (closed : text = [] ∨ Closed text)
    (member : piece ∈ pieces text) : Closed piece := by
  -- The last piece ends where the text does, and the others have a piece behind them.
  obtain ⟨front, back, split⟩ := List.append_of_mem member
  cases back with
  | cons next back => exact closed_of_pieces split (List.cons_ne_nil next back)
  | nil =>
    have whole := flatten_pieces text
    rw [split, List.flatten_append, List.flatten_singleton] at whole
    obtain ⟨before, last, rfl, -⟩ := isPiece_of_mem_pieces member
    rcases closed with rfl | closed
    · simp at whole
    · rw [Closed, ← whole, ← List.append_assoc, List.getLast?_concat] at closed
      rw [Closed, List.getLast?_concat]
      exact closed

/-- No digit is a line feed. -/
theorem open_toDigits (number : Nat) : '\n' ∉ Nat.toDigits 16 number := by
  -- No digit is blank.
  exact fun feed => absurd (isHexDigit_of_mem_toDigits (by decide) (by decide) feed).2 (by decide)

end Text

/-- A line that puts a number into a register begins with a letter behind the indentation. -/
theorem ArrayBlock.exists_constLine (indent : Text) {register : Text} (single : '\n' ∉ register)
    (number : Nat) :
    ∃ rest, '\n' ∉ rest ∧ constLine indent register number = indent ++ 'c' :: rest ++ ['\n'] := by
  -- Both opcodes begin with the same letter.
  have opcode : ∃ rest, constOpcode number = 'c' :: rest ∧ '\n' ∉ rest := by
    unfold constOpcode
    split
    · exact ⟨"onst/16".toList, rfl, by decide⟩
    · exact ⟨"onst".toList, rfl, by decide⟩
  obtain ⟨rest, same, clean⟩ := opcode
  have digits := Text.open_toDigits number
  exact ⟨rest ++ ' ' :: register ++ ", ".toList ++ Text.hexadecimal number,
    by simp [Text.hexadecimal, clean, single, digits], by simp [constLine, same]⟩

namespace Method

/-- The directives that a class text is made up of. -/
def structuralDirectives : List Text :=
  -- The last two begin and end a method.
  [".class".toList, ".super".toList, ".method".toList, ".end method".toList]

/-- A line that ends with a line feed and says no directive of the class text. -/
def PlainLine (piece : Text) : Prop :=
  -- It may stand in any body.
  Text.Closed piece ∧ ∀ directive ∈ structuralDirectives, Text.tells directive piece = false

/-- A body all of whose lines are plain. -/
def PlainBody (body : Text) : Prop :=
  -- The empty body has no lines.
  ∀ piece ∈ Text.pieces body, PlainLine piece

/-- A single plain line may be added to a body. -/
def Addable (piece : Text) : Prop :=
  -- Without a line feed inside it is one line.
  Text.IsPiece piece ∧ PlainLine piece

/-- An instruction on a line of its own may be added. -/
theorem addable_instruction {indent : Text} (blank : ∀ c ∈ indent, Text.isBlank c)
    (open' : '\n' ∉ indent) {c : Char} (solid : Text.isBlank c = false) (other : '.' ≠ c)
    {rest : Text} (single : '\n' ∉ rest) : Addable (indent ++ c :: rest ++ ['\n']) := by
  -- All directives begin with a dot.
  refine ⟨Text.isPiece_feed fun feed => ?_, List.getLast?_concat .., fun directive member => ?_⟩
  · rcases List.mem_append.1 feed with feed | feed
    · exact open' feed
    · rcases List.mem_cons.1 feed with rfl | feed
      · exact absurd solid (by decide)
      · exact single feed
  · rw [List.append_assoc, List.cons_append]
    simp only [structuralDirectives, List.mem_cons, List.not_mem_nil, or_false] at member
    rcases member with rfl | rfl | rfl | rfl <;> exact Text.tells_eq_false blank solid other _ _

/-- An empty line may be added. -/
theorem addable_feed : Addable ['\n'] := by
  -- It says nothing.
  exact ⟨⟨[], '\n', rfl, by simp⟩, rfl, by decide⟩

/-- Lines that may be added make up a plain body. -/
theorem plainBody_flatten {lines : List Text} (addable : ∀ line ∈ lines, Addable line) :
    PlainBody lines.flatten := by
  -- They are the pieces of what they make up.
  have parts := Text.pieces_flatten (fun line member => (addable line member).1)
    (List.pairwise_of_forall_mem_list fun line member _ _ => (addable line member).2.1)
  intro piece member
  rw [parts] at member
  exact (addable piece member).2

section Block

variable {indent : Text} (blank : ∀ c ∈ indent, Text.isBlank c) (open' : '\n' ∉ indent)

include blank open'

/-- A line that puts a number into a register may be added. -/
theorem addable_constLine {register : Text} (single : '\n' ∉ register) (number : Nat) :
    Addable (ArrayBlock.constLine indent register number) := by
  -- It is an instruction.
  obtain ⟨rest, clean, whole⟩ := ArrayBlock.exists_constLine indent single number
  rw [whole]
  exact addable_instruction blank open' (by decide) (by decide) clean

/-- The lines that store an element may be added. -/
theorem exists_elementLines (index : Nat) (value : Text) :
    ∃ lines : List Text, (∀ line ∈ lines, Addable line) ∧
      ArrayBlock.elementLines indent index value = lines.flatten := by
  -- They are an empty line and three instructions.
  refine ⟨[['\n'], ArrayBlock.constLine indent "v1".toList index,
    indent ++ 'c' :: ("onst-string v2, \"".toList ++ Text.escape value ++ ['"']) ++ ['\n'],
    indent ++ 'a' :: "put-object v2, v0, v1".toList ++ ['\n']], ?_, ?_⟩
  · intro line member
    simp only [List.mem_cons, List.not_mem_nil, or_false] at member
    rcases member with rfl | rfl | rfl | rfl
    · exact addable_feed
    · exact addable_constLine blank open' (by decide) index
    · refine addable_instruction blank open' (by decide) (by decide) ?_
      have clean : '\n' ∉ Text.escape value := fun feed =>
        absurd (Text.printable_escape feed).1 (by decide)
      simp [clean]
    · exact addable_instruction blank open' (by decide) (by decide) (by decide)
  · simp [ArrayBlock.elementLines]

/-- The block that builds an array is plain. -/
theorem plainBody_lines (values : List Text) {field : Text} (single : '\n' ∉ field) :
    PlainBody (ArrayBlock.lines indent values field) := by
  -- The lines of the elements stand between those for the array itself.
  have elements : ∀ listed : List (Text × Nat), ∃ lines : List Text,
      (∀ line ∈ lines, Addable line) ∧
      (listed.flatMap fun entry => ArrayBlock.elementLines indent entry.2 entry.1) =
        lines.flatten := by
    intro listed
    induction listed with
    | nil => exact ⟨[], by simp, rfl⟩
    | cons first rest ih =>
      obtain ⟨front, addable, same⟩ := exists_elementLines blank open' first.2 first.1
      obtain ⟨back, others, same'⟩ := ih
      refine ⟨front ++ back, fun line member => ?_, ?_⟩
      · rcases List.mem_append.1 member with member | member
        · exact addable line member
        · exact others line member
      · rw [List.flatMap_cons, List.flatten_append, ← same', ← same]
  obtain ⟨middle, addable, same⟩ := elements values.zipIdx
  -- Two lines stand before the elements and three behind them.
  have whole : ArrayBlock.lines indent values field =
      ([ArrayBlock.constLine indent "v0".toList values.length,
        indent ++ 'n' :: ("ew-array v0, v0, ".toList ++ stringArray) ++ ['\n']] ++ middle ++
        [['\n'], indent ++ 's' :: ("put-object v0, ".toList ++ field) ++ ['\n'],
          ['\n']]).flatten := by
    simp [ArrayBlock.lines, same]
  rw [whole]
  refine plainBody_flatten fun line member => ?_
  simp only [List.mem_append, List.mem_cons, List.not_mem_nil, or_false] at member
  rcases member with ((rfl | rfl) | member) | (rfl | rfl | rfl)
  · exact addable_constLine blank open' (by decide) _
  · exact addable_instruction blank open' (by decide) (by decide) (by decide)
  · exact addable line member
  · exact addable_feed
  · refine addable_instruction blank open' (by decide) (by decide) ?_
    simp [single]
  · exact addable_feed

end Block

/-- A body all of whose lines end with line feeds and say none of some directives. -/
def ClearOf (directives : List Text) (body : Text) : Prop :=
  -- A plain body is clear of all directives of a class text.
  ∀ piece ∈ Text.pieces body, Text.Closed piece ∧
    ∀ directive ∈ directives, Text.tells directive piece = false

section Clear

variable {directives : List Text} {body : Text}

/-- Removing assignments leaves a body clear of directives. -/
theorem ClearOf.withoutAssignments {field stripped : Text} (clear : ClearOf directives body)
    (removed : Method.withoutAssignments field body = some stripped) :
    ClearOf directives stripped := by
  -- The lines that are left were there before.
  obtain ⟨parts, -⟩ := withoutAssignments_some removed
  intro piece member
  rw [parts] at member
  refine clear piece ?_
  rw [← Text.map_piece_lines]
  exact List.map_subset Line.piece (List.filter_sublist.subset) member

variable (structural : directives ⊆ structuralDirectives)

include structural

/-- Raising the register count leaves a body clear of directives. -/
theorem ClearOf.ensureRegisters (clear : ClearOf directives body) :
    ClearOf directives (ArrayBlock.ensureRegisters ArrayBlock.registerCount body) := by
  -- A line that gives a count says no other directive.
  rcases ArrayBlock.pieces_ensureRegisters body with same |
    ⟨front, piece, raised, back, directive, parts, parts', closed, member, opened, said⟩
  · rw [same]
    exact clear
  · -- Only the line that gives the count has changed.
    intro line inside
    rw [parts'] at inside
    rcases List.mem_append.1 inside with inside | inside
    · exact clear line (by simp [parts, inside])
    · rcases List.mem_cons.1 inside with rfl | inside
      · refine ⟨closed (clear piece (by simp [parts])).1, fun other listed => ?_⟩
        -- The raised line gives a count by the same directive.
        have counts : Text.tells directive line := by
          rw [Text.tells, said]
          exact Text.opens_append (by simp; decide)
        refine Text.tells_other _ counts ?_
        have listed := structural listed
        simp only [structuralDirectives, ArrayBlock.countDirectives, List.mem_cons,
          List.not_mem_nil, or_false] at listed member
        rcases listed with rfl | rfl | rfl | rfl <;> rcases member with rfl | rfl <;> decide
      · exact clear line (by simp [parts, inside])

/-- Building an array leaves a body clear of directives. -/
theorem ClearOf.inject {injected field : Text} {values : List Text}
    (clear : ClearOf directives body) (single : '\n' ∉ field)
    (done : ArrayBlock.inject body values field = .ok injected) :
    ClearOf directives injected := by
  -- The block goes between lines that were there before.
  obtain ⟨front, line, back, widened, split, -, rfl, parts, -⟩ := ArrayBlock.inject_ok done
  have inside : line ∈ Text.lines body := by rw [split]; simp
  have open' : '\n' ∉ line.indent := fun feed =>
    Line.open_content inside ((List.takeWhile_sublist _).subset feed)
  have block : PlainBody (ArrayBlock.lines line.indent values field) :=
    plainBody_lines (fun c => Text.isBlank_of_mem_takeWhile) open' values single
  have before : Text.pieces body = front.map Line.piece ++ (line :: back).map Line.piece :=
    Text.pieces_of_lines split
  refine ClearOf.ensureRegisters structural fun piece member => ?_
  rw [parts] at member
  rcases List.mem_append.1 member with member | member
  · rcases List.mem_append.1 member with member | member
    · exact clear piece (by rw [before]; exact List.mem_append_left _ member)
    · exact ⟨(block piece member).1, fun directive listed =>
        (block piece member).2 directive (structural listed)⟩
  · exact clear piece (by rw [before]; exact List.mem_append_right _ member)

end Clear

/-- Removing assignments leaves a plain body plain. -/
theorem PlainBody.withoutAssignments {field body stripped : Text} (plain : PlainBody body)
    (removed : Method.withoutAssignments field body = some stripped) : PlainBody stripped :=
  -- A plain body is clear of all these directives.
  ClearOf.withoutAssignments (show ClearOf structuralDirectives body from plain) removed

/-- Building an array leaves a plain body plain. -/
theorem PlainBody.inject {body injected field : Text} {values : List Text} (plain : PlainBody body)
    (single : '\n' ∉ field) (done : ArrayBlock.inject body values field = .ok injected) :
    PlainBody injected :=
  -- A plain body is clear of all these directives.
  ClearOf.inject (List.Subset.refl _) (show ClearOf structuralDirectives body from plain) single
    done

end Method

end Smali
