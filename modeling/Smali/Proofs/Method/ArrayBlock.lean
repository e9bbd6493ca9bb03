import Smali.Proofs.Decoding
import Smali.Proofs.Method.Assignments
import Smali.Proofs.Method.PlainBody

/-! The block that builds an array is decoded as the instructions that fill and store it. -/

namespace Smali

namespace FieldRef

/-- A field of a class is read from its reference as it is written. -/
theorem split_display {field : FieldRef} (isClass : Descriptor.isClass field.owner)
    (noArrow : ¬ arrow <:+: field.owner) (named : ∀ c ∈ field.name, isMemberChar c)
    (typed : Descriptor.splitType field.descriptor = some (field.descriptor, [])) :
    split field.display = some (field, []) := by
  -- The field is a well-formed member.
  have formed : (Reference.ofField field).WellFormed :=
    Reference.wellFormed_field named (Descriptor.isType_iff.2 typed)
  exact formed.splits_display (Descriptor.trim_class isClass) noArrow

/-- A reference to a field for an array of strings, as it may stand on a line. -/
structure HoldsStrings (field : FieldRef) : Prop where
  /-- The class is written in full. -/
  isClass : Descriptor.isClass field.owner
  /-- The first arrow is the one behind the class. -/
  noArrow : ¬ arrow <:+: field.owner
  /-- The class does not run over a line. -/
  single : '\n' ∉ field.owner
  /-- The name ends where the type begins. -/
  named : ∀ c ∈ field.name, isMemberChar c
  /-- The type is the one for arrays of strings. -/
  typed : field.descriptor = stringArray

namespace HoldsStrings

variable {field : FieldRef} (holds : HoldsStrings field)

include holds

/-- The field is read from its reference. -/
theorem split : FieldRef.split field.display = some (field, []) := by
  -- The type is read to its end.
  have typed : Descriptor.splitType field.descriptor = some (field.descriptor, []) := by
    rw [holds.typed]
    decide
  exact split_display holds.isClass holds.noArrow holds.named typed

/-- The reference begins with the mark of a class and has no blank at its end. -/
theorem trim_display : (∃ rest, field.display = 'L' :: rest) ∧
    Text.trim field.display = field.display := by
  -- It ends with the mark of the type.
  have isClass := holds.isClass
  simp only [Descriptor.isClass, Bool.and_eq_true] at isClass
  obtain ⟨rest, whole⟩ := List.isPrefixOf_iff_prefix.1 isClass.1.2
  have first : field.display = 'L' :: (rest ++ arrow ++ field.member) := by
    simp [display, ← whole]
  refine ⟨⟨_, first⟩, Text.trim_eq_self (fun c begins => ?_) fun c ends => ?_⟩
  · rw [first] at begins
    cases begins
    decide
  · have mark : stringArray = "[Ljava/lang/String".toList ++ [';'] := by decide
    have last : field.display =
        field.owner ++ arrow ++ field.name ++ ':' :: "[Ljava/lang/String".toList ++ [';'] := by
      rw [display, FieldRef.member, holds.typed, mark]
      simp only [List.append_assoc, List.cons_append]
    rw [last, List.getLast?_concat] at ends
    cases ends
    decide

/-- The reference does not run over a line. -/
theorem open_display : '\n' ∉ field.display := by
  -- A line feed is no character of a name.
  have name : '\n' ∉ field.name := fun feed => by
    have visible := (Reference.forall_isMemberChar.1 holds.named).2.2 _ feed
    exact absurd visible (by decide)
  have typing : '\n' ∉ ':' :: stringArray := by decide
  simp only [display, member, holds.typed, List.mem_append, not_or]
  exact ⟨⟨holds.single, by decide⟩, name, typing⟩

end HoldsStrings

end FieldRef

namespace Instruction

/-- The instruction is neither a blank line nor a directive. -/
def isContent : Instruction → Bool
  -- Comments and labels count.
  | blank => false
  | directive _ => false
  | _ => true

/-- A store into a static field is decoded as that. -/
theorem decode_store {indent : Text} (blank : ∀ c ∈ indent, Text.isBlank c) {field : FieldRef}
    (holds : field.HoldsStrings) :
    decode (indent ++ ("sput-object".toList ++ ' ' :: ("v0".toList ++ (", ".toList ++
      field.display)))) =
        .fieldAccess "sput-object".toList ⟨.put, true⟩ ["v0".toList] field := by
  -- No register follows the first one, because a class begins with another letter.
  obtain ⟨⟨rest, first⟩, trimmed⟩ := holds.trim_display
  have named : Register.isRegister "v0".toList := by decide
  obtain ⟨nonempty, whole⟩ := trim_operands named (by simp [first]) trimmed
  obtain ⟨taken, comma⟩ := Register.split_comma named trimmed
  have noMore : Register.splitMore (", ".toList ++ field.display) =
      ([], ", ".toList ++ field.display) := by
    rw [Register.splitMore_eq, comma, Option.bind_some, first]
    rfl
  have list : Register.splitList ("v0".toList ++ (", ".toList ++ field.display)) =
      (["v0".toList], ", ".toList ++ field.display) := by
    simp only [Register.splitList, taken, noMore]
  have kind : fieldOpcodes.lookup "sput-object".toList = some ⟨.put, true⟩ := by decide +kernel
  rw [decode_written blank (by decide) nonempty whole, ofOperands?, kind]
  simp only [ofFieldOperands?, list, comma, holds.split, Option.bind_eq_bind, Option.bind_some,
    Option.pure_def, Option.getD_some]

end Instruction

namespace Method

open Instruction

/-- The instructions of a body without blank lines and directives. -/
def contents (body : Text) : List Instruction :=
  -- No line depends on another.
  ((Text.lines body).map fun line => decode line.content).filter isContent

/-- The instructions of a body are those of its pieces. -/
theorem contents_eq (body : Text) :
    contents body = ((Text.pieces body).map decode).filter isContent := by
  -- The ending of a line does not count.
  have same : (Text.lines body).map (fun line => decode line.content) =
      (Text.lines body).map (decode ∘ Line.piece) :=
    List.map_congr_left fun line member => decode_content member
  rw [contents, same, ← List.map_map, Text.map_piece_lines]

/-- A line in front brings its instruction. -/
theorem contents_line {line : Text} (open' : '\n' ∉ line) (rest : Text) :
    contents (line ++ '\n' :: rest) = [decode line].filter isContent ++ contents rest := by
  -- The line feed keeps the line apart.
  have closed : Text.Closed (line ++ ['\n']) := List.getLast?_concat ..
  have piece := Text.pieces_of_isPiece (Text.isPiece_feed open')
  have said : decode (line ++ ['\n']) = decode line := by
    rw [← decode_trim, Text.trim_tail (by decide), decode_trim]
  rw [List.append_cons, contents_eq, Text.pieces_append (.inr closed), piece, List.map_append,
    List.filter_append, ← contents_eq, List.map_singleton, said]

/-- Raising the register count leaves the instructions as they are. -/
theorem contents_ensureRegisters (body : Text) :
    contents (ArrayBlock.ensureRegisters ArrayBlock.registerCount body) = contents body := by
  -- The line with the count is a directive before and after.
  rcases ArrayBlock.pieces_ensureRegisters body with same |
    ⟨front, piece, raised, back, directive, parts, parts', -, member, opened, said⟩
  · rw [same]
  · have silent {line : Text} (told : Text.tells directive line) :
        isContent (decode line) = false := by
      obtain ⟨text, same⟩ := ArrayBlock.decode_count member told
      rw [same]
      rfl
    have counts : Text.tells directive raised := by
      rw [Text.tells, said]
      exact Text.opens_append (by simp; decide)
    rw [contents_eq, contents_eq, parts, parts']
    simp [silent opened, silent counts]

end Method

namespace ArrayBlock

open Instruction

/-- The instructions that build an array of strings and store it in a static field. -/
def built (values : List Text) (field : FieldRef) : List Instruction :=
  -- The array is made, each element is put at its index, and the array is stored.
  .const (constOpcode values.length) "v0".toList (Int64.ofNat values.length) ::
    .other ("new-array v0, v0, ".toList ++ stringArray) ::
    (values.zipIdx.flatMap fun (value, index) =>
      [.const (constOpcode index) "v1".toList (Int64.ofNat index),
        .constString "v2".toList value, .other "aput-object v2, v0, v1".toList]) ++
    [.fieldAccess "sput-object".toList ⟨.put, true⟩ ["v0".toList] field]

section Block

variable {indent : Text} (blank : ∀ c ∈ indent, Text.isBlank c) (open' : '\n' ∉ indent)

include blank open'

/-- A line that puts a number into a register brings that instruction. -/
theorem contents_constLine {register : Text} (named : Register.isRegister register)
    (single : '\n' ∉ register) {number : Nat} (fits : number < 0x8000000000000000) (rest : Text) :
    Method.contents (constLine indent register number ++ rest) =
      .const (constOpcode number) register (Int64.ofNat number) :: Method.contents rest := by
  -- Both opcodes are read alike.
  have known : constOpcode number ∈ constOpcodes ∧ '\n' ∉ constOpcode number := by
    unfold constOpcode
    split <;> decide
  have digits := Text.open_toDigits number
  have line : constLine indent register number ++ rest = (indent ++ (constOpcode number ++ ' ' ::
      (register ++ (", ".toList ++ Text.hexadecimal number)))) ++ '\n' :: rest := by
    simp [constLine]
  have said := decode_const blank named known.1 (show number < 0x10000000000000000 by omega)
  rw [line, Method.contents_line (by simp [open', known.2, single, Text.hexadecimal, digits]),
    said]
  rfl

/-- The lines that store elements bring the instructions for each of them. -/
theorem contents_elementLines {listed : List (Text × Nat)}
    (fits : ∀ entry ∈ listed, entry.2 < 0x8000000000000000) (rest : Text) :
    Method.contents ((listed.flatMap fun (value, index) => elementLines indent index value) ++
      rest) = (listed.flatMap fun (value, index) =>
        [.const (constOpcode index) "v1".toList (Int64.ofNat index),
          .constString "v2".toList value, .other "aput-object v2, v0, v1".toList]) ++
        Method.contents rest := by
  -- An empty line sets each element apart.
  induction listed with
  | nil => rfl
  | cons entry others ih =>
    obtain ⟨value, index⟩ := entry
    -- The escaped value keeps to its line.
    have clean : '\n' ∉ Text.escape value := fun feed =>
      absurd (Text.printable_escape feed).1 (by decide)
    have split (behind : Text) : elementLines indent index value ++ behind = [] ++ '\n' ::
        (constLine indent "v1".toList index ++
          ((indent ++ ("const-string".toList ++ ' ' :: ("v2".toList ++ (", ".toList ++
            ('"' :: Text.escape value ++ ['"']))))) ++ '\n' ::
          ((indent ++ ("aput-object".toList ++ ' ' :: "v2, v0, v1".toList)) ++
            '\n' :: behind))) := by
      simp [elementLines]
    have string := decode_constString blank (show Register.isRegister "v2".toList by decide)
      (show "const-string".toList ∈ stringOpcodes by decide) value
    have store : decode (indent ++ ("aput-object".toList ++ ' ' :: "v2, v0, v1".toList)) =
        .other "aput-object v2, v0, v1".toList := by
      rw [decode_written blank (by decide) (by decide) (by decide)]
      decide +kernel
    -- The empty line holds no instruction.
    have empty : [decode []].filter isContent = [] := rfl
    rw [List.flatMap_cons, List.append_assoc, split, Method.contents_line (by simp), empty,
      List.nil_append, contents_constLine blank open' (by decide) (by decide)
        (fits (value, index) (by simp)),
      Method.contents_line (by simp [open', clean]), string,
      Method.contents_line (by simp [open']), store,
      ih fun other member => fits other (by simp [member])]
    rfl

/-- The block is decoded as the instructions that build the array. -/
theorem contents_lines {values : List Text} (fits : values.length < 0x8000000000000000)
    {field : FieldRef} (holds : field.HoldsStrings) (rest : Text) :
    Method.contents (lines indent values field.display ++ rest) =
      built values field ++ Method.contents rest := by
  -- The lines of the elements stand between those for the array itself.
  have split : lines indent values field.display ++ rest =
      constLine indent "v0".toList values.length ++
        ((indent ++ ("new-array".toList ++ ' ' :: ("v0, v0, ".toList ++ stringArray))) ++ '\n' ::
        ((values.zipIdx.flatMap fun (value, index) => elementLines indent index value) ++
        ([] ++ '\n' :: ((indent ++ ("sput-object".toList ++ ' ' :: ("v0".toList ++
          (", ".toList ++ field.display)))) ++ '\n' :: ([] ++ '\n' :: rest))))) := by
    simp [lines]
  have make : '\n' ∉ indent ++ ("new-array".toList ++ ' ' :: ("v0, v0, ".toList ++ stringArray)) ∧
      [decode (indent ++ ("new-array".toList ++ ' ' ::
        ("v0, v0, ".toList ++ stringArray)))].filter isContent =
          [.other ("new-array v0, v0, ".toList ++ stringArray)] := by
    rw [decode_written blank (by decide) (by decide) (by decide), List.mem_append, not_or]
    exact ⟨⟨open', by decide⟩, by decide +kernel⟩
  have store : [decode (indent ++ ("sput-object".toList ++ ' ' :: ("v0".toList ++
      (", ".toList ++ field.display))))].filter isContent =
        [.fieldAccess "sput-object".toList ⟨.put, true⟩ ["v0".toList] field] := by
    rw [decode_store blank holds]
    rfl
  -- No index reaches the length of the list.
  have indexed : ∀ entry ∈ values.zipIdx, entry.2 < 0x8000000000000000 := by
    rintro ⟨value, index⟩ member
    have below := List.snd_lt_of_mem_zipIdx member
    omega
  have empty : [decode []].filter isContent = [] := rfl
  rw [split, contents_constLine blank open' (by decide) (by decide) fits,
    Method.contents_line make.1, make.2, contents_elementLines blank open' indexed,
    Method.contents_line (by simp), empty,
    Method.contents_line (by simp [open', holds.open_display]), store,
    Method.contents_line (by simp), empty]
  simp only [built, List.cons_append, List.append_assoc, List.nil_append]

end Block

/-- The short form of the opcode never has a number that does not fit it. -/
theorem short_of_mem_built {values : List Text} {field : FieldRef} {register : Text}
    {value : Int64} (member : .const "const/16".toList register value ∈ built values field) :
    value.toInt ≤ 0x7fff := by
  -- Such a number gets the other opcode.
  have fits {number : Nat} (short : constOpcode number = "const/16".toList) :
      (Int64.ofNat number).toInt ≤ 0x7fff := by
    unfold constOpcode at short
    split at short
    · next small =>
      rw [Int64.toInt_ofNat_of_lt (by omega)]
      omega
    · cases short
  simp only [built, List.cons_append, List.mem_cons, List.mem_append, List.mem_flatMap,
    List.not_mem_nil, or_false, Instruction.const.injEq, reduceCtorEq, false_or] at member
  rcases member with ⟨short, -, rfl⟩ | ⟨⟨element, index⟩, -, short, -, rfl⟩
  · exact fits short.symm
  · exact fits short.symm

/-- Building an array fails exactly for a body without a return. -/
theorem inject_error_iff (body : Text) (values : List Text) (field : Text) :
    (∃ error, inject body values field = .error error) ↔
      ∀ line ∈ Text.lines body, (decode line.content).isReturn = false := by
  -- The first return is where the block goes.
  constructor
  · rintro ⟨error, failed⟩ line inside
    by_contra returns
    have stops : isNoReturn line = false := by simpa [isNoReturn] using returns
    obtain ⟨injected, done⟩ := exists_inject inside stops values field
    rw [failed] at done
    cases done
  · intro silent
    exact ⟨_, inject_refused (fun line inside => by simp [isNoReturn, silent line inside])
      values field⟩

/-- A body with an array has the instructions that build it before its first return. -/
theorem contents_inject {body injected : Text} {values : List Text} {field : FieldRef}
    (holds : field.HoldsStrings) (fits : values.length < 0x8000000000000000)
    (done : inject body values field.display = .ok injected) :
    Method.contents injected =
      (Method.contents body).takeWhile (fun instruction => !instruction.isReturn) ++
        built values field ++
        (Method.contents body).dropWhile (fun instruction => !instruction.isReturn) := by
  -- The lines before and behind the block are those of the body.
  obtain ⟨front, line, back, widened, split, returns, rfl, parts, passed⟩ := inject_ok done
  have inside : line ∈ Text.lines body := by rw [split]; simp
  have single : '\n' ∉ line.indent := fun feed =>
    Line.open_content inside ((List.takeWhile_sublist _).subset feed)
  have blank : ∀ c ∈ line.indent, Text.isBlank c := fun c => Text.isBlank_of_mem_takeWhile
  have block := contents_lines blank single fits holds []
  rw [List.append_nil, Method.contents_eq, show Method.contents [] = [] from rfl,
    List.append_nil] at block
  -- What is read from a line is read from its content.
  have said {lines : List Line} (part : lines ⊆ Text.lines body) :
      (lines.map Line.piece).map decode = lines.map fun line => decode line.content := by
    rw [List.map_map]
    exact List.map_congr_left fun line member => (decode_content (part member)).symm
  have old : Method.contents body = (front.map fun line => decode line.content).filter isContent ++
      ((line :: back).map fun line => decode line.content).filter isContent := by
    rw [Method.contents, split, List.map_append, List.filter_append]
  have new : Method.contents widened =
      (front.map fun line => decode line.content).filter isContent ++ built values field ++
        ((line :: back).map fun line => decode line.content).filter isContent := by
    rw [Method.contents_eq, parts, List.map_append, List.map_append, List.filter_append,
      List.filter_append, block, said (split ▸ List.subset_append_left ..),
      said (split ▸ List.subset_append_right ..)]
  -- Nothing before the block returns, and the first instruction behind it does.
  have early : ∀ instruction ∈ (front.map fun line => decode line.content).filter isContent,
      !instruction.isReturn := by
    intro instruction member
    obtain ⟨other, before, rfl⟩ := List.mem_map.1 (List.mem_filter.1 member).1
    exact passed other before
  have late : ∀ instruction, (((line :: back).map fun line =>
      decode line.content).filter isContent).head? = some instruction →
        (!instruction.isReturn) = false := by
    intro instruction first
    have content : isContent (decode line.content) := by
      cases decoded : decode line.content <;> simp_all [isNoReturn, isReturn, isContent]
    rw [List.map_cons, List.filter_cons_of_pos content] at first
    cases first
    exact returns
  obtain ⟨before, behind⟩ := Text.takeWhile_run early late
  rw [Method.contents_ensureRegisters, new, old, before, behind]

/-- A list of strings that is put into a body is read back from it: the instructions that build the
array stand before the first return, all numbers are held exactly and none is too large for its
opcode, and only a body without a return is refused. -/
theorem inject_reads_back (body : Text) (values : List Text)
    (fits : values.length < 0x8000000000000000) (field : FieldRef) (holds : field.HoldsStrings) :
    (∀ injected, inject body values field.display = .ok injected →
      Method.contents injected =
        (Method.contents body).takeWhile (fun instruction => !instruction.isReturn) ++
          built values field ++
          (Method.contents body).dropWhile (fun instruction => !instruction.isReturn)) ∧
    (∀ number ≤ values.length, (Int64.ofNat number).toInt = number) ∧
    (∀ register value, .const "const/16".toList register value ∈ built values field →
      value.toInt ≤ 0x7fff) ∧
    ((∃ error, inject body values field.display = .error error) ↔
      ∀ line ∈ Text.lines body, (decode line.content).isReturn = false) := by
  -- Lengths and indices fit a word with a sign.
  refine ⟨fun injected => contents_inject holds fits, fun number below => ?_,
    fun register value => short_of_mem_built, inject_error_iff body values field.display⟩
  exact Int64.toInt_ofNat_of_lt (Nat.lt_of_le_of_lt below fits)

/-- Two strings are put before the first of two returns. -/
theorem inject_reads_back_sample :
    let body := ".locals 1\n  nop\n\n  return-void\n  return-void\n".toList
    let values := ["a\"b".toList, "é".toList]
    let field : FieldRef := ⟨"La;".toList, "NAMES".toList, stringArray⟩
    ∃ injected, inject body values field.display = .ok injected ∧
      Method.contents injected = [.other "nop".toList] ++ built values field ++
        [.returns "return-void".toList none, .returns "return-void".toList none] := by
  -- The body is not refused, because it has a return.
  intro body values field
  have holds : field.HoldsStrings := ⟨by decide, by decide, by decide, by decide, rfl⟩
  obtain ⟨reads, -, -, refused⟩ := inject_reads_back body values (by decide) field holds
  cases done : inject body values field.display with
  | error error =>
    have silent := refused.1 ⟨error, done⟩
    exact absurd silent (by decide +kernel)
  | ok injected =>
    refine ⟨injected, rfl, (reads injected done).trans ?_⟩
    decide +kernel

end ArrayBlock

end Smali
