import Smali.Proofs.ClassText.Brackets
import Smali.Proofs.Literal

/-! It is the same whether the lines that record source line numbers are removed from a text before
it is read or from the bodies of the methods that are read. -/

namespace Smali

/-- What is said is a source line number: digits behind the directive, and maybe blanks between. -/
def Text.SaysNumber (said : Text) : Prop :=
  -- Digits have to be there, but blanks need not.
  ∃ gap digits, said = ".line".toList ++ (gap ++ digits) ∧ (∀ c ∈ gap, Text.isBlank c) ∧
    digits ≠ [] ∧ ∀ c ∈ digits, Text.isDigit c

namespace Line

/-- A line records a number exactly if it says one. -/
theorem recordsNumber_iff {line : Line} : line.recordsNumber ↔ Text.SaysNumber line.trimmed := by
  -- What is trimmed has no blanks behind the digits.
  unfold recordsNumber
  constructor
  · intro records
    split at records
    · cases records
    · next rest found =>
      simp only [Bool.and_eq_true, Bool.not_eq_true', List.isEmpty_eq_false_iff,
        List.all_eq_true] at records
      obtain ⟨gap, tail, blank, blankTail, parts⟩ := Text.exists_trim rest
      have said := Text.afterPrefix?_eq_some.1 found
      -- Blanks behind the digits would have been trimmed away.
      rcases List.eq_nil_or_concat tail with rfl | ⟨front, last, rfl⟩
      · rw [List.append_nil] at parts
        exact ⟨gap, Text.trim rest, by rw [said, ← parts], blank, records.1, records.2⟩
      · have ends : line.trimmed.getLast? = some last := by
          rw [said, parts, List.concat_eq_append, ← List.append_assoc, ← List.append_assoc,
            List.getLast?_concat]
        have solid := Text.not_isBlank_of_trim (Text.trim_trim line.content) ends
        rw [blankTail last (by simp)] at solid
        cases solid
  · intro spoken
    obtain ⟨gap, digits, said, blank, nonempty, decimal⟩ := spoken
    -- Digits are not blank, so that trimming leaves them.
    have solid : Text.Solid digits :=
      Text.solid_of_isHexDigit fun c member => Text.isHexDigit_of_isDigit (decimal c member)
    have trimmed : Text.trim (gap ++ digits) = digits := by
      rw [Text.trim_lead blank, solid.trim]
    rw [Text.afterPrefix?_eq_some.2 said]
    simp only [trimmed, Bool.and_eq_true, Bool.not_eq_true', List.isEmpty_eq_false_iff,
      List.all_eq_true]
    exact ⟨nonempty, decimal⟩

/-- A line that records a number opens with no other directive. -/
theorem opensWith_of_recordsNumber {directive : Text} (solid : Text.endsSolid directive)
    (apart : (".line".toList.isPrefixOf directive || directive.isPrefixOf ".line".toList) = false)
    {line : Line} (records : line.recordsNumber) : line.opensWith directive = false := by
  -- Both would be beginnings of what the line says.
  obtain ⟨gap, digits, said, -⟩ := recordsNumber_iff.1 records
  rw [opensWith_eq_opens directive solid, ← Bool.not_eq_true]
  intro opened
  have number : ".line".toList <+: line.trimmed := ⟨_, said.symm⟩
  rw [Bool.or_eq_false_iff, ← Bool.not_eq_true, ← Bool.not_eq_true, List.isPrefixOf_iff_prefix,
    List.isPrefixOf_iff_prefix] at apart
  exact (List.prefix_or_prefix_of_prefix number (Text.prefix_of_opens opened)).elim apart.1 apart.2

/-- A bracket records no number. -/
theorem isBracket_of_recordsNumber {line : Line} (records : line.recordsNumber) :
    line.isBracket = false := by
  -- It opens with neither directive.
  rw [isBracket, opensWith_of_recordsNumber (by decide) (by decide) records,
    opensWith_of_recordsNumber (by decide) (by decide) records]
  rfl

namespace Moved

variable {line moved : Line} (same : line.Moved moved)

include same

/-- The line stands elsewhere the other way round. -/
theorem symm : moved.Moved line :=
  -- Both are the same apart from the place.
  ⟨same.content.symm, same.piece.symm⟩

/-- A line opens with the same directives wherever it stands. -/
theorem opensWith (directive : Text) : moved.opensWith directive = line.opensWith directive := by
  -- Only the content is looked at.
  rw [Line.opensWith, Line.opensWith, same.content]

/-- A line is a bracket wherever it stands. -/
theorem isBracket : moved.isBracket = line.isBracket := by
  -- It opens with the same directives.
  rw [Line.isBracket, Line.isBracket, same.opensWith, same.opensWith]

/-- A line records a number wherever it stands. -/
theorem recordsNumber : moved.recordsNumber = line.recordsNumber := by
  -- Only the content is looked at.
  rw [Line.recordsNumber, Line.recordsNumber, Line.trimmed, Line.trimmed, same.content]

omit same in
/-- A test that goes by what lines say lets the same lines pass wherever they stand. -/
theorem filter {lines others : List Line} (related : List.Forall₂ Line.Moved lines others)
    (test : Line → Bool) (agree : ∀ line moved, Line.Moved line moved → test moved = test line) :
    List.Forall₂ Line.Moved (lines.filter test) (others.filter test) :=
  -- The lines are taken one by one.
  List.rel_filter (fun line moved same => Bool.eq_iff_iff.1 (agree line moved same).symm) related

omit same in
/-- Lines make up the same text wherever they stand. -/
theorem flatMap_piece {lines others : List Line} (related : List.Forall₂ Line.Moved lines others) :
    others.flatMap Line.piece = lines.flatMap Line.piece := by
  -- They have the same pieces.
  rw [List.flatMap_def, List.flatMap_def]
  exact congrArg List.flatten
    (related.map_eq Line.piece Line.piece fun line _ moved _ same => same.piece.symm).symm

end Moved

end Line

namespace Text

/-- The lines that are kept where line numbers are removed. -/
def keptLines (lines : List Line) : List Line :=
  -- The others record a number.
  lines.filter fun line => !line.recordsNumber

/-- Exactly the lines that say no number are kept. -/
theorem mem_keptLines {lines : List Line} {line : Line} :
    line ∈ keptLines lines ↔ line ∈ lines ∧ ¬ SaysNumber line.trimmed := by
  -- A line that says a number records it.
  rw [keptLines, List.mem_filter, ← Line.recordsNumber_iff]
  simp

/-- Where no line with a number passes a test, all that pass it are kept. -/
theorem filter_keptLines {test : Line → Bool}
    (other : ∀ line : Line, line.recordsNumber → test line = false) (lines : List Line) :
    (keptLines lines).filter test = lines.filter test := by
  -- The other lines do not pass anyway.
  rw [keptLines, List.filter_filter]
  refine List.filter_congr fun line _ => ?_
  by_cases records : line.recordsNumber
  · rw [other line records, Bool.false_and]
  · simp [records]

/-- The lines that are kept of some lines of a text are what is kept of what these make up. -/
theorem withoutLineNumbers_of_sublist {text : Text} {part : List Line}
    (chosen : part.Sublist (lines text)) :
    withoutLineNumbers (part.flatMap Line.piece) = (keptLines part).flatMap Line.piece := by
  -- The lines of what they make up record the same numbers.
  have kept : List.Forall₂ Line.Moved (keptLines part)
      (keptLines (lines (part.flatMap Line.piece))) :=
    Line.Moved.filter (lines_of_sublist chosen) _ fun line moved same => by
      rw [same.recordsNumber]
  exact Line.Moved.flatMap_piece kept

section Kept

variable (text : Text)

/-- The lines that are kept are some of the lines. -/
theorem keptLines_sublist : (keptLines (lines text)).Sublist (lines text) :=
  -- The others are left out.
  List.filter_sublist

/-- The lines that are kept of a text are the lines of what they make up. -/
theorem lines_withoutLineNumbers :
    List.Forall₂ Line.Moved (keptLines (lines text)) (lines (withoutLineNumbers text)) :=
  -- They are some of the lines of the text.
  lines_of_sublist (keptLines_sublist text)

/-- Nothing is removed a second time. -/
theorem withoutLineNumbers_idem :
    withoutLineNumbers (withoutLineNumbers text) = withoutLineNumbers text := by
  -- All the lines that are left are kept.
  refine (withoutLineNumbers_of_sublist (keptLines_sublist text)).trans ?_
  rw [keptLines, keptLines, List.filter_filter]
  simp only [Bool.and_self]
  rfl

/-- Nothing is removed exactly if no line says a number. -/
theorem withoutLineNumbers_eq_self_iff :
    withoutLineNumbers text = text ↔ ∀ line ∈ lines text, ¬ SaysNumber line.trimmed := by
  -- A text that stays as it is has as many lines as before.
  constructor
  · intro same line member
    have related := lines_withoutLineNumbers text
    rw [same] at related
    rw [← (keptLines_sublist text).eq_of_length related.length_eq] at member
    exact (mem_keptLines.1 member).2
  · intro silent
    have whole : keptLines (lines text) = lines text :=
      List.filter_eq_self.2 fun line member => by
        rw [Bool.not_eq_true', ← Bool.not_eq_true, Line.recordsNumber_iff]
        exact silent line member
    show (keptLines (lines text)).flatMap Line.piece = text
    rw [whole, List.flatMap_def, map_piece_lines, flatten_pieces]

/-- The first line with another directive stays the first. -/
theorem find_withoutLineNumbers {directive : Text} (solid : endsSolid directive)
    (apart : (".line".toList.isPrefixOf directive ||
      directive.isPrefixOf ".line".toList) = false) :
    Option.Rel Line.Moved ((lines text).find? fun line => line.opensWith directive)
      ((lines (withoutLineNumbers text)).find? fun line => line.opensWith directive) := by
  -- It is one of those that are kept.
  have first := (lines_withoutLineNumbers text).find? (fun line => line.opensWith directive)
    (fun line => line.opensWith directive) fun line moved same => (same.opensWith directive).symm
  rwa [← List.head?_filter, filter_keptLines fun line =>
    Line.opensWith_of_recordsNumber solid apart, List.head?_filter] at first

end Kept

end Text

namespace ClassText

open Text (keptLines filter_keptLines withoutLineNumbers lines_withoutLineNumbers
  find_withoutLineNumbers)

/-- Lines open and close methods in turn wherever they stand. -/
theorem Alternates.moved {lines lines' : List Line} (alternates : Alternates lines)
    (related : List.Forall₂ Line.Moved lines lines') : Alternates lines' := by
  -- They are taken in pairs.
  induction alternates generalizing lines' with
  | done =>
    cases related
    exact .done
  | pair opened closed _ ih =>
    cases related with
    | cons first others =>
      cases others with
      | cons second behind =>
        exact .pair ((first.opensWith _).trans opened) ((second.opensWith _).trans closed)
          (ih behind)

/-- A text is well bracketed if its headers are read, its brackets take turns and those of them that
open a method can be read. -/
theorem wellBracketed_iff {text : Text} : WellBracketed text ↔
    (∃ header, readHeader (Text.lines text) = .ok header) ∧
      (∃ owner superclass, readSuper owner (Text.lines text) = .ok superclass) ∧
      Alternates ((Text.lines text).filter Line.isBracket) ∧
      ∀ line ∈ (Text.lines text).filter Line.isBracket, line.opensWith ".method".toList →
        ∃ owner body method, Method.parse owner line.content body = .ok method := by
  -- A line that opens a method is a bracket.
  simp only [readHeader_eq_ok, readSuper_eq_ok]
  constructor
  · intro bracketed
    obtain ⟨⟨line, header, named⟩, ⟨line', superclass, extended⟩, alternates, headers⟩ := bracketed
    exact ⟨⟨header, line, named⟩, ⟨[], superclass, line', extended⟩, alternates,
      fun line member => headers line (List.mem_of_mem_filter member)⟩
  · intro conditions
    obtain ⟨⟨header, line, named⟩, ⟨-, superclass, line', extended⟩, alternates, headers⟩ :=
      conditions
    exact ⟨⟨line, header, named⟩, ⟨line', superclass, extended⟩, alternates,
      fun line member opened => headers line
        (List.mem_filter.2 ⟨member, Bool.or_eq_true_iff.2 (.inl opened)⟩) opened⟩

/-- The block without the lines of its body that record numbers. -/
def Block.withoutNumbers (block : Block) : Block :=
  -- The header and the terminator stay.
  { block with inside := keptLines block.inside }

/-- Blocks whose lines stand elsewhere have the same body. -/
theorem Block.Related.body {block block' : Block} (related : block.Related Line.Moved block') :
    block'.body = block.body :=
  -- The lines of the body make it up.
  Line.Moved.flatMap_piece related.inside

/-- The lines that are kept of parted lines are parted into what is kept of the parts. -/
theorem Parted.withoutNumbers {lines others : List Line} {blocks : List Block}
    (parted : Parted lines others blocks) :
    Parted (keptLines lines) (keptLines others) (blocks.map Block.withoutNumbers) := by
  -- Headers and terminators are kept.
  have kept {line : Line} (bracket : line.isBracket) : (!line.recordsNumber) = true := by
    rw [Bool.not_eq_true', ← Bool.not_eq_true]
    intro records
    rw [Line.isBracket_of_recordsNumber records] at bracket
    cases bracket
  induction parted with
  | done => exact .done
  | @outside line rest others blocks noBracket _ ih =>
    unfold keptLines at ih ⊢
    by_cases records : line.recordsNumber
    · -- A line that records a number goes from the text and from the lines outside.
      rw [List.filter_cons_of_neg (by simp [records]), List.filter_cons_of_neg (by simp [records])]
      exact ih
    · rw [List.filter_cons_of_pos (by simp [records]), List.filter_cons_of_pos (by simp [records])]
      exact .outside noBracket ih
  | @block header terminator inside rest others blocks opened between closed _ ih =>
    -- A block keeps its ends and loses lines between them alone.
    have first := kept (Bool.or_eq_true_iff.2 (.inl opened))
    have last := kept (Bool.or_eq_true_iff.2 (.inr closed))
    unfold keptLines at ih ⊢
    rw [List.filter_cons_of_pos (by exact first), List.filter_append,
      List.filter_cons_of_pos (by exact last)]
    exact .block opened (fun line member => between line (List.mem_of_mem_filter member)) closed ih

section Removal

variable (text : Text)

/-- The class header is read as before. -/
theorem readHeader_withoutLineNumbers :
    readHeader (Text.lines (withoutLineNumbers text)) = readHeader (Text.lines text) := by
  -- It is read from the same line.
  have first := find_withoutLineNumbers text
    (show Text.endsSolid ".class".toList by decide) (by decide)
  unfold readHeader
  generalize (Text.lines text).find? _ = line at first ⊢
  generalize (Text.lines (withoutLineNumbers text)).find? _ = moved at first ⊢
  cases first with
  | none => rfl
  | some same => simp only [same.content]

/-- The superclass is read as before. -/
theorem readSuper_withoutLineNumbers (owner : Text) :
    readSuper owner (Text.lines (withoutLineNumbers text)) =
      readSuper owner (Text.lines text) := by
  -- It is read from the same line.
  have first := find_withoutLineNumbers text
    (show Text.endsSolid ".super".toList by decide) (by decide)
  unfold readSuper
  generalize (Text.lines text).find? _ = line at first ⊢
  generalize (Text.lines (withoutLineNumbers text)).find? _ = moved at first ⊢
  cases first with
  | none => rfl
  | some same => simp only [same.content]

/-- The brackets are those of before. -/
theorem brackets_withoutLineNumbers :
    List.Forall₂ Line.Moved ((Text.lines text).filter Line.isBracket)
      ((Text.lines (withoutLineNumbers text)).filter Line.isBracket) := by
  -- No bracket is removed.
  have moved : List.Forall₂ Line.Moved ((keptLines (Text.lines text)).filter Line.isBracket)
      ((Text.lines (withoutLineNumbers text)).filter Line.isBracket) :=
    Line.Moved.filter (lines_withoutLineNumbers text) _ fun line moved same => same.isBracket
  rwa [filter_keptLines fun line => Line.isBracket_of_recordsNumber] at moved

/-- A text is well bracketed exactly if it is so without line numbers. -/
theorem wellBracketed_withoutLineNumbers :
    WellBracketed (withoutLineNumbers text) ↔ WellBracketed text := by
  -- The same lines name the class and the superclass, and the same lines are brackets.
  have brackets := brackets_withoutLineNumbers text
  rw [wellBracketed_iff, wellBracketed_iff, readHeader_withoutLineNumbers]
  simp only [readSuper_withoutLineNumbers]
  refine and_congr_right fun _ => and_congr_right fun _ => and_congr ?_ ?_
  · exact ⟨fun alternates => alternates.moved (brackets.flip.imp fun _ _ same => same.symm),
      fun alternates => alternates.moved brackets⟩
  · constructor
    · intro headers line member opened
      obtain ⟨moved, member', same⟩ := List.exists_of_mem_left brackets member
      rw [← same.opensWith] at opened
      rw [← same.content]
      exact headers moved member' opened
    · intro headers moved member opened
      obtain ⟨line, member', same⟩ := List.exists_of_mem_right brackets member
      rw [same.opensWith] at opened
      rw [same.content]
      exact headers line member' opened

end Removal

/-- A class text declares the same as another one without its line numbers. -/
structure Numberless (plain numberless : ClassText) : Prop where
  /-- The line numbers are removed from the text. -/
  text : numberless.text = withoutLineNumbers plain.text
  /-- The class is the same. -/
  descriptor : numberless.descriptor = plain.descriptor
  /-- The modifiers are the same. -/
  modifiers : numberless.modifiers = plain.modifiers
  /-- The superclass is the same. -/
  superclass : numberless.superclass = plain.superclass
  /-- The fields are the same. -/
  fields : numberless.fields = plain.fields
  /-- The methods are the same, but the line numbers are removed from their bodies. -/
  methods : numberless.methods =
    plain.methods.map fun method => { method with body := withoutLineNumbers method.body }
  /-- The same lines are reported for the same reasons. -/
  diagnostics : (numberless.diagnostics.map fun diagnostic => (diagnostic.text, diagnostic.error)) =
    plain.diagnostics.map fun diagnostic => (diagnostic.text, diagnostic.error)

/-- What becomes of a line, wherever it stands. -/
def unplaced : Field ⊕ Diagnostic → Field ⊕ (Text × Error) :=
  -- Only diagnostics tell the place.
  Sum.map id fun diagnostic => (diagnostic.text, diagnostic.error)

/-- The fields that are read do not tell a place. -/
theorem filterMap_getLeft_unplaced (verdicts : List (Field ⊕ Diagnostic)) :
    (verdicts.map unplaced).filterMap Sum.getLeft? = verdicts.filterMap Sum.getLeft? := by
  -- Fields are left as they are.
  rw [List.filterMap_map]
  refine List.filterMap_congr fun verdict _ => ?_
  cases verdict <;> rfl

/-- The diagnostics lose their place. -/
theorem filterMap_getRight_unplaced (verdicts : List (Field ⊕ Diagnostic)) :
    (verdicts.map unplaced).filterMap Sum.getRight? =
      (verdicts.filterMap Sum.getRight?).map fun diagnostic =>
        (diagnostic.text, diagnostic.error) := by
  -- The line and the reason are taken from each of them.
  rw [List.filterMap_map, List.map_filterMap]
  refine List.filterMap_congr fun verdict _ => ?_
  cases verdict <;> rfl

/-- The same becomes of lines that stand elsewhere, and nothing of lines that record numbers. -/
theorem verdicts_moved (owner : Text) {others others' : List Line}
    (moved : List.Forall₂ Line.Moved (keptLines others) others') :
    (verdicts owner others').map unplaced = (verdicts owner others).map unplaced := by
  -- The lines that declare fields are all kept.
  have declared := Line.Moved.filter moved (fun line => line.opensWith ".field".toList)
    fun line moved same => same.opensWith _
  rw [filter_keptLines fun line =>
    Line.opensWith_of_recordsNumber (by decide) (by decide)] at declared
  rw [verdicts, verdicts, List.map_map, List.map_map, eq_comm]
  refine declared.map_eq _ _ fun line _ moved _ same => ?_
  rw [Function.comp_apply, Function.comp_apply, verdict, verdict, same.content, Line.trimmed,
    Line.trimmed, same.content]
  cases Field.parse owner line.content <;> rfl

/-- The methods of blocks that are moved without line numbers are those of the blocks, without line
numbers in their bodies. -/
theorem methods_moved {text owner : Text} {others : List Line} {blocks blocks' : List Block}
    (parted : Parted (Text.lines text) others blocks)
    (moved : List.Forall₂ (Block.Related Line.Moved) (blocks.map Block.withoutNumbers) blocks')
    {methods methods' : List Method} (declared : List.Forall₂ (Block.Declares owner) blocks methods)
    (declared' : List.Forall₂ (Block.Declares owner) blocks' methods') :
    methods' = methods.map fun method =>
      { method with body := withoutLineNumbers method.body } := by
  -- Each block has the same header and a body without line numbers.
  have same : List.Forall₂ (fun block block' : Block =>
      block'.header.content = block.header.content ∧
        block'.body = withoutLineNumbers block.body) blocks blocks' := by
    rw [List.forall₂_map_left_iff] at moved
    refine moved.imp_mem fun block member block' _ related => ⟨related.header.content, ?_⟩
    rw [related.body]
    exact (Text.withoutLineNumbers_of_sublist (parted.inside_sublist member)).symm
  -- A header is read in the same way whatever the body is.
  have declares : List.Forall₂ (fun method block' => Block.Declares owner block'
      { method with body := withoutLineNumbers method.body }) methods blocks' := by
    refine declared.flip.trans_of (fun method block block' read both => ?_) same
    obtain ⟨-, -, -, body, -, elsewhere⟩ := Method.exists_of_parse read
    rw [Block.Declares, both.1, both.2, body]
    exact elsewhere _
  -- What is read of the same block is the same method.
  have pairs : List.Forall₂ (fun method method' =>
      { method with body := withoutLineNumbers method.body } = method') methods methods' :=
    declares.trans_of (fun method block' method' read read' =>
      Except.ok.inj (read.symm.trans read')) declared'
  rw [← List.forall₂_eq_eq_eq, List.forall₂_map_right_iff]
  exact pairs.flip.imp fun _ _ here => here.symm

/-- A text and the text without line numbers declare the same apart from these. -/
theorem numberless_of_parse {text : Text} {plain numberless : ClassText}
    (done : parse text = .ok plain) (done' : parse (withoutLineNumbers text) = .ok numberless) :
    Numberless plain numberless := by
  -- The lines are parted alike.
  obtain ⟨header, superclass, reading, named, extended, read, rfl⟩ := parse_eq_ok.1 done
  obtain ⟨header', superclass', reading', named', extended', read', rfl⟩ := parse_eq_ok.1 done'
  rw [readHeader_withoutLineNumbers, named, Except.ok.injEq] at named'
  subst named'
  rw [readSuper_withoutLineNumbers, extended, Except.ok.injEq] at extended'
  subst extended'
  obtain ⟨others, blocks, methods, parted, declared, rfl⟩ := readMembers_iff.1 read
  obtain ⟨others', blocks', methods', parted', declared', rfl⟩ := readMembers_iff.1 read'
  obtain ⟨outside, inside⟩ := parted.withoutNumbers.forall₂
    (fun line moved same => same.isBracket.symm) (Text.lines_withoutLineNumbers text) parted'
  have told := verdicts_moved header.descriptor outside
  refine ⟨rfl, rfl, rfl, rfl, ?_, ?_, ?_⟩
  · simp only [Reading.after, List.append_nil, List.reverse_reverse]
    rw [← filterMap_getLeft_unplaced, told, filterMap_getLeft_unplaced]
  · simp only [Reading.after, List.append_nil, List.reverse_reverse]
    exact methods_moved parted inside declared declared'
  · simp only [Reading.after, List.append_nil, List.reverse_reverse]
    rw [← filterMap_getRight_unplaced, told, filterMap_getRight_unplaced]

end ClassText

/-- Removing the line numbers before a text is read changes neither whether it is read nor what it
declares, apart from the line numbers in the bodies; it removes exactly the lines that say a number,
and nothing when it is done again. -/
theorem Document.parse_withoutLineNumbers (text : Text) :
    ((∃ numberless, Document.parse ⟨true⟩ text = .ok numberless) ↔
        ∃ plain, Document.parse {} text = .ok plain) ∧
      (∀ plain numberless, Document.parse {} text = .ok plain →
        Document.parse ⟨true⟩ text = .ok numberless →
          plain.text = text ∧ plain.toClassText.Numberless numberless.toClassText) ∧
      (∃ kept : List Line, kept.Sublist (Text.lines text) ∧
        (∀ line ∈ Text.lines text, line ∈ kept ↔ ¬ Text.SaysNumber line.trimmed) ∧
        Text.withoutLineNumbers text = kept.flatMap Line.piece) ∧
      Text.withoutLineNumbers (Text.withoutLineNumbers text) = Text.withoutLineNumbers text := by
  -- The text without line numbers is read like any other text.
  have read {document : Document} : Document.parse {} text = .ok document ↔
      ∃ source, ClassText.parse text = .ok source ∧ Document.ofClassText source = document := by
    simp only [Document.parse, Bool.false_eq_true, if_false, bind_eq_ok, pure_eq_ok]
  have read' {document : Document} : Document.parse ⟨true⟩ text = .ok document ↔
      ∃ source, ClassText.parse (Text.withoutLineNumbers text) = .ok source ∧
        Document.ofClassText source = document := by
    simp only [Document.parse, if_true, bind_eq_ok, pure_eq_ok]
  refine ⟨⟨fun done => ?_, fun done => ?_⟩, fun plain numberless done done' => ?_,
    ⟨Text.keptLines (Text.lines text), Text.keptLines_sublist text, fun line member => ?_, rfl⟩,
    Text.withoutLineNumbers_idem text⟩
  · obtain ⟨numberless, done⟩ := done
    obtain ⟨source, parsed, -⟩ := read'.1 done
    have bracketed := ClassText.wellBracketed_of_parse parsed
    -- Whether a text is well bracketed does not hang on its line numbers.
    rw [ClassText.wellBracketed_withoutLineNumbers] at bracketed
    obtain ⟨plain, parsed⟩ := bracketed.exists_parse
    exact ⟨_, read.2 ⟨plain, parsed, rfl⟩⟩
  · obtain ⟨plain, done⟩ := done
    obtain ⟨source, parsed, -⟩ := read.1 done
    have bracketed := ClassText.wellBracketed_of_parse parsed
    rw [← ClassText.wellBracketed_withoutLineNumbers] at bracketed
    obtain ⟨numberless, parsed⟩ := bracketed.exists_parse
    exact ⟨_, read'.2 ⟨numberless, parsed, rfl⟩⟩
  · obtain ⟨source, parsed, rfl⟩ := read.1 done
    obtain ⟨source', parsed', rfl⟩ := read'.1 done'
    exact ⟨ClassText.text_of_parse parsed, ClassText.numberless_of_parse parsed parsed'⟩
  · rw [Text.mem_keptLines, and_iff_right member]

/-- A class with line numbers at both ends and at both ends of a body. -/
def numberedSample : Text :=
  -- Not all lines end in the same way, and the last one has no ending.
  ".line 1\r\n.class LA;\n.super Lo;\n.field b\n".toList ++
    ".method m()V\n.line 7\n    nop\r\n.line8\r\n.end method\n  .line\t9".toList

/-- The sample is read in both ways, and only the place of a report differs beside the line
numbers. -/
theorem Document.parse_numberedSample : ∃ plain numberless,
    Document.parse {} numberedSample = .ok plain ∧
      Document.parse ⟨true⟩ numberedSample = .ok numberless ∧
      plain.methods.map Method.body = [".line 7\n    nop\r\n.line8\r\n".toList] ∧
      plain.diagnostics.map Diagnostic.line = [4] ∧
      numberless.methods.map Method.body = ["    nop\r\n".toList] ∧
      numberless.diagnostics.map Diagnostic.line = [3] ∧
      plain.text = numberedSample ∧ plain.toClassText.Numberless numberless.toClassText := by
  -- Both readings are evaluated.
  have run : (Document.parse {} numberedSample).map (fun document =>
      (document.methods.map Method.body, document.diagnostics.map Diagnostic.line)) =
      .ok ([".line 7\n    nop\r\n.line8\r\n".toList], [4]) := by
    decide +kernel
  have run' : (Document.parse ⟨true⟩ numberedSample).map (fun document =>
      (document.methods.map Method.body, document.diagnostics.map Diagnostic.line)) =
      .ok (["    nop\r\n".toList], [3]) := by
    decide +kernel
  cases done : Document.parse {} numberedSample with
  | error error =>
    rw [done] at run
    cases run
  | ok plain =>
    cases done' : Document.parse ⟨true⟩ numberedSample with
    | error error =>
      rw [done'] at run'
      cases run'
    | ok numberless =>
      rw [done] at run
      rw [done'] at run'
      obtain ⟨bodies, places⟩ := Prod.mk.inj (Except.ok.inj run)
      obtain ⟨bodies', places'⟩ := Prod.mk.inj (Except.ok.inj run')
      exact ⟨plain, numberless, rfl, rfl, bodies, places, bodies', places',
        (Document.parse_withoutLineNumbers numberedSample).2.1 plain numberless done done'⟩

end Smali
