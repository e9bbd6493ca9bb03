import Smali.Document
import Smali.Proofs.ClassText.Location
import Smali.Proofs.ClassText.Members
import Smali.Proofs.Method.Header
import Smali.Proofs.Pairing

/-! A text is read exactly if its headers read and its methods are opened and closed in turn, and
then no declaration in it is lost. -/

namespace Smali

/-- The line opens or closes a method. -/
def Line.isBracket (line : Line) : Bool :=
  -- No line does both.
  line.opensWith ".method".toList || line.opensWith ".end method".toList

/-- A line that neither opens nor closes a method is no bracket. -/
theorem Line.isBracket_eq_false {line : Line} (opens : ¬ line.opensWith ".method".toList)
    (closes : ¬ line.opensWith ".end method".toList) : line.isBracket = false := by
  -- There is no other kind of bracket.
  rw [isBracket, Bool.or_eq_false_iff]
  exact ⟨by simpa using opens, by simpa using closes⟩

namespace ClassText

/-- The lines of a method. -/
structure Block where
  /-- The line that opens the method. -/
  header : Line
  /-- The lines of the body. -/
  inside : List Line
  /-- The line that closes the method. -/
  terminator : Line

/-- The text between the header and the terminator. -/
def Block.body (block : Block) : Text :=
  -- The lines of the body bring their line breaks.
  block.inside.flatMap Line.piece

/-- Lines are parted into those outside all methods and the blocks of the methods. -/
inductive Parted : List Line → List Line → List Block → Prop where
  /-- Without lines there are no parts. -/
  | done : Parted [] [] []
  /-- A line may stand outside. -/
  | outside {line : Line} {rest others : List Line} {blocks : List Block}
      (noBracket : line.isBracket = false) (behind : Parted rest others blocks) :
      Parted (line :: rest) (line :: others) blocks
  /-- A header opens a block that goes up to the next terminator, without another header. -/
  | block {header terminator : Line} {inside rest others : List Line} {blocks : List Block}
      (opened : header.opensWith ".method".toList)
      (between : ∀ line ∈ inside, line.isBracket = false)
      (closed : terminator.opensWith ".end method".toList) (behind : Parted rest others blocks) :
      Parted (header :: (inside ++ terminator :: rest)) others
        (⟨header, inside, terminator⟩ :: blocks)

/-- Lines open and close a method in turn. -/
inductive Alternates : List Line → Prop where
  /-- Nothing is opened. -/
  | done : Alternates []
  /-- What is opened is closed before something else is opened. -/
  | pair {header terminator : Line} {rest : List Line}
      (opened : header.opensWith ".method".toList)
      (closed : terminator.opensWith ".end method".toList) (behind : Alternates rest) :
      Alternates (header :: terminator :: rest)

/-- The brackets of parted lines are the headers and terminators of the blocks in order. -/
theorem Parted.brackets {lines others : List Line} {blocks : List Block}
    (parted : Parted lines others blocks) : lines.filter Line.isBracket =
      blocks.flatMap fun block => [block.header, block.terminator] := by
  -- Neither the lines outside nor those of the bodies are brackets.
  induction parted with
  | done => rfl
  | outside noBracket _ ih => rw [List.filter_cons_of_neg (by simp [noBracket]), ih]
  | @block header terminator inside _ _ _ opened between closed _ ih =>
    have none' : inside.filter Line.isBracket = [] :=
      List.filter_eq_nil_iff.2 fun line member => by simp [between line member]
    have first : header.isBracket := Bool.or_eq_true_iff.2 (.inl opened)
    have last : terminator.isBracket := Bool.or_eq_true_iff.2 (.inr closed)
    rw [List.filter_cons_of_pos first, List.filter_append, none', List.nil_append,
      List.filter_cons_of_pos last, ih]
    rfl

/-- Blocks are related if their lines are. -/
structure Block.Related (relates : Line → Line → Prop) (block block' : Block) : Prop where
  /-- The headers are related. -/
  header : relates block.header block'.header
  /-- The lines of the bodies are related in order. -/
  inside : List.Forall₂ relates block.inside block'.inside
  /-- The terminators are related. -/
  terminator : relates block.terminator block'.terminator

/-- Lines that are related so that brackets stay brackets of the same kind are parted alike. -/
theorem Parted.forall₂ {relates : Line → Line → Prop} {lines lines' others others' : List Line}
    {blocks blocks' : List Block} (parted : Parted lines others blocks)
    (brackets : ∀ line line', relates line line' → line.isBracket = line'.isBracket)
    (related : List.Forall₂ relates lines lines') (parted' : Parted lines' others' blocks') :
    List.Forall₂ relates others others' ∧ List.Forall₂ (Block.Related relates) blocks blocks' := by
  -- Each part begins with a line that tells what kind of part it is.
  induction parted generalizing lines' others' blocks' with
  | done =>
    cases related
    cases parted'
    exact ⟨.nil, .nil⟩
  | outside noBracket _ ih =>
    obtain ⟨line', rest', here, behind, rfl⟩ := List.forall₂_cons_left_iff.1 related
    cases parted' with
    | outside noBracket' parted' =>
      obtain ⟨others, blocks⟩ := ih behind parted'
      exact ⟨.cons here others, blocks⟩
    | block opened _ _ _ =>
      -- A line outside all blocks is related to no header.
      rw [brackets _ _ here, Line.isBracket, opened] at noBracket
      cases noBracket
  | block opened between closed _ ih =>
    obtain ⟨line', rest', here, behind, rfl⟩ := List.forall₂_cons_left_iff.1 related
    cases parted' with
    | outside noBracket' parted' =>
      -- A header is related to no line outside all blocks.
      rw [← brackets _ _ here, Line.isBracket, opened] at noBracket'
      cases noBracket'
    | block opened' between' closed' parted' =>
      -- Both blocks end at the first bracket behind their headers.
      have closes {line : Line} (closed : line.opensWith ".end method".toList) : line.isBracket :=
        Bool.or_eq_true_iff.2 (.inr closed)
      obtain ⟨inside, last, behind⟩ := behind.split_first Line.isBracket Line.isBracket brackets
        between (closes closed) between' (closes closed')
      obtain ⟨others, blocks⟩ := ih behind parted'
      exact ⟨others, .cons ⟨here, inside, last⟩ blocks⟩

/-- The brackets of parted lines alternate. -/
theorem Parted.alternates {lines others : List Line} {blocks : List Block}
    (parted : Parted lines others blocks) : Alternates (lines.filter Line.isBracket) := by
  -- Each block has its header and its terminator.
  rw [parted.brackets]
  induction parted with
  | done => exact .done
  | outside _ _ ih => exact ih
  | block opened _ closed _ ih => exact .pair opened closed ih

/-- Lines whose brackets alternate can be parted. -/
theorem exists_parted {lines : List Line} (alternates : Alternates (lines.filter Line.isBracket)) :
    ∃ others blocks, Parted lines others blocks := by
  -- The lines up to the next bracket are passed over, or make up a body.
  match lines with
  | [] => exact ⟨[], [], .done⟩
  | line :: rest =>
    by_cases bracket : line.isBracket
    case neg =>
      rw [List.filter_cons_of_neg bracket] at alternates
      obtain ⟨others, blocks, parted⟩ := exists_parted alternates
      exact ⟨line :: others, blocks, .outside (by simpa using bracket) parted⟩
    case pos =>
      rw [List.filter_cons_of_pos bracket] at alternates
      -- The next two brackets are this header and its terminator.
      generalize brackets : rest.filter Line.isBracket = behind at alternates
      cases alternates with
      | @pair _ terminator later opened closed alternates =>
        obtain ⟨inside, after, rfl, between, -, others⟩ := List.filter_eq_cons_iff.1 brackets
        have shorter : after.length < (line :: (inside ++ terminator :: after)).length := by
          simp only [List.length_cons, List.length_append]
          omega
        rw [← others] at alternates
        obtain ⟨others, blocks, parted⟩ := exists_parted alternates
        exact ⟨others, ⟨line, inside, terminator⟩ :: blocks,
          .block opened (fun line member => by simpa using between line member) closed parted⟩
termination_by lines.length

/-- What becomes of a line that declares a field. -/
def verdict (owner : Text) (line : Line) : Field ⊕ Diagnostic :=
  -- A declaration that cannot be read is reported, with line numbers that begin at one.
  match Field.parse owner line.content with
  | .ok field => .inl field
  | .error error => .inr ⟨line.number + 1, line.trimmed, error⟩

/-- What becomes of the lines that declare fields, one by one. -/
def verdicts (owner : Text) (lines : List Line) : List (Field ⊕ Diagnostic) :=
  -- The other lines are passed over.
  (lines.filter fun line => line.opensWith ".field".toList).map (verdict owner)

/-- What becomes of a line comes before what becomes of the others. -/
theorem verdicts_cons (owner : Text) (line : Line) (rest : List Line) :
    verdicts owner (line :: rest) = verdicts owner [line] ++ verdicts owner rest := by
  -- The line is looked at alone.
  rw [verdicts, verdicts, verdicts, ← List.map_append, ← List.filter_append, List.singleton_append]

/-- What has been read behind further lines outside and further blocks. -/
def Reading.after (owner : Text) (reading : Reading) (others : List Line)
    (methods : List Method) : Reading where
  -- What comes later stands first.
  opened := none
  fields := ((verdicts owner others).filterMap Sum.getLeft?).reverse ++ reading.fields
  methods := methods.reverse ++ reading.methods
  diagnostics := ((verdicts owner others).filterMap Sum.getRight?).reverse ++ reading.diagnostics

/-- A block declares a method. -/
def Block.Declares (owner : Text) (block : Block) (method : Method) : Prop :=
  -- The method is read from its header and its body.
  Method.parse owner block.header.content block.body = .ok method

/-- A line outside that is no bracket declares a field, or is reported, or neither. -/
theorem readOutside_other {owner : Text} {reading : Reading} (closed : reading.opened = none)
    {line : Line} (noBracket : line.isBracket = false) :
    readOutside owner reading line = .ok (reading.after owner [line] []) := by
  -- The directives of methods are looked for first.
  simp only [Line.isBracket, Bool.or_eq_false_iff] at noBracket
  obtain ⟨opened, fields, methods, diagnostics⟩ := reading
  cases closed
  simp only [readOutside, Reading.after, noBracket, Bool.false_eq_true, if_false, verdicts,
    List.filter_cons, List.filter_nil]
  by_cases said : line.opensWith ".field".toList
  · simp only [said, if_true, List.map_cons, List.map_nil, verdict]
    cases Field.parse owner line.content <;> rfl
  · simp only [said, Bool.false_eq_true, if_false]
    rfl

/-- A line of a body joins it. -/
theorem readInside_other {owner : Text} {reading : Reading} {method : OpenMethod} {line : Line}
    (noBracket : line.isBracket = false) : readInside owner reading method line =
      .ok { reading with opened := some ⟨method.header, line.piece :: method.pieces⟩ } := by
  -- It neither opens nor closes a method.
  simp only [Line.isBracket, Bool.or_eq_false_iff] at noBracket
  simp only [readInside, noBracket.1, noBracket.2, Bool.false_eq_true, if_false]

/-- A line does not both open and close a method. -/
theorem opensMethod_of_closes {line : Line} (closed : line.opensWith ".end method".toList) :
    line.opensWith ".method".toList = false := by
  -- The directives begin differently.
  rw [Line.opensWith_eq_opens _ (by decide)] at closed ⊢
  rw [← Bool.not_eq_true]
  intro opened
  rcases Text.prefix_or_prefix_of_opens closed opened with first | second
  · exact absurd (List.isPrefixOf_iff_prefix.2 first) (by decide)
  · exact absurd (List.isPrefixOf_iff_prefix.2 second) (by decide)

/-- Lines of a body and the terminator behind them complete the open method. -/
theorem readLines_body {owner : Text} {inside : List Line} {terminator : Line}
    (between : ∀ line ∈ inside, line.isBracket = false)
    (closed : terminator.opensWith ".end method".toList) {reading : Reading} {method : OpenMethod}
    (opened : reading.opened = some method) (rest : List Line) :
    readLines owner reading (inside ++ terminator :: rest) =
      (concerning owner (Method.parse owner method.header.content
        (method.pieces.reverse.flatten ++ inside.flatMap Line.piece)) >>= fun complete =>
          readLines owner { reading with
            opened := none, methods := complete :: reading.methods } rest) := by
  -- Each line is put before those that the body already has.
  induction inside generalizing reading method with
  | nil =>
    rw [List.nil_append, readLines_inside opened, readInside,
      opensMethod_of_closes closed, if_neg Bool.false_ne_true, if_pos closed]
    simp only [List.flatMap_nil, List.append_nil]
    cases concerning owner (Method.parse owner method.header.content
      method.pieces.reverse.flatten) <;> rfl
  | cons line others ih =>
    rw [List.cons_append, readLines_inside opened, readInside_other (between line (by simp))]
    refine (ih (fun other member => between other (by simp [member])) rfl).trans ?_
    simp

/-- Parted lines are read when every block declares a method. -/
theorem readLines_of_parted {owner : Text} {lines others : List Line} {blocks : List Block}
    (parted : Parted lines others blocks) {methods : List Method}
    (declared : List.Forall₂ (Block.Declares owner) blocks methods) {reading : Reading}
    (closed : reading.opened = none) :
    readLines owner reading lines = .ok (reading.after owner others methods) := by
  -- Each part is read behind those before it.
  induction parted generalizing methods reading with
  | done =>
    cases declared
    obtain ⟨opened, fields, methods, diagnostics⟩ := reading
    cases closed
    rfl
  | @outside line rest others blocks noBracket _ ih =>
    -- A line between the blocks is read on its own.
    rw [readLines_outside closed, readOutside_other closed noBracket]
    refine (ih declared rfl).trans ?_
    simp [Reading.after, verdicts_cons owner line others]
  | @block header terminator inside rest others blocks opened between ends _ ih =>
    cases declared with
    | @cons _ method _ methods here behind =>
      -- A header opens a method, which its body and its terminator complete.
      have step : readOutside owner reading header =
          .ok { reading with opened := some ⟨header, []⟩ } := by
        rw [readOutside, if_pos opened]
      have body : ([] : List Text).reverse.flatten ++ inside.flatMap Line.piece =
          inside.flatMap Line.piece := rfl
      rw [readLines_outside closed, step]
      refine (readLines_body between ends rfl rest).trans ?_
      rw [body, show Method.parse owner header.content (inside.flatMap Line.piece) = .ok method
        from here]
      refine (ih behind rfl).trans ?_
      simp [Reading.after]

/-- Lines behind a header that are read to the end are those of a body, a terminator and others. -/
theorem exists_body {owner : Text} {lines : List Line} {reading last : Reading}
    {method : OpenMethod} (opened : reading.opened = some method)
    (done : readLines owner reading lines = .ok last) (complete : last.opened = none) :
    ∃ inside terminator rest, lines = inside ++ terminator :: rest ∧
      (∀ line ∈ inside, line.isBracket = false) ∧
      terminator.opensWith ".end method".toList := by
  -- Another header is refused, and so is the end of the text.
  induction lines generalizing reading method with
  | nil =>
    -- The text may not end inside a method.
    cases done
    rw [opened] at complete
    cases complete
  | cons line rest ih =>
    by_cases closes : line.opensWith ".end method".toList
    · exact ⟨[], line, rest, rfl, by simp, closes⟩
    · rw [readLines_inside opened, bind_eq_ok] at done
      obtain ⟨next, step, done⟩ := done
      by_cases opens : line.opensWith ".method".toList
      -- No method may open inside another.
      · rw [readInside, if_pos opens] at step
        exact absurd step refuse_ne_ok
      · have noBracket := Line.isBracket_eq_false opens closes
        rw [readInside_other noBracket, Except.ok.injEq] at step
        subst step
        obtain ⟨inside, terminator, rest', rfl, between, ends⟩ := ih rfl done
        refine ⟨line :: inside, terminator, rest', rfl, fun other member => ?_, ends⟩
        rcases List.mem_cons.1 member with rfl | member
        · exact noBracket
        · exact between other member

/-- Lines that are read to the end are parted, and their blocks declare methods. -/
theorem parted_of_readLines {owner : Text} {lines : List Line} {reading last : Reading}
    (closed : reading.opened = none) (done : readLines owner reading lines = .ok last)
    (complete : last.opened = none) : ∃ others blocks methods, Parted lines others blocks ∧
      List.Forall₂ (Block.Declares owner) blocks methods := by
  -- A header takes all lines up to its terminator with it.
  match lines with
  | [] => exact ⟨[], [], [], .done, .nil⟩
  | line :: rest =>
    by_cases opens : line.opensWith ".method".toList
    -- The lines behind a header are read up to its terminator, which makes the method.
    · have step : readOutside owner reading line =
          .ok { reading with opened := some ⟨line, []⟩ } := by
        rw [readOutside, if_pos opens]
      rw [readLines_outside closed, step] at done
      have inner : readLines owner { reading with opened := some ⟨line, []⟩ } rest = .ok last :=
        done
      obtain ⟨inside, terminator, rest, rfl, between, ends⟩ := exists_body rfl inner complete
      rw [readLines_body between ends rfl, bind_eq_ok] at inner
      obtain ⟨method, parsed, later⟩ := inner
      have shorter : rest.length < (line :: (inside ++ terminator :: rest)).length := by
        simp only [List.length_cons, List.length_append]
        omega
      obtain ⟨others, blocks, methods, parted, declared⟩ :=
        parted_of_readLines rfl later complete
      exact ⟨others, ⟨line, inside, terminator⟩ :: blocks, method :: methods,
        .block opens between ends parted, .cons (concerning_eq_ok.1 parsed) declared⟩
    · rw [readLines_outside closed, bind_eq_ok] at done
      obtain ⟨next, step, later⟩ := done
      -- A terminator that closes nothing is refused.
      by_cases closes : line.opensWith ".end method".toList
      · rw [readOutside, if_neg opens, if_pos closes] at step
        exact absurd step refuse_ne_ok
      · have noBracket := Line.isBracket_eq_false opens closes
        rw [readOutside_other closed noBracket, Except.ok.injEq] at step
        subst step
        obtain ⟨others, blocks, methods, parted, declared⟩ :=
          parted_of_readLines rfl later complete
        exact ⟨line :: others, blocks, methods, .outside noBracket parted, declared⟩
termination_by lines.length

/-- The members of a class are read from lines exactly if the lines are parted and each block
declares a method. -/
theorem readMembers_iff {owner : Text} {lines : List Line} {reading : Reading} :
    readMembers owner lines = .ok reading ↔ ∃ others blocks methods,
      Parted lines others blocks ∧ List.Forall₂ (Block.Declares owner) blocks methods ∧
        reading = Reading.after owner {} others methods := by
  -- Every method has to be closed at the end.
  rw [readMembers_ok]
  constructor
  · rintro ⟨done, complete⟩
    obtain ⟨others, blocks, methods, parted, declared⟩ := parted_of_readLines rfl done complete
    refine ⟨others, blocks, methods, parted, declared, ?_⟩
    rw [readLines_of_parted parted declared rfl] at done
    exact (Except.ok.inj done).symm
  · rintro ⟨others, blocks, methods, parted, declared, rfl⟩
    exact ⟨readLines_of_parted parted declared rfl, rfl⟩

/-- A text that names a class and its superclass and brackets its methods as it should. -/
structure WellBracketed (text : Text) : Prop where
  /-- The first line with the directive names the class. -/
  header : ∃ line header,
    (Text.lines text).find? (fun line => line.opensWith ".class".toList) = some line ∧
      Header.parseClass line.content = .ok header
  /-- The first line with the directive names the superclass. -/
  superclass : ∃ line superclass,
    (Text.lines text).find? (fun line => line.opensWith ".super".toList) = some line ∧
      Header.parseSuper line.content = .ok superclass
  /-- The lines that open and close methods take turns. -/
  alternates : Alternates ((Text.lines text).filter Line.isBracket)
  /-- Every line that opens a method can be read as its header. -/
  headers : ∀ line ∈ Text.lines text, line.opensWith ".method".toList →
    ∃ owner body method, Method.parse owner line.content body = .ok method

/-- A method is the one that a block of a text declares for a class. -/
structure Block.Holds (text owner : Text) (block : Block) (method : Method) : Prop where
  /-- It is read from the header and its body. -/
  read : Method.parse owner block.header.content method.body = .ok method
  /-- Its body is all that stands between the header line and the terminator line. -/
  body : Text.slice ⟨block.header.next, block.terminator.start⟩ text = some method.body
  /-- No line of the body opens or closes a method. -/
  inside : ∀ line ∈ Text.lines method.body, line.isBracket = false

/-- The declarations of a class text are those of its lines outside methods and of its blocks. -/
structure Accounts (source : ClassText) (text : Text) (outside : List Line)
    (blocks : List Block) : Prop where
  /-- The lines of the text are parted into those outside and the blocks. -/
  parted : Parted (Text.lines text) outside blocks
  /-- Headers and terminators of the blocks are all the lines that open and close methods. -/
  brackets : (Text.lines text).filter Line.isBracket =
    blocks.flatMap fun block => [block.header, block.terminator]
  /-- Each block holds a method. -/
  methods : List.Forall₂ (Block.Holds text source.descriptor) blocks source.methods
  /-- The fields are what could be read of the lines outside that declare one. -/
  fields : source.fields = (verdicts source.descriptor outside).filterMap Sum.getLeft?
  /-- All other lines outside that declare a field are reported. -/
  diagnostics : source.diagnostics = (verdicts source.descriptor outside).filterMap Sum.getRight?
  /-- Each line stands in the text at its number. -/
  numbers : ∀ line ∈ Text.lines text, (Text.lines text)[line.number]? = some line

/-- The lines of a block stand one behind the other. -/
theorem Parted.exists_lines {lines others : List Line} {blocks : List Block}
    (parted : Parted lines others blocks) {block : Block} (member : block ∈ blocks) :
    block.header.opensWith ".method".toList ∧ (∀ line ∈ block.inside, line.isBracket = false) ∧
      block.terminator.opensWith ".end method".toList ∧
      ∃ front back,
        lines = front ++ block.header :: (block.inside ++ block.terminator :: back) := by
  -- The blocks are gone through in order.
  induction parted with
  | done => simp at member
  | @outside line _ _ _ _ _ ih =>
    obtain ⟨opened, between, closed, front, back, rfl⟩ := ih member
    exact ⟨opened, between, closed, line :: front, back, rfl⟩
  | @block header terminator inside rest _ _ opened between closed _ ih =>
    rcases List.mem_cons.1 member with rfl | member
    · exact ⟨opened, between, closed, [], rest, rfl⟩
    · obtain ⟨opened, between, closed, front, back, rfl⟩ := ih member
      exact ⟨opened, between, closed, header :: (inside ++ terminator :: front), back, by simp⟩

/-- The lines of a body are some of the lines that are parted. -/
theorem Parted.inside_sublist {lines others : List Line} {blocks : List Block}
    (parted : Parted lines others blocks) {block : Block} (member : block ∈ blocks) :
    block.inside.Sublist lines := by
  -- They stand between the header and the terminator.
  obtain ⟨-, -, -, front, back, rfl⟩ := parted.exists_lines member
  exact ((List.sublist_append_left ..).cons _).trans (List.sublist_append_right ..)

/-- The pieces of a body are those of the lines of its block. -/
theorem Parted.pieces_body {text : Text} {others : List Line} {blocks : List Block}
    (parted : Parted (Text.lines text) others blocks) {block : Block} (member : block ∈ blocks) :
    Text.pieces block.body = block.inside.map Line.piece := by
  -- They are some of the pieces of the text.
  have part := (parted.inside_sublist member).map Line.piece
  rw [Text.map_piece_lines] at part
  rw [Block.body, List.flatMap_def]
  exact Text.pieces_of_sublist part

/-- The text between two lines is made up of the lines between them. -/
theorem slice_between {text : Text} {front inside back : List Line} {header terminator : Line}
    (split : Text.lines text = front ++ header :: (inside ++ terminator :: back)) :
    Text.slice ⟨header.next, terminator.start⟩ text = some (inside.flatMap Line.piece) := by
  -- The text is cut in front of the terminator and behind the header.
  have split' : Text.lines text = (front ++ [header] ++ inside) ++ terminator :: back := by
    rw [split]; simp
  have whole := Text.flatMap_piece_lines text
  rw [split', List.flatMap_append, List.flatMap_append] at whole
  refine Text.slice_eq_some.2 ⟨(front ++ [header]).flatMap Line.piece,
    (terminator :: back).flatMap Line.piece, whole.symm, Text.next_of_lines split, ?_⟩
  rw [← List.flatMap_append]
  exact Text.start_of_lines split'

/-- Lines that neither open nor close a method do not so in the text that they make up. -/
theorem inside_of_between {text : Text} {inside : List Line}
    (part : inside.Sublist (Text.lines text)) (between : ∀ line ∈ inside, line.isBracket = false) :
    ∀ line ∈ Text.lines (inside.flatMap Line.piece), line.isBracket = false := by
  -- That text says what these lines say.
  have told := Text.exists_line_iff part fun content => (⟨0, 0, content, []⟩ : Line).isBracket
  intro line member
  rw [← Bool.not_eq_true]
  intro bracket
  obtain ⟨line', member', bracket'⟩ := told.1 ⟨line, member, bracket⟩
  have none' : (⟨0, 0, line'.content, []⟩ : Line).isBracket = false := between line' member'
  rw [none'] at bracket'
  cases bracket'

/-- A block that declares a method holds it. -/
theorem Parted.holds {text owner : Text} {others : List Line} {blocks : List Block}
    (parted : Parted (Text.lines text) others blocks) {block : Block} (member : block ∈ blocks)
    {method : Method} (declares : block.Declares owner method) :
    block.Holds text owner method := by
  -- The body is made up of the lines between the header and the terminator.
  obtain ⟨-, between, -, front, back, split⟩ := parted.exists_lines member
  obtain ⟨-, -, -, same, -⟩ := Method.exists_of_parse declares
  refine ⟨?_, ?_, ?_⟩
  · rw [same]
    exact declares
  · rw [same]
    exact slice_between split
  · rw [same]
    exact inside_of_between (parted.inside_sublist member) between

/-- A class text is read exactly if its headers are and its members are. -/
theorem parse_eq_ok {text : Text} {source : ClassText} : parse text = .ok source ↔
    ∃ header superclass reading, readHeader (Text.lines text) = .ok header ∧
      readSuper header.descriptor (Text.lines text) = .ok superclass ∧
      readMembers header.descriptor (Text.lines text) = .ok reading ∧
      source = ⟨text, header.descriptor, header.modifiers, superclass, reading.fields.reverse,
        reading.methods.reverse, reading.diagnostics.reverse⟩ := by
  -- The header is read first, then the superclass, then the members.
  simp only [parse, bind_eq_ok, pure_eq_ok]
  constructor
  · rintro ⟨header, named, superclass, extended, reading, read, rfl⟩
    exact ⟨header, superclass, reading, named, extended, read, rfl⟩
  · rintro ⟨header, superclass, reading, named, extended, read, rfl⟩
    exact ⟨header, named, superclass, extended, reading, read, rfl⟩

/-- A header is read from the first line with the directive of classes. -/
theorem readHeader_eq_ok {lines : List Line} {header : ClassHeader} :
    readHeader lines = .ok header ↔
      ∃ line, lines.find? (fun line => line.opensWith ".class".toList) = some line ∧
        Header.parseClass line.content = .ok header := by
  -- Without such a line the reading is refused.
  rw [readHeader]
  cases lines.find? fun line => line.opensWith ".class".toList with
  | none => simp
  | some line => simp

/-- A superclass is read from the first line with the directive of superclasses. -/
theorem readSuper_eq_ok {owner superclass : Text} {lines : List Line} :
    readSuper owner lines = .ok superclass ↔
      ∃ line, lines.find? (fun line => line.opensWith ".super".toList) = some line ∧
        Header.parseSuper line.content = .ok superclass := by
  -- Without such a line the reading is refused.
  rw [readSuper]
  cases lines.find? fun line => line.opensWith ".super".toList with
  | none => simp
  | some line => simp

/-- Every text that is read is well bracketed. -/
theorem wellBracketed_of_parse {text : Text} {source : ClassText}
    (done : parse text = .ok source) : WellBracketed text := by
  -- Every line that opens a method is the header of a block.
  obtain ⟨header, superclass, reading, named, extended, read, -⟩ := parse_eq_ok.1 done
  obtain ⟨others, blocks, methods, parted, declared, -⟩ := readMembers_iff.1 read
  obtain ⟨line, found, parsed⟩ := readHeader_eq_ok.1 named
  obtain ⟨line', found', parsed'⟩ := readSuper_eq_ok.1 extended
  refine ⟨⟨line, header, found, parsed⟩, ⟨line', superclass, found', parsed'⟩, parted.alternates,
    fun line member opened => ?_⟩
  have bracket : line ∈ (Text.lines text).filter Line.isBracket :=
    List.mem_filter.2 ⟨member, Bool.or_eq_true_iff.2 (.inl opened)⟩
  rw [parted.brackets] at bracket
  obtain ⟨block, inside, either⟩ := List.mem_flatMap.1 bracket
  obtain ⟨-, -, closed, -⟩ := parted.exists_lines inside
  simp only [List.mem_cons, List.not_mem_nil, or_false] at either
  rcases either with rfl | rfl
  · obtain ⟨method, -, declares⟩ := List.exists_of_mem_left declared inside
    exact ⟨_, _, method, declares⟩
  · rw [opensMethod_of_closes closed] at opened
    cases opened

/-- Every well-bracketed text is read. -/
theorem WellBracketed.exists_parse {text : Text} (bracketed : WellBracketed text) :
    ∃ source, parse text = .ok source := by
  -- Each block of the parted lines declares a method.
  obtain ⟨line, header, found, parsed⟩ := bracketed.header
  obtain ⟨line', superclass, found', parsed'⟩ := bracketed.superclass
  obtain ⟨others, blocks, parted⟩ := exists_parted bracketed.alternates
  have declares : ∀ block ∈ blocks, ∃ method, block.Declares header.descriptor method := by
    intro block member
    obtain ⟨opened, -, -, front, back, split⟩ := parted.exists_lines member
    obtain ⟨owner, body, method, read⟩ := bracketed.headers block.header (by simp [split]) opened
    exact ⟨_, Method.parse_elsewhere read header.descriptor block.body⟩
  obtain ⟨methods, declared⟩ := List.exists_forall₂ declares
  exact ⟨_, parse_eq_ok.2 ⟨header, superclass, _, readHeader_eq_ok.2 ⟨line, found, parsed⟩,
    readSuper_eq_ok.2 ⟨line', found', parsed'⟩,
    readMembers_iff.2 ⟨others, blocks, methods, parted, declared, rfl⟩, rfl⟩⟩

/-- The lines of a text that is read are parted, and their blocks declare its methods. -/
theorem exists_parted_of_parse {text : Text} {source : ClassText}
    (done : parse text = .ok source) : ∃ outside blocks,
      Parted (Text.lines text) outside blocks ∧
        List.Forall₂ (Block.Declares source.descriptor) blocks source.methods := by
  -- What has been read is turned around.
  obtain ⟨header, superclass, reading, -, -, read, rfl⟩ := parse_eq_ok.1 done
  obtain ⟨outside, blocks, methods, parted, declared, rfl⟩ := readMembers_iff.1 read
  refine ⟨outside, blocks, parted, ?_⟩
  simpa [Reading.after] using declared

/-- The lines of a text that is read account for what it declares. -/
theorem exists_accounts {text : Text} {source : ClassText} (done : parse text = .ok source) :
    ∃ outside blocks, source.Accounts text outside blocks := by
  -- What has been read is turned around.
  obtain ⟨header, superclass, reading, -, -, read, rfl⟩ := parse_eq_ok.1 done
  obtain ⟨outside, blocks, methods, parted, declared, rfl⟩ := readMembers_iff.1 read
  refine ⟨outside, blocks, parted, parted.brackets, ?_, ?_, ?_, fun line => Text.getElem?_number⟩
  · have order : (Reading.after header.descriptor {} outside methods).methods.reverse =
        methods := by
      simp [Reading.after]
    rw [order]
    exact declared.imp_mem fun block inside method _ declares => parted.holds inside declares
  · simp [Reading.after]
  · simp [Reading.after]

end ClassText

/-- A text is read exactly if it is well bracketed, and then its lines account for all that the
document declares. -/
theorem Document.parse_iff_wellBracketed (text : Text) :
    ((∃ document, Document.parse {} text = .ok document) ↔ ClassText.WellBracketed text) ∧
      ∀ document, Document.parse {} text = .ok document →
        ∃ outside blocks, document.toClassText.Accounts text outside blocks := by
  -- A text that is not prepared is read as it stands.
  have read {document : Document} : Document.parse {} text = .ok document ↔
      ∃ source, ClassText.parse text = .ok source ∧ Document.ofClassText source = document := by
    simp only [Document.parse, Bool.false_eq_true, if_false, bind_eq_ok, pure_eq_ok]
  constructor
  · constructor
    · rintro ⟨document, done⟩
      obtain ⟨source, parsed, -⟩ := read.1 done
      exact ClassText.wellBracketed_of_parse parsed
    · intro bracketed
      obtain ⟨source, parsed⟩ := bracketed.exists_parse
      exact ⟨_, read.2 ⟨source, parsed, rfl⟩⟩
  · intro document done
    obtain ⟨source, parsed, rfl⟩ := read.1 done
    exact ClassText.exists_accounts parsed

/-- A class with a field, a declaration that cannot be read and a method, where not all lines end
in the same way. -/
def bracketedSample : Text :=
  -- The last line has no ending.
  ".class LA;\r\n.super Lo;\n.field a:I\n.field b\n  .method m()V\r\n    nop\n  .end method".toList

/-- The sample is read, and its lines account for what it declares. -/
theorem Document.parse_bracketedSample : ∃ document, Document.parse {} bracketedSample =
      .ok document ∧ document.fields.length = 1 ∧
    document.diagnostics.map Diagnostic.line = [4] ∧
    document.methods.map Method.body = ["    nop\n".toList] ∧
    ∃ outside blocks, document.toClassText.Accounts bracketedSample outside blocks := by
  -- The reading is evaluated.
  have run : (Document.parse {} bracketedSample).map (fun document => (document.fields.length,
      document.diagnostics.map Diagnostic.line, document.methods.map Method.body)) =
      .ok (1, [4], ["    nop\n".toList]) := by
    decide +kernel
  cases done : Document.parse {} bracketedSample with
  | error error =>
    rw [done] at run
    cases run
  | ok document =>
    rw [done] at run
    obtain ⟨fields, others⟩ := Prod.mk.inj (Except.ok.inj run)
    obtain ⟨diagnostics, methods⟩ := Prod.mk.inj others
    exact ⟨document, rfl, fields, diagnostics, methods,
      (Document.parse_iff_wellBracketed bracketedSample).2 document done⟩

end Smali
