import Smali.ClassText.Basic
import Smali.Proofs.Field
import Mathlib.Data.List.Find

/-! What a class text declares is told by its lines one by one, and by what they say alone. -/

namespace Smali

/-- A line, with or without its ending, says a directive. -/
def Text.tells (directive piece : Text) : Bool :=
  -- The blanks around what the line says do not count.
  opens directive (trim piece)

/-- A line opens with a directive when it says it. -/
theorem Line.opensWith_eq_tells (directive : Text) (solid : Text.endsSolid directive)
    {text : Text} {line : Line} (member : line ∈ Text.lines text) :
    line.opensWith directive = Text.tells directive line.piece := by
  -- The ending is blank.
  obtain ⟨number, start, piece, -, rfl⟩ := Text.exists_ofPiece member
  rw [opensWith_eq_opens directive solid, trimmed_ofPiece, piece_ofPiece]
  rfl

/-- A line opens a method when it says so. -/
theorem Line.opensMethod_eq {text : Text} {line : Line} (member : line ∈ Text.lines text) :
    line.opensWith ".method".toList = Text.tells ".method".toList line.piece := by
  -- The directive ends with a letter.
  exact opensWith_eq_tells _ (by decide) member

/-- A line closes a method when it says so. -/
theorem Line.closesMethod_eq {text : Text} {line : Line} (member : line ∈ Text.lines text) :
    line.opensWith ".end method".toList = Text.tells ".end method".toList line.piece := by
  -- The directive ends with a letter.
  exact opensWith_eq_tells _ (by decide) member

/-- A line declares a field when it says so. -/
theorem Line.opensField_eq {text : Text} {line : Line} (member : line ∈ Text.lines text) :
    line.opensWith ".field".toList = Text.tells ".field".toList line.piece := by
  -- The directive ends with a letter.
  exact opensWith_eq_tells _ (by decide) member

/-- What a line says is the trimmed content. -/
theorem Line.trimmed_eq {text : Text} {line : Line} (member : line ∈ Text.lines text) :
    line.trimmed = Text.trim line.piece := by
  -- The ending is blank.
  obtain ⟨number, start, piece, -, rfl⟩ := Text.exists_ofPiece member
  rw [trimmed_ofPiece, piece_ofPiece]

/-- A line says one of two directives only, unless one is the beginning of the other. -/
theorem Text.tells_other {directive piece : Text} (other : Text) (said : tells directive piece)
    (apart : (directive.isPrefixOf other || other.isPrefixOf directive) = false) :
    tells other piece = false := by
  -- Both would be beginnings of what the line says.
  rw [← Bool.not_eq_true]
  intro said'
  rcases prefix_or_prefix_of_opens said said' with first | second
  · simp [List.isPrefixOf_iff_prefix.2 first] at apart
  · simp [List.isPrefixOf_iff_prefix.2 second] at apart

namespace ClassText

/-- Lines that neither open nor close a method. -/
def Inside (pieces : List Text) : Prop :=
  -- They may stand between a header and its terminator.
  ∀ piece ∈ pieces, Text.tells ".method".toList piece = false ∧
    Text.tells ".end method".toList piece = false

/-- What lines declare when they are read one by one. -/
inductive Reads (owner : Text) : List Text → List Field → List Method → Prop where
  /-- No lines declare nothing. -/
  | done : Reads owner [] [] []
  /-- A line may declare nothing. -/
  | plain {piece : Text} {rest : List Text} {fields : List Field} {methods : List Method}
      (noHeader : Text.tells ".method".toList piece = false)
      (noTerminator : Text.tells ".end method".toList piece = false)
      (noField : ∀ field, Text.tells ".field".toList piece →
        Field.parse owner (Text.trim piece) ≠ .ok field)
      (others : Reads owner rest fields methods) : Reads owner (piece :: rest) fields methods
  /-- A line may declare a field. -/
  | field {piece : Text} {field : Field} {rest : List Text} {fields : List Field}
      {methods : List Method} (said : Text.tells ".field".toList piece)
      (parsed : Field.parse owner (Text.trim piece) = .ok field)
      (others : Reads owner rest fields methods) :
      Reads owner (piece :: rest) (field :: fields) methods
  /-- A header, a body and a terminator declare a method. -/
  | method {header terminator : Text} {inside rest : List Text} {method : Method}
      {fields : List Field} {methods : List Method} (opened : Text.tells ".method".toList header)
      (between : Inside inside) (closed : Text.tells ".end method".toList terminator)
      (parsed : Method.parse owner (Text.trim header) inside.flatten = .ok method)
      (others : Reads owner rest fields methods) :
      Reads owner (header :: (inside ++ terminator :: rest)) fields (method :: methods)

/-- The reader of fields looks at what a line says. -/
theorem parse_field_trimmed (owner : Text) (line : Line) :
    Field.parse owner line.trimmed = Field.parse owner line.content :=
  -- The line says what its content says.
  Field.parse_trim owner line.content

/-- The reader of methods looks at what a header says. -/
theorem parse_method_trimmed (owner : Text) (line : Line) (body : Text) :
    Method.parse owner line.trimmed body = Method.parse owner line.content body := by
  -- Trimming twice is trimming once.
  unfold Method.parse Line.trimmed
  rw [Text.trim_trim]

/-- A line behind a header is read as such. -/
theorem readLines_inside {owner : Text} {reading : Reading} {method : OpenMethod}
    (opened : reading.opened = some method) (line : Line) (rest : List Line) :
    readLines owner reading (line :: rest) =
      readInside owner reading method line >>= fun next => readLines owner next rest := by
  -- The reading goes on from what the line leaves.
  simp only [readLines, opened]
  cases readInside owner reading method line <;> rfl

/-- A line outside every method is read as such. -/
theorem readLines_outside {owner : Text} {reading : Reading} (closed : reading.opened = none)
    (line : Line) (rest : List Line) :
    readLines owner reading (line :: rest) =
      readOutside owner reading line >>= fun next => readLines owner next rest := by
  -- The reading goes on from what the line leaves.
  simp only [readLines, closed]
  cases readOutside owner reading line <;> rfl

section Lines

variable {text owner : Text}

/-- Reading behind a header goes on to the terminator and reads the method. -/
theorem exists_of_readInside {lines : List Line} (genuine : ∀ line ∈ lines, line ∈ Text.lines text)
    {reading last : Reading} {method : OpenMethod} (opened : reading.opened = some method)
    (done : readLines owner reading lines = .ok last) (complete : last.opened = none) :
    ∃ inside terminator rest parsed, lines = inside ++ terminator :: rest ∧
      Inside (inside.map Line.piece) ∧ Text.tells ".end method".toList terminator.piece ∧
      Method.parse owner method.header.content
        (method.pieces.reverse.flatten ++ (inside.map Line.piece).flatten) = .ok parsed ∧
      readLines owner { reading with opened := none, methods := parsed :: reading.methods } rest =
        .ok last := by
  -- Each line before the terminator joins the body.
  induction lines generalizing reading method with
  | nil =>
    -- The text may not end inside a method.
    cases done
    rw [opened] at complete
    cases complete
  | cons line rest ih =>
    have member := genuine line (by simp)
    rw [readLines_inside opened, bind_eq_ok] at done
    obtain ⟨next, step, done⟩ := done
    unfold readInside at step
    split at step
    · -- Another header is refused.
      exact absurd step refuse_ne_ok
    · next header =>
      split at step
      · next closes =>
        split at step
        · next parsed whole =>
          cases step
          -- The terminator ends the body with the lines before this one.
          refine ⟨[], line, rest, parsed, rfl, by simp [Inside], ?_, ?_, done⟩
          · rw [← Line.closesMethod_eq member]
            exact closes
          · simpa using concerning_eq_ok.1 whole
        · cases step
      · next goesOn =>
        cases step
        -- A line that is no bracket is the first one of what is left of the body.
        obtain ⟨inside, terminator, rest', parsed, split, between, closed, whole, others⟩ :=
          ih (fun other inside => genuine other (by simp [inside])) rfl done
        refine ⟨line :: inside, terminator, rest', parsed, by rw [split]; rfl, ?_, closed, ?_,
          others⟩
        · intro piece inside'
          rcases List.mem_cons.1 inside' with rfl | inside'
          · rw [← Line.opensMethod_eq member, ← Line.closesMethod_eq member]
            exact ⟨by simpa using header, by simpa using goesOn⟩
          · exact between piece inside'
        · simpa using whole

/-- A line outside every method opens one, declares a field, or declares nothing. -/
theorem readOutside_ok {line : Line} (inside : line ∈ Text.lines text) {reading next : Reading}
    (step : readOutside owner reading line = .ok next) :
    (Text.tells ".method".toList line.piece ∧
      next = { reading with opened := some ⟨line, []⟩ }) ∨
    (∃ field, Text.tells ".field".toList line.piece ∧
      Field.parse owner (Text.trim line.piece) = .ok field ∧
      next = { reading with fields := field :: reading.fields }) ∨
    (Text.tells ".method".toList line.piece = false ∧
      Text.tells ".end method".toList line.piece = false ∧
      (∀ field, Text.tells ".field".toList line.piece →
        Field.parse owner (Text.trim line.piece) ≠ .ok field) ∧
      ∃ diagnostics, next = { reading with diagnostics := diagnostics }) := by
  -- The directives are looked for one after the other.
  unfold readOutside at step
  rw [Line.opensMethod_eq inside, Line.closesMethod_eq inside, Line.opensField_eq inside,
    ← parse_field_trimmed, Line.trimmed_eq inside] at step
  split at step
  · next header =>
    cases step
    exact .inl ⟨header, rfl⟩
  · next noHeader =>
    split at step
    · -- A terminator without a header is refused.
      exact absurd step refuse_ne_ok
    · next noTerminator =>
      split at step
      · next said =>
        split at step
        · next field parsed =>
          cases step
          exact .inr (.inl ⟨field, said, parsed, rfl⟩)
        · next error parsed =>
          -- A declaration that cannot be read becomes a diagnostic.
          cases step
          exact .inr (.inr ⟨by simpa using noHeader, by simpa using noTerminator,
            fun field _ => by simp [parsed], _, rfl⟩)
      · next noField =>
        cases step
        exact .inr (.inr ⟨by simpa using noHeader, by simpa using noTerminator,
          fun field said => absurd said noField, _, rfl⟩)

/-- Reading to the end outside every method tells what the lines declare. -/
theorem reads_of_readLines {lines : List Line} (genuine : ∀ line ∈ lines, line ∈ Text.lines text)
    {reading last : Reading} (closed : reading.opened = none)
    (done : readLines owner reading lines = .ok last) (complete : last.opened = none) :
    ∃ fields methods, last.fields = fields.reverse ++ reading.fields ∧
      last.methods = methods.reverse ++ reading.methods ∧
      Reads owner (lines.map Line.piece) fields methods := by
  -- A header takes all lines up to its terminator with it.
  match lines with
  | [] =>
    cases done
    exact ⟨[], [], rfl, rfl, .done⟩
  | line :: rest =>
    have member := genuine line (by simp)
    rw [readLines_outside closed, bind_eq_ok] at done
    obtain ⟨next, step, done⟩ := done
    have genuine' : ∀ other ∈ rest, other ∈ Text.lines text := fun other inside =>
      genuine other (by simp [inside])
    rcases readOutside_ok member step with ⟨header, rfl⟩ | ⟨field, said, parsed, rfl⟩ |
      ⟨noHeader, noTerminator, noField, diagnostics, rfl⟩
    · obtain ⟨inside, terminator, rest', method, rfl, between, closes, parsed, done⟩ :=
        exists_of_readInside genuine' rfl done complete
      obtain ⟨fields, methods, sameFields, sameMethods, others⟩ := reads_of_readLines
        (fun other inside => genuine' other (by simp [inside])) rfl done complete
      refine ⟨fields, method :: methods, sameFields, by simpa using sameMethods, ?_⟩
      rw [← parse_method_trimmed, Line.trimmed_eq member] at parsed
      rw [List.map_cons, List.map_append, List.map_cons]
      exact .method header between closes (by simpa using parsed) others
    · -- A field stands before those that are read behind it.
      obtain ⟨fields, methods, sameFields, sameMethods, others⟩ :=
        reads_of_readLines genuine' (by exact closed) done complete
      exact ⟨field :: fields, methods, by simpa using sameFields, sameMethods,
        .field said parsed others⟩
    · -- A line that declares nothing may leave a diagnostic behind, and no member.
      obtain ⟨fields, methods, sameFields, sameMethods, others⟩ :=
        reads_of_readLines genuine' (by exact closed) done complete
      exact ⟨fields, methods, sameFields, sameMethods,
        .plain noHeader noTerminator noField others⟩
termination_by lines.length

/-- A line that opens no method, closes none and declares no field leaves only diagnostics. -/
theorem readOutside_plain {line : Line} (inside : line ∈ Text.lines text)
    (noHeader : Text.tells ".method".toList line.piece = false)
    (noTerminator : Text.tells ".end method".toList line.piece = false)
    (noField : ∀ field, Text.tells ".field".toList line.piece →
      Field.parse owner (Text.trim line.piece) ≠ .ok field) (reading : Reading) :
    ∃ diagnostics, readOutside owner reading line =
      .ok { reading with diagnostics := diagnostics } := by
  -- A field that is not read leaves one.
  unfold readOutside
  rw [Line.opensMethod_eq inside, noHeader, Line.closesMethod_eq inside, noTerminator,
    Line.opensField_eq inside, ← parse_field_trimmed, Line.trimmed_eq inside,
    if_neg Bool.false_ne_true, if_neg Bool.false_ne_true]
  split
  · next said =>
    split
    · next field parsed => exact absurd parsed (noField field said)
    · exact ⟨_, rfl⟩
  · exact ⟨_, rfl⟩

/-- A line that declares a field adds it to what has been read. -/
theorem readOutside_field {line : Line} (inside : line ∈ Text.lines text) {field : Field}
    (said : Text.tells ".field".toList line.piece)
    (parsed : Field.parse owner (Text.trim line.piece) = .ok field) (reading : Reading) :
    readOutside owner reading line = .ok { reading with fields := field :: reading.fields } := by
  -- It says no other directive.
  unfold readOutside
  rw [Line.opensMethod_eq inside, Text.tells_other ".method".toList said (by decide),
    Line.closesMethod_eq inside, Text.tells_other ".end method".toList said (by decide),
    Line.opensField_eq inside, ← parse_field_trimmed, Line.trimmed_eq inside, parsed,
    if_neg Bool.false_ne_true, if_neg Bool.false_ne_true, if_pos said]

/-- A terminator adds the method before it to what has been read. -/
theorem readInside_terminator {header line : Line} (inside : line ∈ Text.lines text)
    (inside' : header ∈ Text.lines text) {method : Method} {pieces : List Text}
    (closes : Text.tells ".end method".toList line.piece)
    (parsed : Method.parse owner (Text.trim header.piece) pieces.reverse.flatten = .ok method)
    (reading : Reading) :
    readInside owner reading ⟨header, pieces⟩ line =
      .ok { reading with opened := none, methods := method :: reading.methods } := by
  -- It opens no other method.
  rw [← Line.trimmed_eq inside', parse_method_trimmed] at parsed
  unfold readInside
  rw [Line.opensMethod_eq inside, Text.tells_other ".method".toList closes (by decide),
    Line.closesMethod_eq inside, if_neg Bool.false_ne_true, if_pos closes]
  simp only [parsed]
  rfl

/-- Lines behind a header that do not close the method join its body. -/
theorem readLines_append {inside rest : List Line}
    (genuine : ∀ line ∈ inside, line ∈ Text.lines text)
    (between : Inside (inside.map Line.piece)) {reading : Reading} {method : OpenMethod}
    (opened : reading.opened = some method) :
    readLines owner reading (inside ++ rest) =
      readLines owner { reading with opened := some ⟨method.header,
        (inside.map Line.piece).reverse ++ method.pieces⟩ } rest := by
  -- Each line is put before those that the body already has.
  induction inside generalizing reading method with
  | nil =>
    obtain ⟨opened', fields, methods, diagnostics⟩ := reading
    cases opened
    rfl
  | cons line others ih =>
    have member := genuine line (by simp)
    obtain ⟨noHeader, noTerminator⟩ := between line.piece (by simp)
    rw [← Line.opensMethod_eq member] at noHeader
    rw [← Line.closesMethod_eq member] at noTerminator
    -- A line that is no bracket joins the body.
    have step : readInside owner reading method line = .ok { reading with
        opened := some ⟨method.header, line.piece :: method.pieces⟩ } := by
      simp only [readInside, noHeader, noTerminator, Bool.false_eq_true, if_false]
    rw [List.cons_append, readLines_inside opened, step]
    have onward := @ih (fun other inside => genuine other (by simp [inside]))
      (fun piece inside => between piece (by simp [inside]))
      { reading with opened := some ⟨method.header, line.piece :: method.pieces⟩ } _ rfl
    refine Eq.trans onward ?_
    simp

/-- What lines declare is read from them. -/
theorem readLines_of_reads {pieces : List Text} {fields : List Field} {methods : List Method}
    (reads : Reads owner pieces fields methods) {lines : List Line}
    (genuine : ∀ line ∈ lines, line ∈ Text.lines text) (same : lines.map Line.piece = pieces)
    {reading : Reading} (closed : reading.opened = none) :
    ∃ last, readLines owner reading lines = .ok last ∧ last.opened = none ∧
      last.fields = fields.reverse ++ reading.fields ∧
      last.methods = methods.reverse ++ reading.methods := by
  -- The lines are read in the way in which they declare.
  induction reads generalizing lines reading with
  | done =>
    rw [List.map_eq_nil_iff] at same
    subst same
    exact ⟨reading, rfl, closed, rfl, rfl⟩
  | @plain piece rest fields methods noHeader noTerminator noField others ih =>
    obtain ⟨line, lines, rfl, rfl, behind⟩ := List.map_eq_cons_iff.1 same
    -- The line may be a declaration that cannot be read, which leaves a diagnostic.
    obtain ⟨diagnostics, step⟩ :=
      readOutside_plain (genuine line (by simp)) noHeader noTerminator noField reading
    obtain ⟨last, read, complete, inFields, inMethods⟩ := @ih _
      (fun other inside => genuine other (by simp [inside])) behind
      { reading with diagnostics := diagnostics } closed
    refine ⟨last, ?_, complete, inFields, inMethods⟩
    rw [readLines_outside closed, step]
    exact read
  | @field piece field rest fields methods said parsed others ih =>
    obtain ⟨line, lines, rfl, rfl, behind⟩ := List.map_eq_cons_iff.1 same
    have step := readOutside_field (genuine line (by simp)) said parsed reading
    obtain ⟨last, read, complete, inFields, inMethods⟩ := @ih _
      (fun other inside => genuine other (by simp [inside])) behind
      { reading with fields := field :: reading.fields } closed
    refine ⟨last, ?_, complete, by simp [inFields], inMethods⟩
    rw [readLines_outside closed, step]
    exact read
  | @method header terminator inside rest method fields methods opened between closes parsed
      others ih =>
    obtain ⟨line, lines, rfl, rfl, behind⟩ := List.map_eq_cons_iff.1 same
    obtain ⟨body, ending, rfl, rfl, after⟩ := List.map_eq_append_iff.1 behind
    obtain ⟨final, lines, rfl, rfl, last⟩ := List.map_eq_cons_iff.1 after
    have member := genuine line (by simp)
    have step : readOutside owner reading line =
        .ok { reading with opened := some ⟨line, []⟩ } := by
      rw [readOutside, Line.opensMethod_eq member, if_pos opened]
    -- The terminator finds the lines of the body in reverse.
    have ends := @readInside_terminator text owner line final (genuine final (by simp)) member
      method (body.map Line.piece).reverse closes (by simpa using parsed)
    obtain ⟨last, read, complete, inFields, inMethods⟩ := @ih _
      (fun other inside => genuine other (by simp [inside])) last
      { reading with opened := none, methods := method :: reading.methods } rfl
    refine ⟨last, ?_, complete, inFields, by simp [inMethods]⟩
    rw [readLines_outside closed, step]
    have genuine' : ∀ other ∈ body, other ∈ Text.lines text := fun other inside =>
      genuine other (by simp [inside])
    refine Eq.trans (readLines_append genuine' between rfl) ?_
    refine Eq.trans (readLines_inside rfl final lines) ?_
    simp only [List.append_nil, ends]
    exact read

end Lines

/-- What the first line with a directive says. -/
def firstSaying (directive : Text) (pieces : List Text) : Option Text :=
  -- Later lines with the directive do not count.
  (pieces.find? (Text.tells directive)).map Text.trim

/-- The first of some lines that opens with a directive is the first that says it. -/
theorem find_opensWith (directive : Text) (solid : Text.endsSolid directive) {text : Text}
    {lines : List Line} (genuine : ∀ line ∈ lines, line ∈ Text.lines text) :
    (lines.find? fun line => line.opensWith directive).map Line.trimmed =
      firstSaying directive (lines.map Line.piece) := by
  -- A line says what its piece says.
  have same : (lines.find? fun line => line.opensWith directive) =
      lines.find? (Text.tells directive ∘ Line.piece) :=
    List.find?_congr fun line member =>
      Line.opensWith_eq_tells directive solid (genuine line member)
  rw [firstSaying, List.find?_map, Option.map_map, same]
  cases found : lines.find? (Text.tells directive ∘ Line.piece) with
  | none => rfl
  | some line =>
    exact congrArg some (Line.trimmed_eq (genuine line (List.mem_of_find?_eq_some found)))

/-- A class text keeps the text that it was read from. -/
theorem text_of_parse {text : Text} {source : ClassText}
    (done : parse text = .ok source) : source.text = text := by
  -- The text is its first part.
  simp only [parse, bind_eq_ok, pure_eq_ok] at done
  obtain ⟨header, -, superclass, -, reading, -, rfl⟩ := done
  rfl

/-- A class text holds what is read from its text. -/
structure ReadFrom (pieces : List Text) (source : ClassText) : Prop where
  /-- The class is read from the first line that says it. -/
  header : ∃ said, firstSaying ".class".toList pieces = some said ∧
    Header.parseClass said = .ok ⟨source.modifiers, source.descriptor⟩
  /-- The superclass is read from the first line that says it. -/
  superclass : ∃ said, firstSaying ".super".toList pieces = some said ∧
    Header.parseSuper said = .ok source.superclass
  /-- The members are what the lines declare. -/
  members : Reads source.descriptor pieces source.fields source.methods

/-- A class text is what is read from its text, with nothing still to be written. -/
def Coherent (source : ClassText) : Prop :=
  -- The field declarations that were left out may stand on other lines.
  ∃ fresh, parse source.text = .ok fresh ∧ fresh.descriptor = source.descriptor ∧
    fresh.modifiers = source.modifiers ∧ fresh.superclass = source.superclass ∧
    fresh.fields = source.fields ∧ fresh.methods = source.methods

section Heads

variable {text : Text} {lines : List Line} (genuine : ∀ line ∈ lines, line ∈ Text.lines text)

include genuine

/-- The header is read from what the first of some lines with its directive says. -/
theorem readHeader_of_lines {header : ClassHeader} : readHeader lines = .ok header ↔
    ∃ said, firstSaying ".class".toList (lines.map Line.piece) = some said ∧
      Header.parseClass said = .ok header := by
  -- The reader of headers trims what it reads.
  rw [← find_opensWith _ (by decide) genuine, readHeader]
  cases lines.find? fun line => line.opensWith ".class".toList with
  | none => simp
  | some line => simp [Header.parseClass, Line.trimmed]

/-- The superclass is read from what the first of some lines with its directive says. -/
theorem readSuper_of_lines {owner superclass : Text} : readSuper owner lines = .ok superclass ↔
    ∃ said, firstSaying ".super".toList (lines.map Line.piece) = some said ∧
      Header.parseSuper said = .ok superclass := by
  -- The reader of superclasses trims what it reads.
  rw [← find_opensWith _ (by decide) genuine, readSuper]
  cases lines.find? fun line => line.opensWith ".super".toList with
  | none => simp
  | some line => simp [Header.parseSuper, Line.trimmed]

end Heads

/-- The header is read from what the first line with its directive says. -/
theorem readHeader_ok {text : Text} {header : ClassHeader} :
    readHeader (Text.lines text) = .ok header ↔
      ∃ said, firstSaying ".class".toList (Text.pieces text) = some said ∧
        Header.parseClass said = .ok header := by
  -- The lines of the text are its pieces.
  rw [← Text.map_piece_lines]
  exact readHeader_of_lines fun _ => id

/-- The superclass is read from what the first line with its directive says. -/
theorem readSuper_ok {text owner superclass : Text} :
    readSuper owner (Text.lines text) = .ok superclass ↔
      ∃ said, firstSaying ".super".toList (Text.pieces text) = some said ∧
        Header.parseSuper said = .ok superclass := by
  -- The lines of the text are its pieces.
  rw [← Text.map_piece_lines]
  exact readSuper_of_lines fun _ => id

/-- Members are read when every method is closed. -/
theorem readMembers_ok {owner : Text} {lines : List Line} {reading : Reading} :
    readMembers owner lines = .ok reading ↔
      readLines owner ⟨none, [], [], []⟩ lines = .ok reading ∧ reading.opened = none := by
  -- A method that is open at the end is refused.
  unfold readMembers
  cases readLines owner ⟨none, [], [], []⟩ lines with
  | error error => simp
  | ok last =>
    cases opened : last.opened with
    | none =>
      simp only [opened, Except.ok.injEq]
      exact ⟨fun same => ⟨same, same ▸ opened⟩, And.left⟩
    | some method =>
      simp only [opened, refuse_ne_ok, Except.ok.injEq, false_iff, not_and]
      rintro rfl
      simp [opened]

/-- A class text is coherent exactly when it holds what its lines tell. -/
theorem coherent_iff {source : ClassText} :
    source.Coherent ↔ ReadFrom (Text.pieces source.text) source := by
  -- The header, the superclass and the members are read one after the other.
  have genuine : ∀ line ∈ Text.lines source.text, line ∈ Text.lines source.text := fun _ => id
  constructor
  · rintro ⟨fresh, parsed, descriptor, modifiers, superclass, fields, methods⟩
    simp only [parse, bind_eq_ok, pure_eq_ok] at parsed
    obtain ⟨header, header', superclass', super', reading, members, rfl⟩ := parsed
    simp only at descriptor modifiers superclass fields methods
    obtain ⟨read, complete⟩ := readMembers_ok.1 members
    obtain ⟨fields', methods', sameFields, sameMethods, reads⟩ :=
      reads_of_readLines genuine rfl read complete
    rw [sameFields, List.append_nil, List.reverse_reverse] at fields
    rw [sameMethods, List.append_nil, List.reverse_reverse] at methods
    rw [Text.map_piece_lines, descriptor, fields, methods] at reads
    refine ⟨?_, superclass ▸ readSuper_ok.1 super', reads⟩
    rw [← descriptor, ← modifiers]
    exact readHeader_ok.1 header'
  · rintro ⟨header, superclass, members⟩
    obtain ⟨reading, read, complete, sameFields, sameMethods⟩ :=
      readLines_of_reads members genuine (Text.map_piece_lines _)
        (show (Reading.mk none [] [] []).opened = none from rfl)
    -- Only the diagnostics are not told by what the lines declare.
    refine ⟨⟨source.text, source.descriptor, source.modifiers, source.superclass,
      reading.fields.reverse, reading.methods.reverse, reading.diagnostics.reverse⟩, ?_, rfl, rfl,
      rfl, by simp [sameFields], by simp [sameMethods]⟩
    simp only [parse, bind_eq_ok, pure_eq_ok]
    exact ⟨_, readHeader_ok.2 header, _, readSuper_ok.2 superclass, reading,
      readMembers_ok.2 ⟨read, complete⟩, rfl⟩

end ClassText

end Smali
