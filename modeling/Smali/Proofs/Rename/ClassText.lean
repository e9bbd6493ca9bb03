import Smali.Proofs.ClassText.Members
import Smali.Proofs.Pairing
import Smali.Proofs.Rename.Members
import Smali.Proofs.Text.Linewise

/-! A class text is read alike before and after one class is replaced by another. -/

namespace Smali

/-- What a line becomes when one class is replaced by another. -/
structure Line.Renamed (old new : Text) (line renamed : Line) : Prop where
  /-- The line keeps its number. -/
  number : renamed.number = line.number
  /-- The content is replaced. -/
  content : renamed.content = Text.replace old new line.content
  /-- The piece is replaced. -/
  piece : renamed.piece = Text.replace old new line.piece

namespace ClassText

/-- What a class text becomes when one class is replaced by another. -/
structure Renamed (old new : Text) (source renamed : ClassText) : Prop where
  /-- The text is replaced. -/
  text : renamed.text = Text.replace old new source.text
  /-- The class is replaced. -/
  descriptor : renamed.descriptor = Text.replace old new source.descriptor
  /-- The modifiers are replaced one by one. -/
  modifiers : renamed.modifiers = source.modifiers.map (Text.replace old new)
  /-- The superclass is replaced. -/
  superclass : renamed.superclass = Text.replace old new source.superclass
  /-- The fields are replaced one by one. -/
  fields : List.Forall₂ (Field.Renamed old new) source.fields renamed.fields
  /-- The methods are replaced one by one. -/
  methods : List.Forall₂ (Method.Renamed old new) source.methods renamed.methods
  /-- The lines that were left out are the same. -/
  diagnostics : renamed.diagnostics.map Diagnostic.line = source.diagnostics.map Diagnostic.line

/-- What an open method becomes when one class is replaced by another. -/
structure OpenMethod.Renamed (old new : Text) (method renamed : OpenMethod) : Prop where
  /-- The header is replaced. -/
  header : method.header.Renamed old new renamed.header
  /-- The pieces are replaced one by one. -/
  pieces : renamed.pieces = method.pieces.map (Text.replace old new)

/-- What a reading becomes when one class is replaced by another. -/
structure Reading.Renamed (old new : Text) (reading renamed : Reading) : Prop where
  /-- A method is open in both readings or in neither. -/
  opened : Option.Rel (OpenMethod.Renamed old new) reading.opened renamed.opened
  /-- The fields are replaced one by one. -/
  fields : List.Forall₂ (Field.Renamed old new) reading.fields renamed.fields
  /-- The methods are replaced one by one. -/
  methods : List.Forall₂ (Method.Renamed old new) reading.methods renamed.methods
  /-- The lines that were left out are the same. -/
  diagnostics : renamed.diagnostics.map Diagnostic.line = reading.diagnostics.map Diagnostic.line

/-- The pieces of the open method in order. -/
def Reading.pieces (reading : Reading) : List Text :=
  -- Without an open method there are none.
  match reading.opened with
  | some method => method.pieces.reverse
  | none => []

end ClassText

namespace Renames

variable {old new : Text}

/-- A plain descriptor is replaced line by line. -/
theorem linewise (renames : Renames old new) : Text.Linewise (Text.replace old new) where
  -- The ends of lines are marks.
  nil := Text.replace_nil old new
  ne_nil nonempty := by simp [renames.replace_eq_nil, nonempty]
  feed := renames.replace_mark (by decide)
  single absent member := absent ((renames.mem_replace (by decide) _).1 member)
  carriage front := by rw [renames.replace_mark (by decide), Text.replace_nil]
  final _ last := by rwa [renames.getLast?_replace] at last

/-- The lines of a text are replaced one by one, and keep their numbers. -/
theorem lines_replace (renames : Renames old new) (text : Text) :
    List.Forall₂ (Line.Renamed old new) (Text.lines text)
      (Text.lines (Text.replace old new text)) := by
  -- Only the offsets of the lines change.
  exact (renames.linewise.lines text).imp fun _ _ here => ⟨here.number, here.content, here.piece⟩

/-- A line opens with the same directives as what it becomes. -/
theorem opensWith_replace (renames : Renames old new) {line renamed : Line}
    (here : line.Renamed old new renamed) {directive : Text}
    (letter : 'L' ∉ directive) (solid : Text.endsSolid directive) :
    renamed.opensWith directive = line.opensWith directive := by
  -- Whether a blank follows the directive stays the same.
  rw [Line.opensWith_eq_opens directive solid, Line.opensWith_eq_opens directive solid,
    Line.trimmed, here.content, renames.trim_replace, Text.opens,
    renames.afterPrefix?_replace letter, Text.opens, ← Line.trimmed]
  cases Text.afterPrefix? directive line.trimmed with
  | none => rfl
  | some behind =>
    cases behind with
    | nil => rfl
    | cons c rest =>
      obtain ⟨others, same⟩ : ∃ others, Text.replace old new (c :: rest) = c :: others :=
        List.head?_eq_some_iff.1 (renames.head?_replace (c :: rest))
      simp [same]

open ClassText (OpenMethod Reading readOutside readInside readLines readMembers readHeader
  readSuper)

/-- A line outside every method is read alike. -/
theorem readOutside_replace (renames : Renames old new) (owner owner' : Text)
    {reading renamed : Reading} (same : reading.Renamed old new renamed) {line line' : Line}
    (here : line.Renamed old new line') :
    Alike (fun next next' => next.Renamed old new next' ∧
        (next.opened = reading.opened ∨ next.opened = some ⟨line, []⟩))
      (readOutside owner reading line) (readOutside owner' renamed line') := by
  -- The line opens with the same directive in both cases.
  unfold ClassText.readOutside
  rw [renames.opensWith_replace here (by decide) (by decide),
    renames.opensWith_replace here (by decide) (by decide),
    renames.opensWith_replace here (by decide) (by decide), here.content]
  split
  · exact .done ⟨{ same with opened := .some ⟨here, rfl⟩ }, .inr rfl⟩
  · split
    · exact .refused _ _
    · split
      · have read := renames.parseField_replace owner owner' line.content
        generalize Field.parse owner line.content = attempt at read ⊢
        generalize Field.parse owner' (Text.replace old new line.content) = attempt' at read ⊢
        cases read with
        | done field => exact .done ⟨{ same with fields := .cons field same.fields }, .inl rfl⟩
        | failed error error' =>
          exact .done ⟨{ same with diagnostics := by simp [same.diagnostics, here.number] },
            .inl rfl⟩
      · exact .done ⟨same, .inl rfl⟩

/-- A line behind the header of a method is read alike. -/
theorem readInside_replace (renames : Renames old new) (owner owner' : Text)
    {reading renamed : Reading} (same : reading.Renamed old new renamed)
    {method method' : OpenMethod} (open' : method.Renamed old new method') {line line' : Line}
    (here : line.Renamed old new line')
    (closed : method.pieces.reverse.Pairwise fun piece _ => Text.Closed piece) :
    Alike (fun next next' => next.Renamed old new next' ∧
        (next.opened = none ∨ next.opened = some ⟨method.header, line.piece :: method.pieces⟩))
      (readInside owner reading method line) (readInside owner' renamed method' line') := by
  -- The body is replaced piece by piece.
  unfold ClassText.readInside
  rw [renames.opensWith_replace here (by decide) (by decide),
    renames.opensWith_replace here (by decide) (by decide), open'.header.content]
  split
  · -- A second header inside of a method is refused in both texts.
    exact .refused _ _
  · split
    · -- The method ends here, so that its pieces make up the body.
      have body : method'.pieces.reverse.flatten =
          Text.replace old new method.pieces.reverse.flatten := by
        rw [open'.pieces, ← List.map_reverse, renames.linewise.flatten closed]
      have read := (renames.parseMethod_replace owner owner' method.header.content
        method.pieces.reverse.flatten).concerning owner owner'
      rw [body]
      generalize concerning owner (Method.parse owner method.header.content
        method.pieces.reverse.flatten) = attempt at read ⊢
      generalize concerning owner' (Method.parse owner' (Text.replace old new
        method.header.content) (Text.replace old new method.pieces.reverse.flatten)) = attempt'
        at read ⊢
      cases read with
      | done complete =>
        exact .done ⟨⟨.none, same.fields, .cons complete same.methods, same.diagnostics⟩, .inl rfl⟩
      | failed error error' => exact .failed _ _
    · -- The body goes on with this line.
      exact .done ⟨{ same with
        opened := .some ⟨open'.header, by simp [open'.pieces, here.piece]⟩ }, .inr rfl⟩

/-- Lines are read alike, as long as only the last of them may be open. -/
theorem readLines_replace (renames : Renames old new) (owner owner' : Text)
    {lines lines' : List Line} (replaced : List.Forall₂ (Line.Renamed old new) lines lines')
    {reading renamed : Reading} (same : reading.Renamed old new renamed)
    (closed : (reading.pieces ++ lines.map Line.piece).Pairwise fun piece _ =>
      Text.Closed piece) :
    Alike (Reading.Renamed old new) (readLines owner reading lines)
      (readLines owner' renamed lines') := by
  -- Each line is read from what the lines before it have left.
  induction replaced generalizing reading renamed with
  | nil => exact .done same
  | @cons line line' rest rest' here _ ih =>
    have opened := same.opened
    cases before : reading.opened with
    | none =>
      rw [before] at opened
      cases after : renamed.opened with
      | some method => rw [after] at opened; cases opened
      | none =>
        -- Outside of a method the line may open one, which has no pieces yet.
        rw [ClassText.readLines_outside before, ClassText.readLines_outside after]
        refine (renames.readOutside_replace owner owner' same here).bind fun next next' both => ?_
        refine ih both.1 (List.Pairwise.sublist ?_ closed)
        have nothing : next.pieces = [] := by
          rcases both.2 with kept | started
          · rw [Reading.pieces, kept, before]
          · rw [Reading.pieces, started]
            rfl
        rw [nothing, List.nil_append, List.map_cons]
        exact (List.sublist_cons_self _ _).trans (List.sublist_append_right _ _)
    | some method =>
      rw [before] at opened
      cases after : renamed.opened with
      | none => rw [after] at opened; cases opened
      | some method' =>
        rw [after] at opened
        have pieces : reading.pieces = method.pieces.reverse := by rw [Reading.pieces, before]
        rw [pieces] at closed
        rw [ClassText.readLines_inside before, ClassText.readLines_inside after]
        cases opened with
        -- The pieces that have been collected are those of the lines before.
        | some open' =>
          refine (renames.readInside_replace owner owner' same open' here
            (List.pairwise_append.1 closed).1).bind fun next next' both => ?_
          refine ih both.1 ?_
          rcases both.2 with ended | onward
          · rw [Reading.pieces, ended]
            exact (List.pairwise_cons.1 (List.pairwise_append.1 closed).2.1).2
          · rw [Reading.pieces, onward]
            simpa using closed

/-- The members of a class are read alike. -/
theorem readMembers_replace (renames : Renames old new) (owner owner' text : Text) :
    Alike (Reading.Renamed old new) (readMembers owner (Text.lines text))
      (readMembers owner' (Text.lines (Text.replace old new text))) := by
  -- In the beginning nothing has been read.
  -- A method is open at the end in both cases or in neither.
  have start : ({} : Reading).Renamed old new {} := ⟨.none, .nil, .nil, rfl⟩
  have closed : (({} : Reading).pieces ++ (Text.lines text).map Line.piece).Pairwise
      fun piece _ => Text.Closed piece := by
    rw [Text.map_piece_lines]
    exact Text.pieces_pairwise text
  have read := renames.readLines_replace owner owner' (renames.lines_replace text) start closed
  unfold ClassText.readMembers
  generalize readLines owner {} (Text.lines text) = attempt at read ⊢
  generalize readLines owner' {} (Text.lines (Text.replace old new text)) = attempt' at read ⊢
  cases read with
  | failed error error' => exact .failed _ _
  | @done reading renamed same =>
    have opened := same.opened
    cases before : reading.opened with
    | none =>
      cases after : renamed.opened with
      | none =>
        simp only [before, after]
        exact .done same
      | some method => rw [before, after] at opened; cases opened
    | some method =>
      cases after : renamed.opened with
      | none => rw [before, after] at opened; cases opened
      | some method' =>
        simp only [before, after]
        exact .refused _ _

/-- A class text is read alike before and after the replacement. -/
theorem parse_replace (renames : Renames old new) (text : Text) :
    Alike (ClassText.Renamed old new) (ClassText.parse text)
      (ClassText.parse (Text.replace old new text)) := by
  -- The header, the superclass and the members are read one after the other.
  -- The first line with a directive stays the first one with it.
  have found (directive : Text) (letter : 'L' ∉ directive) (solid : Text.endsSolid directive) :=
    (renames.lines_replace text).find? (fun line => line.opensWith directive)
      (fun line => line.opensWith directive) fun line line' here =>
        (renames.opensWith_replace here letter solid).symm
  have header : Alike (ClassHeader.Renamed old new) (readHeader (Text.lines text))
      (readHeader (Text.lines (Text.replace old new text))) := by
    have first := found ".class".toList (by decide) (by decide)
    unfold ClassText.readHeader
    generalize (Text.lines text).find? _ = line at first ⊢
    generalize (Text.lines (Text.replace old new text)).find? _ = line' at first ⊢
    cases first with
    | none => exact .refused _ _
    | some here =>
      simp only [here.content]
      exact renames.parseClass_replace _
  have superclass (owner owner' : Text) : Alike (fun before after =>
      after = Text.replace old new before) (readSuper owner (Text.lines text))
      (readSuper owner' (Text.lines (Text.replace old new text))) := by
    have first := found ".super".toList (by decide) (by decide)
    unfold ClassText.readSuper
    generalize (Text.lines text).find? _ = line at first ⊢
    generalize (Text.lines (Text.replace old new text)).find? _ = line' at first ⊢
    cases first with
    | none => exact .refused _ _
    | some here =>
      simp only [here.content]
      exact (renames.parseSuper_replace _).concerning _ _
  refine header.bind fun before after named => ?_
  refine (superclass _ _).bind fun above above' same => ?_
  refine (renames.readMembers_replace _ _ text).bind fun reading reading' members => ?_
  exact .done ⟨rfl, named.descriptor, named.modifiers, same, List.rel_reverse members.fields,
    List.rel_reverse members.methods, by simp [members.diagnostics]⟩

end Renames

end Smali
