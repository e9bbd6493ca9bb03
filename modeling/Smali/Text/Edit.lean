import Smali.Error

/-! Edits collected for a text are kept apart from each other and made all at once. -/

namespace Smali

/-- A replacement for the part of a text in a span. -/
structure Edit where
  /-- What is replaced. -/
  span : Span
  /-- What takes its place. -/
  replacement : Text
  deriving DecidableEq, Repr

/-- Two spans share a byte. -/
def Span.overlaps (left right : Span) : Bool :=
  -- Each begins before the other ends.
  left.start < right.stop && right.start < left.stop

/-- Edits for one text, in order, none of them empty and no two sharing a byte. -/
structure EditList where
  /-- The edits from the start of the text to its end. -/
  edits : List Edit
  /-- Every edit covers at least one byte. -/
  nonempty : ∀ edit ∈ edits, edit.span.start < edit.span.stop
  /-- An edit ends before any later one begins. -/
  ordered : edits.Pairwise fun earlier later => earlier.span.stop ≤ later.span.start

namespace EditList

/-- No edits at all. -/
def empty : EditList :=
  -- There is nothing to keep apart.
  ⟨[], by simp, .nil⟩

/-- Puts an edit in front of the first one that begins where it ends or later. -/
def insertEdit (edit : Edit) : List Edit → List Edit
  -- Earlier edits are passed over.
  | [] => [edit]
  | first :: rest =>
    if edit.span.stop ≤ first.span.start then edit :: first :: rest
    else first :: insertEdit edit rest

/-- Inserting an edit adds that edit and nothing else. -/
theorem mem_insertEdit {edit other : Edit} {edits : List Edit} :
    other ∈ insertEdit edit edits ↔ other = edit ∨ other ∈ edits := by
  -- Each step keeps the edit it passes.
  induction edits with
  | nil => simp [insertEdit]
  | cons first rest ih =>
    by_cases before : edit.span.stop ≤ first.span.start
    · simp [insertEdit, before]
    · simp [insertEdit, before, ih, or_left_comm]

/-- Inserting an edit that shares no byte with the others keeps the order. -/
theorem pairwise_insertEdit {edit : Edit} {edits : List Edit}
    (covers : edit.span.start < edit.span.stop)
    (nonempty : ∀ other ∈ edits, other.span.start < other.span.stop)
    (ordered : edits.Pairwise fun earlier later => earlier.span.stop ≤ later.span.start)
    (apart : ∀ other ∈ edits, other.span.overlaps edit.span = false) :
    (insertEdit edit edits).Pairwise fun earlier later =>
      earlier.span.stop ≤ later.span.start := by
  -- An edit that is passed over ends before the new one begins.
  induction edits with
  | nil => simp [insertEdit]
  | cons first rest ih =>
    have separate := apart first (by simp)
    have positive := nonempty first (by simp)
    simp only [Span.overlaps, Bool.and_eq_false_iff, decide_eq_false_iff_not] at separate
    rw [List.pairwise_cons] at ordered
    -- The new edit comes before the first one, or it is inserted behind that.
    by_cases before : edit.span.stop ≤ first.span.start
    · simp only [insertEdit, before, if_true, List.pairwise_cons]
      refine ⟨fun other member => ?_, ordered⟩
      rcases List.mem_cons.1 member with same | later
      · exact same ▸ before
      · have := ordered.1 other later
        omega
    · simp only [insertEdit, before, if_false, List.pairwise_cons]
      refine ⟨fun other member => ?_, ih (fun other member => nonempty other (by simp [member]))
        ordered.2 (fun other member => apart other (by simp [member]))⟩
      rcases mem_insertEdit.1 member with same | later
      · subst same; omega
      · exact ordered.1 other later

/-- Adds an edit, which must cover a byte and share none with an earlier one. -/
def push (span : Span) (replacement : Text) (list : EditList) : Except Error EditList :=
  -- An empty span is refused first.
  if covers : span.start < span.stop then
    if apart : list.edits.all fun edit => !edit.span.overlaps span then
      .ok {
        edits := insertEdit ⟨span, replacement⟩ list.edits
        nonempty := fun edit member => by
          rcases mem_insertEdit.1 member with same | earlier
          · exact same ▸ covers
          · exact list.nonempty edit earlier
        ordered := pairwise_insertEdit covers list.nonempty list.ordered (by simpa using apart) }
    else refuse (.editOverlaps span)
  else refuse (.emptyEdit span)

/-- A span lies inside a text and its ends are boundaries between characters. -/
def fits (text : Text) (span : Span) : Bool :=
  -- Both cuts have to be possible.
  (Text.slice span text).isSome

/-- Makes ordered edits in the rest of a text that begins at an offset. -/
def substituteFrom (offset : Nat) : List Edit → Text → Text
  -- What lies before an edit is kept, and what the edit covers is passed over.
  | [], rest => rest
  | edit :: later, rest =>
    match Text.splitAtByte (edit.span.start - offset) rest with
    | none => rest
    | some (kept, covered) =>
      match Text.splitAtByte (edit.span.stop - edit.span.start) covered with
      | none => rest
      | some (_, behind) =>
        kept ++ edit.replacement ++ substituteFrom edit.span.stop later behind

/-- Makes all edits at once. -/
def apply (text : Text) (list : EditList) : Except Error Text :=
  -- Of several edits that do not fit, the last in the text is reported.
  match list.edits.reverse.find? fun edit => !fits text edit.span with
  | some edit => refuse (.editOutside edit.span)
  | none => .ok (substituteFrom 0 list.edits text)

end EditList

end Smali
