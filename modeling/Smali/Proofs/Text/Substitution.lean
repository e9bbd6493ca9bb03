import Smali.Text.Edit

/-! Edits cut a text into kept and edited parts, and making them replaces the edited parts alone. -/

namespace Smali

namespace Text

/-- Of two beginnings of a text the one with fewer bytes is the beginning of the other. -/
theorem prefix_of_byteLength_le {shorter longer text : Text} (first : shorter <+: text)
    (second : longer <+: text) (length : byteLength shorter ≤ byteLength longer) :
    shorter <+: longer := by
  -- Were it the other way round, nothing could stand behind the longer one.
  rcases List.prefix_or_prefix_of_prefix first second with beginning | ⟨rest, rfl⟩
  · exact beginning
  · cases rest with
    | nil => simp
    | cons c rest =>
      have positive := c.utf8Size_pos
      simp only [byteLength_append, byteLength_cons] at length
      omega

end Text

/-- A part of a text that either stays or gives way to something else. -/
inductive Part where
  /-- The part stays as it is. -/
  | kept (text : Text)
  /-- Another text takes the place of the part. -/
  | edited (old new : Text)
  deriving DecidableEq, Repr

/-- A replacement of what stands behind a given beginning of a text. -/
structure Replacement where
  /-- All that stands before it. -/
  before : Text
  /-- What is replaced. -/
  old : Text
  /-- What takes its place. -/
  new : Text
  deriving DecidableEq, Repr

namespace Part

/-- The part as it was. -/
def old : Part → Text
  -- An edited part remembers what it was.
  | kept text => text
  | edited old _ => old

/-- The part as it is afterwards. -/
def new : Part → Text
  -- Only an edited part has changed.
  | kept text => text
  | edited _ new => new

/-- The replacements that parts behind a beginning stand for, in order. -/
def replacements (before : Text) : List Part → List Replacement
  -- Each part is put behind all the parts before it, as they were.
  | [] => []
  | kept text :: rest => replacements (before ++ text) rest
  | edited old new :: rest => ⟨before, old, new⟩ :: replacements (before ++ old) rest

/-- The replacements of two runs of parts follow each other. -/
theorem replacements_append (before : Text) (front back : List Part) :
    replacements before (front ++ back) =
      replacements before front ++ replacements (before ++ front.flatMap Part.old) back := by
  -- The second run stands behind all of the first.
  induction front generalizing before with
  | nil => simp [replacements]
  | cons part rest ih =>
    cases part with
    | kept text => simp [replacements, ih, Part.old]
    | edited old new => simp [replacements, ih, Part.old]

end Part

namespace Replacement

/-- The edit that makes a replacement and writes again a text that stands behind it. -/
def edit (replacement : Replacement) (again : Text) : Edit :=
  -- What is written again stays the same.
  ⟨⟨Text.byteLength replacement.before,
    Text.byteLength (replacement.before ++ replacement.old ++ again)⟩, replacement.new ++ again⟩

/-- What is replaced and what is written again stand in a text behind the beginning. -/
def Fits (text : Text) (replacement : Replacement) (again : Text) : Prop :=
  -- All three together are a beginning of the text.
  replacement.before ++ replacement.old ++ again <+: text

/-- The edit of what stands in a text fits into it. -/
theorem Fits.fits {text again : Text} {replacement : Replacement}
    (stands : replacement.Fits text again) :
    EditList.fits text (replacement.edit again).span := by
  -- Both ends are between the parts.
  obtain ⟨behind, rfl⟩ := stands
  have start : Text.splitAtByte (Text.byteLength replacement.before)
      (replacement.before ++ replacement.old ++ again) =
      some (replacement.before, replacement.old ++ again) := by
    rw [List.append_assoc, Text.splitAtByte_append]
  rw [EditList.fits, Text.slice, Replacement.edit]
  dsimp only
  rw [Text.splitAtByte_append]
  dsimp only
  rw [start]
  rfl

end Replacement

/-- The edits of parts are in the order of the text. -/
theorem Part.pairwise_replacements (before : Text) (parts : List Part) :
    (∀ edit ∈ (Part.replacements before parts).map fun item => item.edit [],
        Text.byteLength before ≤ edit.span.start) ∧
      ((Part.replacements before parts).map fun item => item.edit []).Pairwise
        fun earlier later => earlier.span.stop ≤ later.span.start := by
  -- Each part is put behind those before it.
  induction parts generalizing before with
  | nil => exact ⟨by simp [Part.replacements], .nil⟩
  | cons part rest ih =>
    cases part with
    | kept text =>
      obtain ⟨begin', ordered⟩ := ih (before ++ text)
      refine ⟨fun edit member => ?_, ordered⟩
      have later := begin' edit member
      rw [Text.byteLength_append] at later
      omega
    | edited old new =>
      obtain ⟨begin', ordered⟩ := ih (before ++ old)
      -- The next edit begins where this one ends or later.
      have stop : ((⟨before, old, new⟩ : Replacement).edit []).span.stop =
          Text.byteLength (before ++ old) := by
        simp [Replacement.edit]
      refine ⟨fun edit member => ?_, ?_⟩
      · rcases List.mem_cons.1 member with rfl | member
        · exact Nat.le_refl _
        · have later := begin' edit member
          rw [Text.byteLength_append] at later
          omega
      · rw [Part.replacements, List.map_cons, List.pairwise_cons]
        exact ⟨fun edit member => stop ▸ begin' edit member, ordered⟩

namespace EditList

/-- Inserting an edit adds it to the others. -/
theorem insertEdit_perm (edit : Edit) (edits : List Edit) :
    (insertEdit edit edits).Perm (edit :: edits) := by
  -- Only its position among them is looked for.
  induction edits with
  | nil => exact .refl _
  | cons first rest ih =>
    by_cases before : edit.span.stop ≤ first.span.start
    · simp [insertEdit, before]
    · simp only [insertEdit, before, if_false]
      exact (ih.cons first).trans (.swap edit first rest)

/-- A successful push adds the edit that was asked for. -/
theorem push_ok {span : Span} {replacement : Text} {list pushed : EditList}
    (done : list.push span replacement = .ok pushed) :
    pushed.edits.Perm (⟨span, replacement⟩ :: list.edits) := by
  -- Both checks have to pass.
  unfold push at done
  split at done
  · split at done
    · cases done
      exact insertEdit_perm _ _
    · simp [refuse] at done
  · simp [refuse] at done

/-- Edits that are made have been substituted all at once. -/
theorem apply_ok {text result : Text} {list : EditList} (done : list.apply text = .ok result) :
    result = substituteFrom 0 list.edits text := by
  -- The only failure is an edit that does not fit.
  unfold apply at done
  split at done
  · simp [refuse] at done
  · exact (Except.ok.inj done).symm

/-- Edits that all fit are made. -/
theorem exists_apply {text : Text} {list : EditList}
    (inside : ∀ edit ∈ list.edits, fits text edit.span) :
    ∃ result, list.apply text = .ok result := by
  -- There is none to be reported.
  have nothing : list.edits.reverse.find? (fun edit => !fits text edit.span) = none := by
    refine List.find?_eq_none.2 fun edit member => ?_
    simp [inside edit (List.mem_reverse.1 member)]
  unfold apply
  rw [nothing]
  exact ⟨_, rfl⟩

/-- Edits in the order of a text are those of a list, if they are the same up to their order. -/
theorem eq_of_perm {list : EditList} {ordered : List Edit} (perm : list.edits.Perm ordered)
    (pairwise : ordered.Pairwise fun earlier later => earlier.span.stop ≤ later.span.start) :
    list.edits = ordered := by
  -- No two edits that cover a byte each end before the other.
  refine List.Perm.eq_of_pairwise (fun edit edit' member member' before after => ?_)
    list.ordered pairwise perm
  have positive := list.nonempty edit member
  have positive' := list.nonempty edit' (perm.symm.subset member')
  omega

/-- What stands before the first edit is kept. -/
theorem substituteFrom_edit {start : Nat} {gap old behind : Text} {edit : Edit}
    (begins : edit.span.start = start + Text.byteLength gap)
    (ends : edit.span.stop = edit.span.start + Text.byteLength old) (later : List Edit) :
    substituteFrom start (edit :: later) (gap ++ (old ++ behind)) =
      gap ++ edit.replacement ++ substituteFrom edit.span.stop later behind := by
  -- The text is split at both ends of the edit.
  have first : edit.span.start - start = Text.byteLength gap := by omega
  have second : edit.span.stop - edit.span.start = Text.byteLength old := by omega
  rw [substituteFrom, first, Text.splitAtByte_append]
  simp only [second, Text.splitAtByte_append]

/-- Edits for ordered replacements cut the text into parts, of which they replace the edited ones
alone. -/
theorem exists_parts {text done rest : Text} (whole : text = done ++ rest)
    {planned : List (Replacement × Text)} (fits : ∀ item ∈ planned, item.1.Fits text item.2)
    (first : ∀ item ∈ planned, Text.byteLength done ≤ Text.byteLength item.1.before)
    (ordered : (planned.map fun item => item.1.edit item.2).Pairwise fun earlier later =>
      earlier.span.stop ≤ later.span.start) :
    ∃ parts : List Part, parts.flatMap Part.old = rest ∧
      parts.flatMap Part.new = substituteFrom (Text.byteLength done)
        (planned.map fun item => item.1.edit item.2) rest ∧
      Part.replacements done parts = planned.map Prod.fst := by
  -- Each replacement contributes what is kept before it, itself, and what is written again.
  induction planned generalizing done rest with
  | nil => exact ⟨[.kept rest], by simp [Part.old], by simp [Part.new, substituteFrom], rfl⟩
  | cons item later ih =>
    obtain ⟨⟨before, old, new⟩, again⟩ := item
    obtain ⟨behind, reached⟩ := fits _ (List.mem_cons_self ..)
    simp only at reached
    -- What is done comes before the replacement, because it is not longer.
    have beginning : done <+: before := by
      have second : before <+: text := ⟨old ++ again ++ behind, by rw [← reached]; simp⟩
      exact Text.prefix_of_byteLength_le ⟨rest, whole.symm⟩ second
        (first _ (List.mem_cons_self ..))
    obtain ⟨gap, rfl⟩ := beginning
    have left : rest = gap ++ ((old ++ again) ++ behind) := by
      have same : done ++ rest = done ++ (gap ++ ((old ++ again) ++ behind)) := by
        rw [← whole, ← reached]
        simp
      exact List.append_cancel_left same
    -- The other replacements go on behind what is written again.
    rw [List.map_cons, List.pairwise_cons] at ordered
    obtain ⟨parts, oldParts, newParts, replaced⟩ :=
      ih (show text = (done ++ gap ++ old ++ again) ++ behind from reached.symm)
        (fun item member => fits item (List.mem_cons_of_mem _ member))
        (fun item member => ordered.1 _ (List.mem_map_of_mem member)) ordered.2
    refine ⟨.kept gap :: .edited old new :: .kept again :: parts, ?_, ?_, ?_⟩
    · simp [Part.old, oldParts, left]
    · rw [List.map_cons, left, substituteFrom_edit (by simp [Replacement.edit])
        (by simp [Replacement.edit]; omega)]
      simp [Part.new, newParts, Replacement.edit]
    · simp only [Part.replacements, replaced, List.map_cons]

/-- Parts are what making their own replacements gives. -/
theorem substituteFrom_replacements (done gap : Text) (parts : List Part) :
    substituteFrom (Text.byteLength done)
        ((Part.replacements (done ++ gap) parts).map fun replacement => replacement.edit [])
        (gap ++ parts.flatMap Part.old) = gap ++ parts.flatMap Part.new := by
  -- Kept parts join the gap before the next replacement.
  induction parts generalizing done gap with
  | nil => simp [Part.replacements, substituteFrom]
  | cons part rest ih =>
    cases part with
    | kept text =>
      have joined := ih done (gap ++ text)
      simpa [Part.replacements, Part.old, Part.new] using joined
    | edited old new =>
      have others := ih (done ++ gap ++ old) []
      simp only [List.append_nil, List.nil_append] at others
      simp only [Part.replacements, List.map_cons, List.flatMap_cons, Part.old, Part.new]
      rw [substituteFrom_edit (by simp [Replacement.edit])
        (by simp [Replacement.edit]; omega)]
      simp only [Replacement.edit, List.append_nil] at others ⊢
      rw [others, List.append_assoc]

end EditList

end Smali
