import Smali.Proofs.Text.Substitution
import Mathlib.Data.List.Induction

/-! Edits that share no byte are made all at once, in whatever order they were asked for. -/

namespace Smali

namespace Text

/-- An offset in a text is a boundary between its characters. -/
def IsBoundary (text : Text) (offset : Nat) : Prop :=
  -- A beginning of the text ends there.
  ∃ front, front <+: text ∧ byteLength front = offset

/-- A text splits at its boundaries and nowhere else. -/
theorem isSome_splitAtByte {text : Text} {offset : Nat} :
    (splitAtByte offset text).isSome ↔ text.IsBoundary offset := by
  -- What is split off is the beginning that ends there.
  rw [Option.isSome_iff_exists]
  constructor
  · rintro ⟨⟨front, behind⟩, split⟩
    obtain ⟨whole, length⟩ := splitAtByte_eq_some.1 split
    exact ⟨front, ⟨behind, whole.symm⟩, length⟩
  · rintro ⟨front, ⟨behind, rfl⟩, rfl⟩
    exact ⟨(front, behind), splitAtByte_append front behind⟩

/-- Whether an offset is a boundary between characters can be decided. -/
instance (text : Text) (offset : Nat) : Decidable (text.IsBoundary offset) :=
  -- The text either splits there or not.
  decidable_of_iff _ isSome_splitAtByte

/-- Puts another text in the place of what a span covers. -/
def replaceSpan? (span : Span) (new text : Text) : Option Text :=
  -- The text is cut at the end of the span first, and then at its start.
  match splitAtByte span.stop text with
  | none => none
  | some (front, behind) =>
    (splitAtByte span.start front).map fun (before, _) => before ++ new ++ behind

/-- A text whose parts are known has the middle one replaced. -/
theorem replaceSpan?_append {span : Span} {before old : Text}
    (start : span.start = byteLength before) (stop : span.stop = byteLength (before ++ old))
    (new behind : Text) :
    replaceSpan? span new (before ++ old ++ behind) = some (before ++ new ++ behind) := by
  -- Both cuts are between the parts.
  rw [replaceSpan?, stop, splitAtByte_append, start]
  simp only [splitAtByte_append, Option.map_some]

end Text

namespace Span

/-- Two spans have a byte in common. -/
def SharesByte (left right : Span) : Prop :=
  -- The byte at some offset is in both.
  ∃ offset, (left.start ≤ offset ∧ offset < left.stop) ∧ right.start ≤ offset ∧ offset < right.stop

/-- Spans that cover bytes overlap exactly if they have one in common. -/
theorem overlaps_iff {left right : Span} (covers : left.start < left.stop)
    (covers' : right.start < right.stop) : left.overlaps right ↔ left.SharesByte right := by
  -- The later one of the two starts is in both.
  simp only [overlaps, Bool.and_eq_true, decide_eq_true_eq]
  constructor
  · intro both
    exact ⟨max left.start right.start, by omega, by omega⟩
  · rintro ⟨offset, inside, inside'⟩
    omega

/-- Having a byte in common goes both ways. -/
theorem SharesByte.symm {left right : Span} (shared : left.SharesByte right) :
    right.SharesByte left := by
  -- It is the same byte.
  obtain ⟨offset, inside, inside'⟩ := shared
  exact ⟨offset, inside', inside⟩

/-- Whether two spans have a byte in common can be decided. -/
instance (left right : Span) : Decidable (left.SharesByte right) :=
  -- The later start is the first byte that they can share.
  decidable_of_iff (max left.start right.start < min left.stop right.stop)
    ⟨fun room => ⟨max left.start right.start, by omega, by omega⟩,
      fun ⟨_, _, _⟩ => by omega⟩

/-- Both ends of a span are boundaries between the characters of a text. -/
def LiesIn (text : Text) (span : Span) : Prop :=
  -- Nothing is said about their order.
  text.IsBoundary span.start ∧ text.IsBoundary span.stop

/-- Whether both ends of a span are boundaries can be decided. -/
instance (text : Text) (span : Span) : Decidable (span.LiesIn text) :=
  -- The ends are looked at one by one.
  inferInstanceAs (Decidable (_ ∧ _))

end Span

/-- The edits that the parts of a text stand for. -/
def Part.edits (parts : List Part) : List Edit :=
  -- Each edit covers an edited part and nothing else.
  (Part.replacements [] parts).map fun replacement => replacement.edit []

/-- A text comes out when each edit puts its replacement in the place of what it covers, and all
else is kept. -/
def Substitutes (text : Text) (edits : List Edit) (result : Text) : Prop :=
  -- The order of the edits does not count.
  ∃ parts : List Part, parts.flatMap Part.old = text ∧ parts.flatMap Part.new = result ∧
    (Part.edits parts).Perm edits

namespace Edit

/-- An edit cannot be taken behind those that were taken before. -/
def Refused (taken : List Edit) (edit : Edit) : Prop :=
  -- It covers nothing, or what an earlier edit covers.
  edit.span.stop ≤ edit.span.start ∨ ∃ earlier ∈ taken, earlier.span.SharesByte edit.span

/-- Whether an edit is refused can be decided. -/
instance (taken : List Edit) (edit : Edit) : Decidable (edit.Refused taken) :=
  -- The earlier edits are looked at one by one.
  inferInstanceAs (Decidable (_ ∨ _))

/-- Only which edits were taken counts, and not their order. -/
theorem refused_perm {taken taken' : List Edit} (perm : taken.Perm taken') (edit : Edit) :
    edit.Refused taken ↔ edit.Refused taken' := by
  -- The same edits stand against it.
  simp only [Refused, perm.mem_iff]

/-- The edits of a sequence that are taken, in the order in which they are asked for. -/
def taken (asked : List Edit) : List Edit :=
  -- A refused edit stands against no later one.
  asked.foldl (fun earlier edit => if edit.Refused earlier then earlier else earlier ++ [edit]) []

/-- A last edit is taken unless the edits before it stand against it. -/
theorem taken_concat (asked : List Edit) (edit : Edit) :
    taken (asked ++ [edit]) =
      if edit.Refused (taken asked) then taken asked else taken asked ++ [edit] := by
  -- The edits before it are looked at first.
  rw [taken, List.foldl_append]
  rfl

/-- Only edits that are asked for are taken. -/
theorem mem_of_mem_taken {asked : List Edit} {edit : Edit} (member : edit ∈ taken asked) :
    edit ∈ asked := by
  -- Each edit that is taken is the one just asked for.
  induction asked using List.reverseRecOn with
  | nil => exact member
  | append_singleton asked last ih =>
    rw [taken_concat] at member
    split at member
    · exact List.mem_append_left _ (ih member)
    · exact (List.mem_append.1 member).elim (fun earlier => List.mem_append_left _ (ih earlier))
        (List.mem_append_right _)

/-- The edits that are taken cover bytes, and no two of them share one. -/
theorem taken_apart (asked : List Edit) :
    (∀ edit ∈ taken asked, edit.span.start < edit.span.stop) ∧
      (taken asked).Pairwise fun edit other => ¬ edit.span.SharesByte other.span := by
  -- This is what an edit is refused for.
  induction asked using List.reverseRecOn with
  | nil => exact ⟨by simp [taken], .nil⟩
  | append_singleton asked last ih =>
    rw [taken_concat]
    split
    · exact ih
    · next allowed =>
      rw [Refused, not_or, Nat.not_le] at allowed
      obtain ⟨covers, apart⟩ := allowed
      refine ⟨fun edit member => ?_, List.pairwise_append.2 ⟨ih.2, by simp, ?_⟩⟩
      · rcases List.mem_append.1 member with earlier | same
        · exact ih.1 edit earlier
        · exact List.mem_singleton.1 same ▸ covers
      · intro edit member other same shared
        exact apart ⟨edit, member, List.mem_singleton.1 same ▸ shared⟩

/-- Edits that cover bytes and share none are all taken. -/
theorem taken_eq_self {edits : List Edit}
    (covers : ∀ edit ∈ edits, edit.span.start < edit.span.stop)
    (apart : edits.Pairwise fun edit other => ¬ edit.span.SharesByte other.span) :
    taken edits = edits := by
  -- Nothing stands against any of them.
  induction edits using List.reverseRecOn with
  | nil => rfl
  | append_singleton front last ih =>
    obtain ⟨apart', -, others⟩ := List.pairwise_append.1 apart
    have same := ih (fun edit member => covers edit (List.mem_append_left _ member)) apart'
    have allowed : ¬ last.Refused front := by
      rintro (empty | ⟨earlier, member, shared⟩)
      · have := covers last (by simp)
        omega
      · exact others earlier member last (by simp) shared
    rw [taken_concat, same, if_neg allowed]

end Edit

namespace EditList

variable {list : EditList}

/-- An edit is refused if it covers nothing or shares a byte with an edit of the list, and only
then. -/
theorem push_error_iff (edit : Edit) :
    (∃ error, list.push edit.span edit.replacement = .error error) ↔ edit.Refused list.edits := by
  -- The two checks are the two reasons.
  unfold push
  by_cases covers : edit.span.start < edit.span.stop
  · have each {other : Edit} (member : other ∈ list.edits) :=
      Span.overlaps_iff (list.nonempty other member) covers
    rw [dif_pos covers, Edit.Refused, or_iff_right (by omega)]
    by_cases apart : list.edits.all fun other => !other.span.overlaps edit.span
    · rw [dif_pos apart]
      refine iff_of_false (by simp) fun ⟨other, member, shared⟩ => ?_
      have clear := List.all_eq_true.1 apart other member
      rw [(each member).2 shared] at clear
      cases clear
    · rw [dif_neg apart]
      refine iff_of_true ⟨_, rfl⟩ ?_
      obtain ⟨other, member, shared⟩ := List.all_eq_false.1 (Bool.not_eq_true _ ▸ apart)
      exact ⟨other, member, (each member).1 (by simpa using shared)⟩
  · rw [dif_neg covers]
    exact iff_of_true ⟨_, rfl⟩ (.inl (by omega))

/-- The list after an edit has been asked for; a refusal leaves it as it is. -/
def offer (list : EditList) (edit : Edit) : EditList :=
  -- The reason for a refusal is not kept.
  match list.push edit.span edit.replacement with
  | .ok pushed => pushed
  | .error _ => list

/-- A refused edit leaves the list as it is, and any other is added. -/
theorem offer_cases (list : EditList) (edit : Edit) :
    edit.Refused list.edits ∧ list.offer edit = list ∨
      ¬ edit.Refused list.edits ∧ (list.offer edit).edits.Perm (edit :: list.edits) := by
  -- The answer to the request decides.
  rw [← push_error_iff, offer]
  cases answer : list.push edit.span edit.replacement with
  | error error => exact .inl ⟨⟨error, rfl⟩, rfl⟩
  | ok pushed => exact .inr ⟨by simp, push_ok answer⟩

/-- The list after edits have been asked for one after the other. -/
def collect (asked : List Edit) : EditList :=
  -- At the start there is none.
  asked.foldl offer empty

/-- A last edit is offered to the list of those before it. -/
theorem collect_concat (asked : List Edit) (edit : Edit) :
    collect (asked ++ [edit]) = (collect asked).offer edit := by
  -- The edits before it are offered first.
  simp [collect]

/-- The list holds the edits that are taken, and no others. -/
theorem collect_perm (asked : List Edit) : (collect asked).edits.Perm (Edit.taken asked) := by
  -- An edit is refused by the list if the edits that were taken stand against it.
  induction asked using List.reverseRecOn with
  | nil => exact .refl _
  | append_singleton asked last ih =>
    rw [collect_concat, Edit.taken_concat]
    rcases offer_cases (collect asked) last with ⟨refused, same⟩ | ⟨allowed, added⟩
    · rw [same, if_pos ((Edit.refused_perm ih last).1 refused)]
      exact ih
    · rw [if_neg fun refused => allowed ((Edit.refused_perm ih last).2 refused)]
      exact added.trans ((ih.cons last).trans (List.perm_append_singleton last _).symm)

/-- A span fits into a text exactly if it covers a part of it. -/
theorem fits_iff_exists {text : Text} {span : Span} : fits text span ↔
    ∃ before old behind, text = before ++ old ++ behind ∧ span.start = Text.byteLength before ∧
      span.stop = Text.byteLength (before ++ old) := by
  -- The part is what the span holds.
  rw [fits, Option.isSome_iff_exists]
  constructor
  · rintro ⟨old, found⟩
    obtain ⟨before, behind, parts⟩ := Text.slice_eq_some.1 found
    exact ⟨before, old, behind, parts⟩
  · rintro ⟨before, old, behind, parts⟩
    exact ⟨old, Text.slice_eq_some.2 ⟨before, behind, parts⟩⟩

/-- A span that lies in a text fits into it if it does not end before it starts. -/
theorem fits_of_liesIn {text : Text} {span : Span} (lies : span.LiesIn text)
    (order : span.start ≤ span.stop) : fits text span := by
  -- The beginning up to the start is one of the beginning up to the end.
  obtain ⟨⟨before, first, start⟩, front, ⟨behind, whole⟩, stop⟩ := lies
  obtain ⟨old, rfl⟩ := Text.prefix_of_byteLength_le first ⟨behind, whole⟩ (by omega)
  exact fits_iff_exists.2 ⟨before, old, behind, whole.symm, start.symm, stop.symm⟩

/-- Makes edits one after the other, the last one first, each in the text that the ones behind it
have left. -/
def makeBackwards (text : Text) : List Edit → Except Error Text
  -- An edit has to lie in the text as it then is.
  | [] => .ok text
  | edit :: later =>
    match makeBackwards text later with
    | .error error => .error error
    | .ok made =>
      match Text.replaceSpan? edit.span edit.replacement made with
      | some result => .ok result
      | none => refuse (.editOutside edit.span)

/-- A span can be replaced exactly if it fits. -/
theorem isSome_replaceSpan? (span : Span) (new text : Text) :
    (Text.replaceSpan? span new text).isSome = fits text span := by
  -- The same cuts are made.
  unfold Text.replaceSpan? fits Text.slice
  cases Text.splitAtByte span.stop text <;> simp

/-- Whether a span fits does not depend on what stands behind it. -/
theorem fits_append {span : Span} {front : Text} (before : span.stop ≤ Text.byteLength front)
    (behind : Text) : fits (front ++ behind) span = fits front span := by
  -- All that it covers is in the front.
  rw [Bool.eq_iff_iff, fits_iff_exists, fits_iff_exists]
  constructor
  · rintro ⟨kept, old, others, whole, start, stop⟩
    obtain ⟨rest, rfl⟩ := Text.prefix_of_byteLength_le ⟨others, whole.symm⟩
      (List.prefix_append front behind) (by omega)
    exact ⟨kept, old, rest, rfl, start, stop⟩
  · rintro ⟨kept, old, rest, rfl, start, stop⟩
    exact ⟨kept, old, rest ++ behind, by simp, start, stop⟩

/-- Edits that all fit behind a beginning of a text leave that beginning as it is when they are made
backwards, and the rest comes out as if they were made at once. -/
theorem makeBackwards_append {edits : List Edit} {done rest : Text}
    (ordered : edits.Pairwise fun earlier later => earlier.span.stop ≤ later.span.start)
    (first : ∀ edit ∈ edits, Text.byteLength done ≤ edit.span.start)
    (inside : ∀ edit ∈ edits, fits (done ++ rest) edit.span) :
    makeBackwards (done ++ rest) edits =
      .ok (done ++ substituteFrom (Text.byteLength done) edits rest) := by
  -- When an edit is made, all up to its end is still as it was.
  induction edits generalizing done rest with
  | nil => rfl
  | cons edit later ih =>
    obtain ⟨before, old, behind, whole, start, stop⟩ :=
      fits_iff_exists.1 (inside edit (List.mem_cons_self ..))
    -- The edit begins behind what is done already.
    obtain ⟨gap, rfl⟩ : done <+: before :=
      Text.prefix_of_byteLength_le (List.prefix_append done rest) ⟨old ++ behind, by simp [whole]⟩
        (start ▸ first edit (List.mem_cons_self ..))
    have rest' : rest = gap ++ (old ++ behind) := by simpa using whole
    rw [List.pairwise_cons] at ordered
    -- The later edits are made first, and they leave all up to the end of this one.
    have others : makeBackwards ((done ++ gap ++ old) ++ behind) later =
        .ok (done ++ gap ++ old ++ substituteFrom edit.span.stop later behind) := by
      rw [stop]
      exact ih ordered.2 (fun other member => stop ▸ ordered.1 other member)
        fun other member => whole ▸ inside other (List.mem_cons_of_mem _ member)
    have start' : edit.span.start = Text.byteLength done + Text.byteLength gap := by
      rw [start, Text.byteLength_append]
    have stop' : edit.span.stop = edit.span.start + Text.byteLength old := by
      rw [stop, start, Text.byteLength_append]
    rw [makeBackwards, whole, others]
    simp only
    rw [Text.replaceSpan?_append start stop, rest', substituteFrom_edit start' stop']
    simp

/-- Edits that all fit come out as if they were made at once when they are made backwards. -/
theorem makeBackwards_eq {edits : List Edit} {text : Text}
    (ordered : edits.Pairwise fun earlier later => earlier.span.stop ≤ later.span.start)
    (inside : ∀ edit ∈ edits, fits text edit.span) :
    makeBackwards text edits = .ok (substituteFrom 0 edits text) := by
  -- Nothing is before them.
  have first : ∀ edit ∈ edits, Text.byteLength [] ≤ edit.span.start := fun edit _ => Nat.zero_le _
  exact makeBackwards_append ordered first inside

/-- Edits that all fit behind a span, made backwards, do not change whether the span fits. -/
theorem fits_of_makeBackwards {edits : List Edit} {text made : Text} {span : Span}
    (ordered : edits.Pairwise fun earlier later => earlier.span.stop ≤ later.span.start)
    (before : ∀ edit ∈ edits, span.stop ≤ edit.span.start)
    (inside : ∀ edit ∈ edits, fits text edit.span) (done : makeBackwards text edits = .ok made) :
    fits made span = fits text span := by
  -- All in front of the first edit stays.
  cases edits with
  | nil => rw [Except.ok.inj done]
  | cons first later =>
    obtain ⟨front, old, behind, rfl, start, stop⟩ :=
      fits_iff_exists.1 (inside first (List.mem_cons_self ..))
    rw [List.append_assoc] at inside done ⊢
    have reaches : span.stop ≤ Text.byteLength front := start ▸ before first (List.mem_cons_self ..)
    have starts : ∀ edit ∈ first :: later, Text.byteLength front ≤ edit.span.start := by
      refine List.forall_mem_cons.2 ⟨by omega, fun edit member => ?_⟩
      have := (List.pairwise_cons.1 ordered).1 edit member
      rw [Text.byteLength_append] at stop
      omega
    rw [makeBackwards_append ordered starts inside, Except.ok.injEq] at done
    rw [← done, fits_append reaches, fits_append reaches]

/-- Making all edits at once is making them one after the other from the last to the first, and the
same edit is reported if one lies outside. -/
theorem apply_eq_makeBackwards (text : Text) (list : EditList) :
    list.apply text = makeBackwards text list.edits := by
  -- The first edit that lies outside, seen from the end, stops the walk before the others.
  obtain ⟨edits, nonempty, ordered⟩ := list
  unfold apply
  simp only
  induction edits with
  | nil => rfl
  | cons edit later ih =>
    have others := ih (fun other member => nonempty other (by simp [member])) ordered.of_cons
    rw [List.reverse_cons, List.find?_append]
    -- A later edit that lies outside fails in both ways before this one is reached.
    cases found : later.reverse.find? fun other => !fits text other.span with
    | some outside =>
      rw [found] at others
      rw [makeBackwards, ← others]
      rfl
    | none =>
      have inside : ∀ other ∈ later, fits text other.span := fun other member => by
        simpa using List.find?_eq_none.1 found other (List.mem_reverse.2 member)
      cases here : fits text edit.span with
      | true =>
        rw [makeBackwards_eq ordered (List.forall_mem_cons.2 ⟨here, inside⟩)]
        simp [here]
      | false =>
        -- The later edits have been made behind this one, so that they do not decide whether it
        -- fits.
        have made := makeBackwards_eq ordered.of_cons inside
        have outside := fits_of_makeBackwards ordered.of_cons (List.pairwise_cons.1 ordered).1
          inside made
        rw [here, ← isSome_replaceSpan? _ edit.replacement, Option.isSome_eq_false_iff,
          Option.isNone_iff_eq_none] at outside
        rw [makeBackwards, made]
        simp [here, outside]

/-- Edits that all fit cover parts of the text that give way to something else, and write nothing
again. -/
theorem exists_planned {edits : List Edit} {text : Text}
    (inside : ∀ edit ∈ edits, fits text edit.span) :
    ∃ planned : List (Replacement × Text), (planned.map fun item => item.1.edit item.2) = edits ∧
      ∀ item ∈ planned, item.1.Fits text item.2 ∧ item.2 = [] := by
  -- Each edit fits where the part that it covers stands.
  induction edits with
  | nil => exact ⟨[], rfl, by simp⟩
  | cons edit rest ih =>
    obtain ⟨planned, same, stand⟩ := ih fun other member => inside other (by simp [member])
    obtain ⟨before, old, behind, rfl, start, stop⟩ :=
      fits_iff_exists.1 (inside edit (List.mem_cons_self ..))
    have here : (⟨before, old, edit.replacement⟩ : Replacement).edit [] = edit := by
      simp only [Replacement.edit, List.append_nil, ← start, ← stop]
    refine ⟨(⟨before, old, edit.replacement⟩, []) :: planned, by rw [List.map_cons, here, same], ?_⟩
    exact List.forall_mem_cons.2 ⟨⟨by simp [Replacement.Fits], rfl⟩, stand⟩

/-- What comes out when edits that all fit put their replacements in the place of what they cover is
what making them at once gives. -/
theorem substitutes_iff {text result : Text} (inside : ∀ edit ∈ list.edits, fits text edit.span) :
    Substitutes text list.edits result ↔ result = substituteFrom 0 list.edits text := by
  -- The parts determine the edits in their order, and the edits have such parts.
  constructor
  · rintro ⟨parts, rfl, rfl, perm⟩
    have made := substituteFrom_replacements [] [] parts
    rw [eq_of_perm perm.symm (Part.pairwise_replacements [] parts).2]
    exact made.symm
  · rintro rfl
    obtain ⟨planned, same, stand⟩ := exists_planned inside
    obtain ⟨parts, old, new, replaced⟩ := exists_parts (show text = [] ++ text from rfl)
      (fun item member => (stand item member).1) (by simp) (same ▸ list.ordered)
    refine ⟨parts, old, by rw [new, same]; rfl, .of_eq ?_⟩
    rw [Part.edits, replaced, List.map_map, ← same]
    exact List.map_congr_left fun item member => by rw [(stand item member).2]; rfl

/-- The order in which edits are listed does not count for what comes out. -/
theorem substitutes_perm {text result : Text} {edits edits' : List Edit}
    (perm : edits.Perm edits') :
    Substitutes text edits result ↔ Substitutes text edits' result := by
  -- The same parts will do.
  unfold Substitutes
  refine exists_congr fun parts => and_congr_right fun _ => and_congr_right fun _ => ?_
  exact ⟨fun same => same.trans perm, fun same => same.trans perm.symm⟩

/-- Of edits asked for one after the other, each is refused exactly if it covers nothing or shares a
byte with an earlier one that was taken, and then nothing changes; those that were taken come out
all at once, as if they were made one by one from the end, and in whatever order they were asked
for. -/
theorem apply_collect {text : Text} {asked : List Edit}
    (inside : ∀ edit ∈ asked, edit.span.LiesIn text) :
    (∀ edit, ((∃ error, (collect asked).push edit.span edit.replacement = .error error) ↔
        edit.Refused (Edit.taken asked)) ∧
      (edit.Refused (Edit.taken asked) → collect (asked ++ [edit]) = collect asked)) ∧
    ∃ result, (collect asked).apply text = .ok result ∧
      Substitutes text (Edit.taken asked) result ∧
      (∀ other, Substitutes text (Edit.taken asked) other → other = result) ∧
      makeBackwards text (collect asked).edits = .ok result ∧
      ∀ order, order.Perm (Edit.taken asked) →
        Edit.taken order = order ∧ (collect order).apply text = .ok result := by
  -- The list is determined by which edits were taken, and these fit into the text.
  have taken := collect_perm asked
  have fit : ∀ edit ∈ (collect asked).edits, fits text edit.span := fun edit member =>
    fits_of_liesIn (inside edit (Edit.mem_of_mem_taken (taken.subset member)))
      (Nat.le_of_lt ((collect asked).nonempty edit member))
  obtain ⟨result, applied⟩ := exists_apply fit
  have made := apply_ok applied
  refine ⟨fun edit => ⟨?_, fun refused => ?_⟩, result, applied, ?_, fun other replaced => ?_, ?_,
    fun order perm => ?_⟩
  · -- The edits in the list are those that have been taken.
    rw [push_error_iff, Edit.refused_perm taken]
  · rw [collect_concat]
    rcases offer_cases (collect asked) edit with ⟨-, same⟩ | ⟨allowed, -⟩
    · exact same
    · exact absurd ((Edit.refused_perm taken edit).2 refused) allowed
  · exact (substitutes_perm taken).1 ((substitutes_iff fit).2 made)
  · rw [made]
    exact (substitutes_iff fit).1 ((substitutes_perm taken).2 replaced)
  · rw [← apply_eq_makeBackwards, applied]
  · -- Edits that have been taken once are taken in any order, and the list sorts them.
    obtain ⟨covers, apart⟩ := Edit.taken_apart asked
    have all : Edit.taken order = order :=
      Edit.taken_eq_self (fun edit member => covers edit (perm.subset member))
        ((perm.pairwise_iff fun apart shared => apart shared.symm).2 apart)
    have perm' : (collect order).edits.Perm (collect asked).edits := by
      refine (collect_perm order).trans ?_
      rw [all]
      exact perm.trans taken.symm
    refine ⟨all, ?_⟩
    unfold apply at applied ⊢
    rw [eq_of_perm perm' (collect asked).ordered]
    exact applied

/-- Edits asked for from the end of a text to its start, two of which cannot be taken. -/
def askedSample : List Edit :=
  -- The third covers what the first covers, and the fourth covers nothing.
  [⟨⟨3, 4⟩, "wide".toList⟩, ⟨⟨1, 3⟩, []⟩, ⟨⟨0, 4⟩, ['x']⟩, ⟨⟨5, 5⟩, ['y']⟩, ⟨⟨5, 6⟩, ['z']⟩]

/-- Edits that touch are both made, in either order, and a character of two bytes is covered as a
whole. -/
theorem apply_collect_sample : (∀ edit ∈ askedSample, edit.span.LiesIn "h\u00e9llo!".toList) ∧
    (∃ error, (collect askedSample).push ⟨3, 5⟩ [] = .error error) ∧
    (collect askedSample).apply "h\u00e9llo!".toList = .ok "hwidelz!".toList ∧
    (collect [⟨⟨5, 6⟩, ['z']⟩, ⟨⟨1, 3⟩, []⟩, ⟨⟨3, 4⟩, "wide".toList⟩]).apply
      "h\u00e9llo!".toList = .ok "hwidelz!".toList := by
  -- The first, the second and the last are taken.
  have inside : ∀ edit ∈ askedSample, edit.span.LiesIn "h\u00e9llo!".toList := by decide +kernel
  obtain ⟨refusals, result, applied, -, -, made, orders⟩ := apply_collect inside
  have run : makeBackwards "h\u00e9llo!".toList (collect askedSample).edits =
      .ok "hwidelz!".toList := by
    decide +kernel
  rw [made, Except.ok.injEq] at run
  subst run
  refine ⟨inside, (refusals ⟨⟨3, 5⟩, []⟩).1.2 (by decide +kernel), applied, ?_⟩
  exact (orders _ (by decide +kernel)).2

end EditList

end Smali
