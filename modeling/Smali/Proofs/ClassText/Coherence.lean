import Smali.Document
import Smali.Proofs.ClassText.Segments
import Smali.Proofs.Header
import Smali.Proofs.Pairing

/-! After a flush the class text holds what is read from its new text. -/

namespace Smali

/-- A draft is what changes and a flush may make of a method that was read. -/
structure Method.Drafted (method : Method) (draft : ClassText.Draft) : Prop where
  /-- Only the body changes. -/
  same : draft.method = { method with body := draft.method.body, dirty := draft.method.dirty }
  /-- The body may stand in a class text. -/
  plain : Method.PlainBody draft.body
  /-- A body that is not written is the one that was read. -/
  kept : draft.isWritten = false → draft.body = method.body

/-- A draft is what may take the place of a method that was read, whatever else stands in its
body. -/
structure Method.Redrafted (method : Method) (draft : ClassText.Draft) : Prop where
  /-- Only the body changes. -/
  same : draft.method = { method with body := draft.method.body, dirty := draft.method.dirty }
  /-- All lines of the body are closed. -/
  closed : ∀ piece ∈ Text.pieces draft.body, Text.Closed piece
  /-- The lines of the body neither open nor close a method. -/
  between : ClassText.Inside (Text.pieces draft.body)
  /-- A class or a superclass is named by the body as by the one that was read. -/
  heads : ∀ directive ∈ ClassText.headDirectives,
    ClassText.firstSaying directive (Text.pieces draft.body) =
      ClassText.firstSaying directive (Text.pieces method.body)
  /-- A body that is not written is the one that was read. -/
  kept : draft.isWritten = false → draft.body = method.body

/-- A plain draft may take the place of a method with a plain body. -/
theorem Method.Drafted.redrafted {method : Method} {draft : ClassText.Draft}
    (drafted : method.Drafted draft) (plain : Method.PlainBody method.body) :
    method.Redrafted draft := by
  -- Neither body names a class or a superclass.
  have quiet : ∀ body, Method.PlainBody body → ∀ directive ∈ ClassText.headDirectives,
      ClassText.firstSaying directive (Text.pieces body) = none := by
    intro body plain directive member
    refine ClassText.Segment.firstSaying_none fun piece inside => (plain piece inside).2 _ ?_
    simp only [ClassText.headDirectives, List.mem_cons, List.not_mem_nil, or_false] at member
    rcases member with rfl | rfl <;> decide
  refine ⟨drafted.same, fun piece member => (drafted.plain piece member).1,
    fun piece member => ⟨(drafted.plain piece member).2 _ (by decide),
      (drafted.plain piece member).2 _ (by decide)⟩, fun directive member => ?_, drafted.kept⟩
  rw [quiet _ drafted.plain directive member, quiet _ plain directive member]

namespace ClassText

namespace Draft

/-- The changes of writable fields leave a plain body plain. -/
theorem Run.plain {fields : List Field} {draft last : Draft} (run : Run fields draft last)
    (open' : ∀ field ∈ fields, '\n' ∉ field.reference) (plain : Method.PlainBody draft.body) :
    Method.PlainBody last.body := by
  -- No step brings in a directive.
  refine run.induct (fun next => Method.PlainBody next.body) plain ?_
  intro field member draft next step plain
  cases step with
  | same => exact plain
  | built pending initializer injected =>
    exact Method.PlainBody.inject plain (open' field member) injected
  | stripped pending removed => exact Method.PlainBody.withoutAssignments plain removed

/-- A run takes a changed method to a draft of the method that was read. -/
theorem Run.drafted {fields : List Field} {method changed : Method} {last : Draft}
    (run : Run fields ⟨changed, none⟩ last) (descends : method.Descends changed)
    (open' : ∀ field ∈ fields, '\n' ∉ field.reference) : method.Drafted last := by
  -- What is not written has neither been set nor rewritten.
  have same : last.method = changed := run.method
  refine ⟨by rw [same]; exact descends.same, run.plain open' descends.plain, fun unwritten => ?_⟩
  have clean := (Bool.or_eq_false_iff.1 unwritten).2
  rw [Draft.body_unwritten unwritten]
  rw [same] at clean ⊢
  exact descends.clean clean

end Draft

section Segments

variable {text owner : Text}

/-- Each line between two parts of a text is a single line. -/
theorem isPiece_of_part {before part behind : List Text}
    (split : Text.pieces text = before ++ (part ++ behind)) :
    ∀ piece ∈ part, Text.IsPiece piece := by
  intro piece member
  exact Text.isPiece_of_mem_pieces (show piece ∈ Text.pieces text by simp [split, member])

/-- A line that is passed over is one segment, which has no member. -/
theorem segment_plain {before behind : List Text} {piece : Text}
    (split : Text.pieces text = before ++ piece :: behind)
    (noHeader : Text.tells ".method".toList piece = false)
    (noTerminator : Text.tells ".end method".toList piece = false)
    (noField : ∀ field, Text.tells ".field".toList piece →
      Field.parse owner (Text.trim piece) ≠ .ok field) :
    Nonempty (Segment text owner before [piece] [] []) := by
  -- The line stays as it is, and it is passed over again.
  have single : ∀ line ∈ [piece], Text.IsPiece line := isPiece_of_part split
  exact Segment.kept single rfl rfl fun others => .plain noHeader noTerminator noField others

/-- A field that is read is one segment, whether or not it is written again. -/
theorem segment_field {before behind : List Text} {piece : Text} {declared field : Field}
    (split : Text.pieces text = before ++ piece :: behind)
    (said : Text.tells ".field".toList piece)
    (parsed : Field.parse owner (Text.trim piece) = .ok declared)
    (descends : declared.Descends field)
    (once : (Text.lines text).countP (fun line => line.trimmed == declared.declaration) = 1)
    (noEquals : ['='] ∉ declared.modifiers) :
    Nonempty (Segment text owner before [piece] [field] []) := by
  -- A field that is not written has come out as it was read.
  have reading := Field.reading_of_parse parsed
  have declaration : declared.declaration = Text.trim piece :=
    (Field.declaration_of_parse parsed).trans (Text.trim_trim piece)
  have owned : declared.owner = owner := by rw [reading.fresh]
  rcases descends.flushed_cases reading noEquals with ⟨unwritten, same⟩ | ⟨rewrites, flushed⟩
  · have single : ∀ line ∈ [piece], Text.IsPiece line := isPiece_of_part split
    refine Segment.kept single (by simp [unwritten]) (by simp) fun others => ?_
    have read := Reads.field said parsed others
    simpa [same] using read
  · refine Segment.declaration split said (by rw [descends.declaration, declaration]) ?_
      (by rw [descends.owner, owned]) descends.writable rewrites flushed
    rw [descends.declaration]
    exact once

/-- A method that is read is one segment, whether or not its body is written again. -/
theorem segment_method {before behind inside : List Text} {header terminator : Text}
    {method : Method} {draft : Draft}
    (split : Text.pieces text = before ++ header :: (inside ++ terminator :: behind))
    (opened : Text.tells ".method".toList header) (between : Inside inside)
    (closes : Text.tells ".end method".toList terminator)
    (parsed : Method.parse owner (Text.trim header) inside.flatten = .ok method)
    (first : ∀ piece ∈ before, HeaderOf method.signature piece = false)
    (redrafted : method.Redrafted draft) :
    Nonempty (Segment text owner before (header :: (inside ++ [terminator])) [] [draft]) := by
  -- A body that is not written has come out as it was read.
  obtain ⟨-, -, -, body, clean, other⟩ := Method.exists_of_parse parsed
  have settled : draft.settled = { method with body := draft.body } := by
    rw [Draft.settled, redrafted.same]
    simp only [clean]
  -- The lines of the body are lines of the text.
  have parts : Text.pieces inside.flatten = inside := by
    have part : inside.Sublist (Text.pieces text) := by
      rw [split]
      refine List.Sublist.trans ?_ (List.sublist_append_right before _)
      exact (List.sublist_append_left inside _).cons header
    exact Text.pieces_of_sublist part
  by_cases written : draft.isWritten
  -- A body that is written takes the place of the old one.
  · refine Segment.body split opened between closes parsed first ?_ settled redrafted.closed
      redrafted.between (fun directive member => ?_) written
    · rw [redrafted.same]
      rfl
    · rw [redrafted.heads directive member, body, parts]
  · have unwritten : draft.isWritten = false := by simpa using written
    -- Else the lines are kept, and they declare the method that was read.
    have same : draft.settled = method := by rw [settled, redrafted.kept unwritten]
    have single : ∀ line ∈ header :: (inside ++ [terminator]), Text.IsPiece line :=
      isPiece_of_part (by simpa using split)
    refine Segment.kept single (by simp) (by simp [unwritten]) fun others => ?_
    have read := Reads.method opened between closes parsed others
    simpa [same] using read

/-- All that is read of a text is one segment, if every method may be replaced by its draft. -/
theorem exists_segment_redrafted {before rest : List Text} {declared fields : List Field}
    {methods : List Method} {drafts : List Draft} (reads : Reads owner rest declared methods)
    (split : Text.pieces text = before ++ rest)
    (descends : List.Forall₂ Field.Descends declared fields)
    (redrafted : List.Forall₂ Method.Redrafted methods drafts)
    (once : ∀ field ∈ declared,
      (Text.lines text).countP (fun line => line.trimmed == field.declaration) = 1)
    (noEquals : ∀ field ∈ declared, ['='] ∉ field.modifiers)
    (distinct : (methods.map Method.signature).Nodup)
    (first : ∀ piece ∈ before, ∀ method ∈ methods, HeaderOf method.signature piece = false) :
    Nonempty (Segment text owner before rest fields drafts) := by
  -- The members are taken in the order in which they are read.
  induction reads generalizing before fields drafts with
  | done =>
    cases descends
    cases redrafted
    exact Segment.kept (by simp) rfl rfl fun others => others
  | @plain piece rest declared methods noHeader noTerminator noField others ih =>
    obtain ⟨segment⟩ := segment_plain split noHeader noTerminator noField
    have split' : Text.pieces text = before ++ [piece] ++ rest := by simp [split]
    have first' : ∀ piece' ∈ before ++ [piece], ∀ method ∈ methods,
        HeaderOf method.signature piece' = false :=
      List.forall_mem_append.2 ⟨first, List.forall_mem_singleton.2 fun method _ =>
        headerOf_of_silent noHeader method.signature⟩
    obtain ⟨later⟩ := ih split' descends redrafted once noEquals distinct first'
    exact segment.append later
  | @field piece declared rest others methods said parsed _ ih =>
    cases descends with
    | cons here descends =>
      obtain ⟨segment⟩ := segment_field split said parsed here (once declared (by simp))
        (noEquals declared (by simp))
      have split' : Text.pieces text = before ++ [piece] ++ rest := by simp [split]
      have first' : ∀ piece' ∈ before ++ [piece], ∀ method ∈ methods,
          HeaderOf method.signature piece' = false :=
        List.forall_mem_append.2 ⟨first, List.forall_mem_singleton.2 fun method _ =>
          headerOf_of_tells said (by decide) method.signature⟩
      obtain ⟨later⟩ := ih split' descends redrafted
        (fun field member => once field (by simp [member]))
        (fun field member => noEquals field (by simp [member])) distinct first'
      exact segment.append later
  | @method header terminator inside rest method declared methods opened between closes parsed _
      ih =>
    cases redrafted with
    | cons here redrafted =>
      obtain ⟨segment⟩ := segment_method split opened between closes parsed
        (fun piece member => first piece member method (by simp)) here
      rw [List.map_cons, List.nodup_cons] at distinct
      have split' : Text.pieces text = before ++ header :: (inside ++ [terminator]) ++ rest := by
        simp [split]
      have first' : ∀ piece' ∈ before ++ header :: (inside ++ [terminator]),
          ∀ other ∈ methods, HeaderOf other.signature piece' = false :=
        List.forall_mem_append.2 ⟨fun piece member other inside' =>
          first piece member other (by simp [inside']), fun piece member other inside' =>
            headerOf_other (headerOf_of_parse opened parsed) between closes (fun same =>
              distinct.1 (same ▸ List.mem_map_of_mem inside')) piece member⟩
      obtain ⟨later⟩ := ih split' descends redrafted once noEquals distinct.2 first'
      obtain ⟨whole⟩ := segment.append later
      exact ⟨by simpa using whole⟩

/-- All that is read of a text with plain bodies is one segment. -/
theorem exists_segment {before rest : List Text} {declared fields : List Field}
    {methods : List Method} {drafts : List Draft} (reads : Reads owner rest declared methods)
    (split : Text.pieces text = before ++ rest)
    (descends : List.Forall₂ Field.Descends declared fields)
    (drafted : List.Forall₂ Method.Drafted methods drafts)
    (once : ∀ field ∈ declared,
      (Text.lines text).countP (fun line => line.trimmed == field.declaration) = 1)
    (noEquals : ∀ field ∈ declared, ['='] ∉ field.modifiers)
    (plain : ∀ method ∈ methods, Method.PlainBody method.body)
    (distinct : (methods.map Method.signature).Nodup)
    (first : ∀ piece ∈ before, ∀ method ∈ methods, HeaderOf method.signature piece = false) :
    Nonempty (Segment text owner before rest fields drafts) := by
  -- Plain drafts may take the place of methods with plain bodies.
  have redrafted : List.Forall₂ Method.Redrafted methods drafts :=
    drafted.imp_mem fun method member draft _ here => here.redrafted (plain method member)
  exact exists_segment_redrafted reads split descends redrafted once noEquals distinct first

end Segments

/-- A flush that cuts all lines of a text leaves what takes their place. -/
theorem text_of_cutting {source flushed : ClassText} (flushing : Flushing source flushed)
    {result : Text} (cutting : Cutting source.text [] (Text.pieces source.text) source.fields
      flushing.drafts result) : flushed.text = result := by
  -- The edits are those of the cutting, because the members determine them.
  have declarations := (rightUnique_declarationEdit source.text).forall₂
    flushing.declared cutting.declared
  have bodies := (rightUnique_bodyEdit source.text).forall₂
    flushing.written cutting.written
  have perm := flushing.perm
  rw [declarations, bodies] at perm
  rw [congrArg ClassText.text flushing.result]
  exact cutting.substitute (Text.flatten_pieces source.text) perm

/-- A flush that is one segment leaves the lines of that segment. -/
theorem pieces_of_segment {source flushed : ClassText} {owner : Text}
    (flushing : Flushing source flushed)
    (segment : Segment source.text owner [] (Text.pieces source.text) source.fields
      flushing.drafts) : Text.pieces flushed.text = segment.pieces := by
  -- They are kept apart.
  rw [text_of_cutting flushing segment.cutting]
  exact Text.pieces_flatten segment.single (segment.apart (Text.pieces_pairwise source.text))

section Changed

variable {owner : Text}

/-- Every field that is read is read from one of the lines. -/
theorem Reads.exists_field {pieces : List Text} {fields : List Field} {methods : List Method}
    (reads : Reads owner pieces fields methods) {field : Field} (member : field ∈ fields) :
    ∃ piece ∈ pieces, Field.parse owner (Text.trim piece) = .ok field := by
  -- The lines are taken in the way in which they declare.
  induction reads with
  | done => cases member
  | plain _ _ _ _ ih =>
    obtain ⟨piece, inside, parsed⟩ := ih member
    exact ⟨piece, List.mem_cons_of_mem _ inside, parsed⟩
  | field _ parsed _ ih =>
    rcases List.mem_cons.1 member with rfl | member
    · exact ⟨_, by simp, parsed⟩
    · obtain ⟨piece, inside, parsed⟩ := ih member
      exact ⟨piece, List.mem_cons_of_mem _ inside, parsed⟩
  | method _ _ _ _ _ ih =>
    obtain ⟨piece, inside, parsed⟩ := ih member
    exact ⟨piece, by simp [inside], parsed⟩

/-- The lines of the body of a method that is read are closed, and neither open nor close a
method. -/
theorem Reads.enclosed {text : Text} {pieces : List Text} {fields : List Field}
    {methods : List Method} (reads : Reads owner pieces fields methods)
    (part : pieces.Sublist (Text.pieces text)) {method : Method} (member : method ∈ methods) :
    (∀ piece ∈ Text.pieces method.body, Text.Closed piece) ∧
      Inside (Text.pieces method.body) := by
  -- The terminator keeps the lines before it closed.
  induction reads with
  | done => cases member
  | plain _ _ _ _ ih => exact ih ((List.sublist_cons_self _ _).trans part) member
  | field _ _ _ ih => exact ih ((List.sublist_cons_self _ _).trans part) member
  | @method header terminator inside rest first _ methods _ between _ parsed _ ih =>
    rcases List.mem_cons.1 member with rfl | member
    · obtain ⟨-, -, -, body, -⟩ := Method.exists_of_parse parsed
      have whole : (inside ++ terminator :: rest).Sublist (Text.pieces text) :=
        (List.sublist_cons_self _ _).trans part
      have single : Text.pieces method.body = inside := by
        rw [body]
        exact Text.pieces_of_sublist ((List.sublist_append_left inside _).trans whole)
      have closed := (List.pairwise_append.1 ((Text.pieces_pairwise text).sublist whole)).2.2
      rw [single]
      exact ⟨fun piece here => closed piece here terminator (by simp), between⟩
    · refine ih (List.Sublist.trans ?_ part) member
      exact (List.sublist_append_of_sublist_right (List.sublist_cons_self _ _)).cons _

/-- The body of a method that is read is plain, if no line of it names a class. -/
theorem Reads.plainBody {text : Text} {pieces : List Text} {fields : List Field}
    {methods : List Method} (reads : Reads owner pieces fields methods)
    (part : pieces.Sublist (Text.pieces text)) {method : Method} (member : method ∈ methods)
    (quiet : ∀ line ∈ Text.lines method.body, ∀ directive ∈ headDirectives,
      line.opensWith directive = false) : Method.PlainBody method.body := by
  -- The other directives would open or close a method.
  obtain ⟨closed, between⟩ := reads.enclosed part member
  intro piece here
  have here' := here
  rw [← Text.map_piece_lines] at here'
  obtain ⟨line, inLines, rfl⟩ := List.mem_map.1 here'
  have named : ∀ directive ∈ headDirectives, Text.endsSolid directive →
      Text.tells directive line.piece = false := fun directive head solid => by
    rw [← Line.opensWith_eq_tells directive solid inLines]
    exact quiet line inLines directive head
  refine ⟨closed _ here, fun directive structural => ?_⟩
  simp only [Method.structuralDirectives, List.mem_cons, List.not_mem_nil, or_false] at structural
  rcases structural with rfl | rfl | rfl | rfl
  · exact named _ (by decide) (by decide)
  · exact named _ (by decide) (by decide)
  · exact (between _ here).1
  · exact (between _ here).2

/-- The changes of several members, none of which gets both a string and a list. -/
def Apart (list : List MemberChange) : Prop :=
  -- The list is then written for the value that was declared.
  ∀ index values, .field index (.setStringArray values) ∈ list →
    ∀ text, .field index (.setValue text) ∉ list

/-- A change of the field at a position is among the changes of that position. -/
theorem mem_fieldChanges {list : List MemberChange} {index : Nat} {change : FieldChange} :
    change ∈ list.filterMap (MemberChange.fieldChange? index) ↔ .field index change ∈ list := by
  -- No other change counts for that position.
  rw [List.mem_filterMap]
  constructor
  · rintro ⟨other, member, found⟩
    cases other with
    | method at' other => cases found
    | field at' other =>
      simp only [MemberChange.fieldChange?] at found
      split at found
      · next here =>
        cases found
        exact here ▸ member
      · cases found
  · exact fun member => ⟨_, member, by simp [MemberChange.fieldChange?]⟩

/-- The changes of a method at a position are allowed if all changes are. -/
theorem allowed_methodChanges {list : List MemberChange} (allowed : ∀ change ∈ list, change.Allowed)
    (index : Nat) : ∀ change ∈ list.filterMap (MemberChange.methodChange? index),
      change.Allowed := by
  -- Each of them is one of all changes.
  intro change member
  obtain ⟨other, inside, found⟩ := List.mem_filterMap.1 member
  cases other with
  | field at' other => cases found
  | method at' other =>
    simp only [MemberChange.methodChange?] at found
    split at found
    · cases found
      exact allowed _ inside
    · cases found

/-- Allowed changes make of each field that was read what they may make of it. -/
theorem descends_fields {source : ClassText}
    (reads : Reads owner (Text.pieces source.text) source.fields source.methods)
    (noEquals : ∀ field ∈ source.fields, ['='] ∉ field.modifiers) {list : List MemberChange}
    (allowed : ∀ change ∈ list, change.Allowed) (apart : Apart list) :
    List.Forall₂ Field.Descends source.fields (source.changes list).fields := by
  -- A field that was read is writable, and has not been changed yet.
  refine List.forall₂_of_getElem? _ (source.fields_changes list) fun index field member => ?_
  obtain ⟨piece, inside, parsed⟩ := reads.exists_field member
  have reading := Field.reading_of_parse parsed
  have open' : '\n' ∉ Text.trim piece := Text.open_trim (Text.isPiece_of_mem_pieces inside)
  have start : field.Descends field :=
    ⟨rfl, rfl, rfl, reading.writable (noEquals field member) open', fun _ => rfl, .inl rfl⟩
  refine start.foldl (fun change here => allowed _ (mem_fieldChanges.1 here)) ?_
  by_cases listed : ∃ values, .field index (.setStringArray values) ∈ list
  · obtain ⟨values, listed⟩ := listed
    exact .inr ⟨rfl, fun text here => apart index values listed text (mem_fieldChanges.1 here)⟩
  · exact .inl fun values here => listed ⟨values, mem_fieldChanges.1 here⟩

/-- Allowed changes make of each method with a plain body what they may make of it. -/
theorem descends_methods {source : ClassText}
    (plain : ∀ method ∈ source.methods, Method.PlainBody method.body) {list : List MemberChange}
    (allowed : ∀ change ∈ list, change.Allowed) :
    List.Forall₂ Method.Descends source.methods (source.changes list).methods := by
  -- A method that has not been changed yet is what it was.
  refine List.forall₂_of_getElem? _ (source.methods_changes list) fun index method member => ?_
  have start : method.Descends method := ⟨rfl, plain method member, fun _ => rfl⟩
  exact start.foldl (allowed_methodChanges allowed index)

end Changed

end ClassText

/-- Nothing that callers may do to the members of a coherent document makes the members that a
flush leaves differ from those that are read from the new text. -/
theorem Document.flush_coherent {document flushed : Document} (coherent : document.Coherent)
    (distinct : (document.methods.map Method.signature).Nodup)
    (once : ∀ field ∈ document.fields,
      (Text.lines document.text).countP (fun line => line.trimmed == field.declaration) = 1)
    (noEquals : ∀ field ∈ document.fields, ['='] ∉ field.modifiers)
    (quiet : ∀ method ∈ document.methods, ∀ line ∈ Text.lines method.body,
      ∀ directive ∈ ClassText.headDirectives, line.opensWith directive = false)
    {list : List MemberChange} (allowed : ∀ change ∈ list, change.Allowed)
    (apart : ClassText.Apart list)
    (done : (document.withSource (document.changes list)).flush = .ok flushed) :
    flushed.Coherent := by
  -- The flush takes the whole text as one segment, which declares the members that it leaves.
  obtain ⟨⟨said, first, class'⟩, super', reads⟩ := ClassText.coherent_iff.1 coherent
  have text := document.toClassText.text_changes list
  simp only [Document.flush, bind_eq_ok, pure_eq_ok] at done
  obtain ⟨source, flushing, rfl⟩ := done
  obtain ⟨plan⟩ := ClassText.flush_ok flushing
  -- The changes leave writable fields and plain bodies.
  have plain : ∀ method ∈ document.methods, Method.PlainBody method.body := fun method member =>
    reads.plainBody (List.Sublist.refl _) member (quiet method member)
  have fields := ClassText.descends_fields reads noEquals allowed apart
  have methods := ClassText.descends_methods plain allowed
  -- References are written into bodies, where a line feed would begin another line.
  have open' : ∀ field ∈ (document.changes list).fields, '\n' ∉ field.reference := by
    intro field member
    obtain ⟨declared, inside, descends⟩ := List.exists_of_mem_right fields member
    obtain ⟨piece, -, parsed⟩ := reads.exists_field inside
    have owner : field.owner = document.descriptor := by
      rw [descends.owner, (Field.reading_of_parse parsed).fresh]
    refine descends.writable.open_reference ?_
    rw [owner]
    exact (Header.exists_front class').2.1
  have drafted : List.Forall₂ Method.Drafted document.methods plan.drafts := by
    have runs := plan.runs
    rw [List.forall₂_map_left_iff] at runs
    exact methods.trans_of (fun method changed draft descends run => run.drafted descends open')
      runs
  -- Nothing stands before the first line, and nothing behind the last one.
  obtain ⟨segment⟩ : Nonempty (ClassText.Segment (document.changes list).text document.descriptor
      [] (Text.pieces (document.changes list).text) (document.changes list).fields
      plan.drafts) := by
    rw [text]
    exact ClassText.exists_segment reads (List.nil_append _).symm fields drafted once noEquals
      plain distinct (by simp)
  have pieces : Text.pieces source.text = segment.pieces :=
    ClassText.pieces_of_segment plan segment
  have members := segment.reads .done
  rw [List.append_nil, List.append_nil, List.append_nil, ← pieces] at members
  -- No body names a class or a superclass, so that the lines that do are kept.
  have named : ∀ directive ∈ ClassText.headDirectives,
      ClassText.firstSaying directive (Text.pieces source.text) =
        ClassText.firstSaying directive (Text.pieces document.text) := by
    intro directive member
    rw [pieces, segment.heads directive member, text]
  have descriptor : source.descriptor = document.descriptor := by
    rw [plan.result]
    exact document.toClassText.descriptor_changes list
  have modifiers : source.modifiers = document.modifiers := by
    rw [plan.result]
    exact document.toClassText.modifiers_changes list
  have superclass : source.superclass = document.superclass := by
    rw [plan.result]
    exact document.toClassText.superclass_changes list
  have fieldsLeft : source.fields = (document.changes list).fields.map Field.flushed := by
    rw [plan.result]
    rfl
  have methodsLeft : source.methods = plan.drafts.map ClassText.Draft.settled :=
    congrArg ClassText.methods plan.result
  refine ClassText.coherent_iff.2
    (show ClassText.ReadFrom (Text.pieces source.text) source from ⟨⟨said, ?_, ?_⟩, ?_, ?_⟩)
  · rw [named _ (by decide)]
    exact first
  · rw [modifiers, descriptor]
    exact class'
  · rw [named _ (by decide), superclass]
    exact super'
  · rw [descriptor, fieldsLeft, methodsLeft]
    exact members

/-- A document as it is read, with one field and one method. -/
def Document.sampleRead : Document where
  -- The indentation and the comment are not said by the members.
  text := (".class LA;\n.super LB;\n  .field x:I\r\n.method m(I)V\n nop\n.end method # m\n").toList
  descriptor := "LA;".toList
  modifiers := []
  superclass := "LB;".toList
  fields := [⟨"LA;".toList, [], ['x'], ['I'], none, ".field x:I".toList,
    "LA;->x:I".toList, none, .unchanged, false⟩]
  methods := [⟨"LA;".toList, [], ['m'], ['I'], [['I']], ['V'], " nop\n".toList, false⟩]
  diagnostics := []
  path := none
  origin := none
  modified := false

/-- Changes of both members of the sample. -/
def Document.sampleChanges : List MemberChange :=
  -- The string has to be escaped, and the body is changed twice.
  [.field 0 (.setName ['y']), .method 0 (.setBody []), .field 0 (.setValue "\n# \"".toList),
    .method 0 (.setBody " return-void\n".toList), .field 0 (.setStatic false)]

/-- After its flush the sample holds what is read from the new text. -/
theorem Document.flush_coherent_sample : ∃ flushed : Document,
    flushed.text = (".class LA;\n.super LB;\n  .field y:I = \"\\n# \\\"\"\r\n" ++
      ".method m(I)V\n return-void\n.end method # m\n").toList ∧ flushed.Coherent := by
  -- The flush of the sample succeeds.
  have done : (sampleRead.withSource (sampleRead.changes sampleChanges)).flush.map
      (fun flushed => flushed.text) =
      .ok (".class LA;\n.super LB;\n  .field y:I = \"\\n# \\\"\"\r\n" ++
        ".method m(I)V\n return-void\n.end method # m\n").toList := by
    decide +kernel
  cases made : (sampleRead.withSource (sampleRead.changes sampleChanges)).flush with
  | error error =>
    rw [made] at done
    cases done
  | ok flushed =>
    rw [made] at done
    have read : ClassText.parse sampleRead.text = .ok sampleRead.toClassText := by decide +kernel
    exact ⟨flushed, Except.ok.inj done, Document.flush_coherent
      ⟨sampleRead.toClassText, read, rfl, rfl, rfl, rfl, rfl⟩ (by decide +kernel)
      (by decide +kernel) (by decide +kernel) (by decide +kernel) (by decide +kernel)
      (by simp [ClassText.Apart, sampleChanges]) made⟩

end Smali
