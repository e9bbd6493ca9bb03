import Smali.Proofs.ClassText.Coherence
import Smali.Proofs.ClassText.Frame
import Smali.Proofs.Method.Assignments

/-! A flush succeeds when all that it rewrites is found, and found in different places. -/

namespace Smali

/-- A text with a character has a byte. -/
theorem Text.byteLength_pos {text : Text} (nonempty : text ≠ []) : 0 < byteLength text := by
  -- Every character has one.
  obtain ⟨c, rest, rfl⟩ := List.exists_cons_of_ne_nil nonempty
  have positive := c.utf8Size_pos
  rw [byteLength_cons]
  omega

namespace EditList

/-- Edits can be added to a list one after the other. -/
structure Pushable (list : EditList) (edits : List Edit) : Prop where
  /-- Every edit covers a byte. -/
  covers : ∀ edit ∈ edits, edit.span.start < edit.span.stop
  /-- No two of them share a byte, nor does one with an edit of the list. -/
  apart : (list.edits ++ edits).Pairwise fun edit other => edit.span.overlaps other.span = false

/-- Edits in the order of a text can be added to an empty list in any order. -/
theorem pushable_empty {edits ordered : List Edit} (perm : ordered.Perm edits)
    (covers : ∀ edit ∈ edits, edit.span.start < edit.span.stop)
    (pairwise : ordered.Pairwise fun earlier later => earlier.span.stop ≤ later.span.start) :
    empty.Pushable edits := by
  -- An edit that ends before another one begins shares no byte with it.
  refine ⟨covers, (perm.pairwise_iff fun {edit other} apart => ?_).1 (pairwise.imp ?_)⟩
  · rw [Span.overlaps, Bool.and_comm]
    exact apart
  · intro earlier later before
    simp only [Span.overlaps, Bool.and_eq_false_iff, decide_eq_false_iff_not]
    omega

/-- The first of the edits is added, and the others can be added then. -/
theorem Pushable.push {list : EditList} {edit : Edit} {rest : List Edit}
    (pushable : list.Pushable (edit :: rest)) :
    ∃ pushed, list.push edit.span edit.replacement = .ok pushed ∧ pushed.Pushable rest := by
  -- Both checks pass.
  have covers := pushable.covers edit (by simp)
  have apart : list.edits.all fun other => !other.span.overlaps edit.span := by
    rw [List.all_eq_true]
    intro other member
    rw [(List.pairwise_append.1 pushable.apart).2.2 other member edit (by simp)]
    rfl
  obtain ⟨pushed, done⟩ : ∃ pushed, list.push edit.span edit.replacement = .ok pushed := by
    unfold EditList.push
    rw [dif_pos covers, dif_pos apart]
    exact ⟨_, rfl⟩
  refine ⟨pushed, done, fun other member => pushable.covers other (by simp [member]), ?_⟩
  have moved : (list.edits ++ edit :: rest).Perm (pushed.edits ++ rest) :=
    List.perm_middle.trans ((push_ok done).symm.append_right rest)
  refine (moved.pairwise_iff fun {edit other} apart => ?_).1 pushable.apart
  rw [Span.overlaps, Bool.and_comm]
  exact apart

end EditList

namespace ClassText

/-- The edit of a declaration fits into the text. -/
theorem DeclarationEdit.fits {text : Text} {field : Field} {edit : Edit}
    (declared : DeclarationEdit text field edit) : EditList.fits text edit.span := by
  -- The declaration stands there.
  obtain ⟨replacement, -, stands, rfl⟩ := writesDeclaration_of_edit declared
  exact stands.fits

/-- The edit of a body fits into the text. -/
theorem BodyEdit.fits {text : Text} {draft : Draft} {edit : Edit}
    (written : BodyEdit text draft edit) : EditList.fits text edit.span := by
  -- The old body and the terminator stand there.
  obtain ⟨replacement, again, -, stands, rfl⟩ := writesBody_of_edit written
  exact stands.fits

/-- The edit of a declaration covers it. -/
theorem DeclarationEdit.covers {text : Text} {field : Field} {edit : Edit}
    (declared : DeclarationEdit text field edit) (spoken : field.declaration ≠ []) :
    edit.span.start < edit.span.stop := by
  -- The line says something.
  obtain ⟨front, line, back, here, place⟩ := locateDeclaration_eq_some.1 declared.1
  have positive := Text.byteLength_pos (here.said ▸ spoken)
  rw [place, Text.byteLength_append _ line.trimmed]
  exact Nat.lt_add_of_pos_right positive

/-- The edit of a body covers the terminator at least. -/
theorem BodyEdit.covers {text : Text} {draft : Draft} {edit : Edit}
    (written : BodyEdit text draft edit) : edit.span.start < edit.span.stop := by
  -- The terminator says something.
  obtain ⟨place, located, rfl⟩ := written
  obtain ⟨front, header, inside, terminator, back, here, rfl⟩ := locateMethod_eq_some.1 located
  have positive := Text.byteLength_pos here.spoken
  simp only [Text.byteLength_append]
  omega

/-- What the changes of several fields make of the drafts of all methods. -/
def draftFields : List Field → List Draft → Except Error (List Draft)
  -- Each field builds on what the fields before it have left.
  | [], drafts => .ok drafts
  | field :: rest, drafts => draftField field drafts >>= draftFields rest

/-- The changes of several fields take a run on every draft. -/
theorem draftFields_ok {fields : List Field} {drafts drafts' : List Draft}
    (done : draftFields fields drafts = .ok drafts') :
    List.Forall₂ (Draft.Run fields) drafts drafts' := by
  -- Each field takes one step.
  induction fields generalizing drafts with
  | nil =>
    cases done
    exact List.forall₂_same.2 fun draft _ => .done draft
  | cons field rest ih =>
    obtain ⟨middle, first, others⟩ := bind_eq_ok.1 done
    exact forall₂_run (draftField_ok first) (ih others)

/-- The planning of fields drafts the bodies as their changes do. -/
theorem planFields_drafts {text : Text} {plan plan' : Plan} {fields fields' : List Field}
    (done : planFields text plan fields = .ok (plan', fields')) :
    draftFields fields plan.drafts = .ok plan'.drafts := by
  -- Declarations do not matter for the drafts.
  induction fields generalizing plan fields' with
  | nil =>
    cases done
    rfl
  | cons field rest ih =>
    simp only [planFields, planField_draft, bind_eq_ok, pure_eq_ok, Prod.exists,
      Except.ok.injEq, Prod.mk.injEq] at done
    obtain ⟨middle, _, ⟨drafts, drafted, edits, -, rfl, -⟩, last, rest', others, rfl, -⟩ := done
    exact bind_eq_ok.2 ⟨drafts, drafted, ih others⟩

/-- The changes of fields leave the methods in order. -/
theorem signatures_draftFields {fields : List Field} {drafts drafts' : List Draft}
    (done : draftFields fields drafts = .ok drafts') :
    drafts'.map (fun draft => draft.method.signature) =
      drafts.map fun draft => draft.method.signature := by
  -- No run changes which method a draft is for.
  refine ((draftFields_ok done).map_eq _ _ fun draft _ last _ run => ?_).symm
  rw [run.method]

/-- A declaration is written again if its edit can be added. -/
theorem exists_rewriteDeclaration {text : Text} {edits : EditList} {field : Field}
    {added later : List Edit}
    (declared : List.Forall₂ (DeclarationEdit text)
      ([field].filter Field.rewritesDeclaration) added)
    (pushable : edits.Pushable (added ++ later)) :
    ∃ pushed, (if field.rewritesDeclaration then rewriteDeclaration text edits field
        else .ok edits) = .ok pushed ∧
      pushed.Pushable later ∧ pushed.edits.Perm (added ++ edits.edits) := by
  -- The edit is the one that is pushed.
  by_cases rewrites : field.rewritesDeclaration
  · rw [List.filter_cons_of_pos rewrites] at declared
    cases declared with
    | @cons _ edit _ _ here nothing =>
      cases nothing
      obtain ⟨pushed, done, pushable'⟩ := pushable.push
      have rewritten : rewriteDeclaration text edits field = .ok pushed := by
        rw [rewriteDeclaration, here.1, ← here.2]
        exact done
      exact ⟨pushed, by rw [if_pos rewrites, rewritten], pushable', EditList.push_ok done⟩
  · rw [List.filter_cons_of_neg rewrites] at declared
    cases declared
    exact ⟨edits, if_neg rewrites, pushable, .refl _⟩

/-- The planning of a field fails only where its drafts do, if the edit of its declaration can be
added. -/
theorem planField_eq {text : Text} (plan : Plan) {field : Field} {added later : List Edit}
    (declared : List.Forall₂ (DeclarationEdit text)
      ([field].filter Field.rewritesDeclaration) added)
    (pushable : plan.edits.Pushable (added ++ later)) :
    ∃ edits, planField text plan field = (draftField field plan.drafts).map
        (fun drafts => (⟨edits, drafts⟩, field.flushed)) ∧
      edits.Pushable later ∧ edits.edits.Perm (added ++ plan.edits.edits) := by
  -- The declaration is found, whatever comes of the drafts.
  obtain ⟨edits, rewritten, pushable', perm⟩ := exists_rewriteDeclaration declared pushable
  refine ⟨edits, ?_, pushable', perm⟩
  rw [planField_draft, rewritten]
  cases draftField field plan.drafts <;> rfl

/-- The planning of fields fails only where their drafts do, if the edits of their declarations can
be added. -/
theorem planFields_eq {text : Text} (plan : Plan) {fields : List Field} {added later : List Edit}
    (declared : List.Forall₂ (DeclarationEdit text) (fields.filter Field.rewritesDeclaration) added)
    (pushable : plan.edits.Pushable (added ++ later)) :
    ∃ edits, planFields text plan fields = (draftFields fields plan.drafts).map
        (fun drafts => (⟨edits, drafts⟩, fields.map Field.flushed)) ∧
      edits.Pushable later ∧ edits.edits.Perm (added ++ plan.edits.edits) := by
  -- The fields are planned in order.
  induction fields generalizing plan added with
  | nil =>
    cases declared
    exact ⟨plan.edits, rfl, pushable, .refl _⟩
  | cons field rest ih =>
    rw [← List.singleton_append, List.filter_append] at declared
    obtain ⟨front, back, rfl, here, declared⟩ := declared.exists_append
    rw [List.append_assoc] at pushable
    obtain ⟨edits, first, pushable', perm⟩ := planField_eq plan here pushable
    -- The edits of this field and of those behind it are all the edits.
    have all {edits' : EditList} (later' : edits'.edits.Perm (back ++ edits.edits)) :
        edits'.edits.Perm (front ++ back ++ plan.edits.edits) := by
      refine later'.trans ((perm.append_left back).trans ?_)
      rw [← List.append_assoc]
      exact List.perm_append_comm.append_right plan.edits.edits
    -- A draft that fails does not keep the edits from being planned, as the result says.
    cases drafted : draftField field plan.drafts with
    | error error =>
      obtain ⟨edits', -, pushable'', perm'⟩ := ih ⟨edits, []⟩ declared pushable'
      refine ⟨edits', ?_, pushable'', all perm'⟩
      rw [planFields, first, draftFields, drafted]
      rfl
    | ok drafts =>
      obtain ⟨edits', others, pushable'', perm'⟩ := ih ⟨edits, drafts⟩ declared pushable'
      refine ⟨edits', ?_, pushable'', all perm'⟩
      rw [planFields, first, draftFields, drafted]
      simp only [Except.map, bind, Except.bind, others]
      cases draftFields rest drafts <;> rfl

/-- Methods are planned if the edits of their bodies can be added. -/
theorem exists_planMethods {text : Text} {edits : EditList} {drafts : List Draft}
    {added : List Edit}
    (written : List.Forall₂ (BodyEdit text) (drafts.filter Draft.isWritten) added)
    (pushable : edits.Pushable added) :
    ∃ planned, planMethods text edits drafts = .ok planned ∧
      planned.edits.Perm (added ++ edits.edits) := by
  -- The methods are planned in order.
  induction drafts generalizing edits added with
  | nil =>
    cases written
    exact ⟨edits, rfl, .refl _⟩
  | cons draft rest ih =>
    by_cases again : draft.isWritten
    case neg =>
      rw [List.filter_cons_of_neg again] at written
      rw [planMethods, if_neg again]
      exact ih written pushable
    case pos =>
      rw [List.filter_cons_of_pos again] at written
      cases written with
      -- The body is located, and its edit can be added.
      | @cons _ edit _ others here written =>
        obtain ⟨place, located, rfl⟩ := here
        obtain ⟨pushed, done, pushable'⟩ := pushable.push
        obtain ⟨planned, rest', perm⟩ := ih written pushable'
        refine ⟨planned, ?_, perm.trans (((EditList.push_ok done).append_left others).trans
          List.perm_middle)⟩
        rw [planMethods, if_pos again, located]
        dsimp only
        exact bind_eq_ok.2 ⟨pushed, done, rest'⟩

/-- Fields to which strings are given have all assignments to them removed from the drafts. -/
theorem draftFields_scalar {fields : List Field}
    (given : ∀ field ∈ fields, field.dirty → ∃ value, field.pending = .scalar value)
    (drafts : List Draft) : draftFields fields drafts = .ok (drafts.map
      (Draft.clear ((fields.filter Field.dirty).map Field.declaredReference))) := by
  -- The fields are taken in order.
  induction fields generalizing drafts with
  | nil => exact congrArg Except.ok (List.map_id drafts).symm
  | cons field rest ih =>
    rw [List.forall_mem_cons] at given
    by_cases dirty : field.dirty
    case neg =>
      rw [draftFields, draftField, if_neg dirty, List.filter_cons_of_neg dirty]
      exact ih given.2 drafts
    case pos =>
      obtain ⟨value, pending⟩ := given.1 dirty
      rw [draftFields, draftField, if_pos dirty, pending, List.filter_cons_of_pos dirty]
      refine (ih given.2 _).trans ?_
      rw [List.map_map]
      rfl

/-- The drafts before any field is looked at. -/
def drafts (source : ClassText) : List Draft :=
  -- No body is rewritten yet.
  source.methods.map fun method => ⟨method, none⟩

/-- The drafts of the methods of a class text in which strings have been given to fields. -/
def clearedDrafts (source : ClassText) : List Draft :=
  -- The assignments to these fields are removed.
  source.methods.map fun method => (⟨method, none⟩ : Draft).clear
    ((source.fields.filter Field.dirty).map Field.declaredReference)

/-- Where strings have been given to fields, nothing but assignments is removed from the drafts. -/
theorem draftFields_drafts {source : ClassText}
    (given : ∀ field ∈ source.fields, field.dirty → ∃ value, field.pending = .scalar value) :
    draftFields source.fields source.drafts = .ok source.clearedDrafts := by
  -- All of them are removed from each draft.
  rw [draftFields_scalar given, drafts, List.map_map]
  rfl

/-- A flush of fields that were given strings drafts the bodies without the assignments to them. -/
theorem exists_flushing_cleared {source flushed : ClassText}
    (given : ∀ field ∈ source.fields, field.dirty → ∃ value, field.pending = .scalar value)
    (done : source.flush = .ok flushed) :
    ∃ flushing : Flushing source flushed, flushing.drafts = source.clearedDrafts := by
  -- The drafts of the plan are determined.
  rw [flush_eq] at done
  obtain ⟨plan, fields, planned, flushing, same⟩ := exists_plan (concerning_eq_ok.1 done)
  have drafted : draftFields source.fields source.drafts = .ok plan.drafts :=
    planFields_drafts planned
  rw [draftFields_drafts given, Except.ok.injEq] at drafted
  exact ⟨flushing, same.trans drafted.symm⟩

section Applied

variable {source : ClassText} {drafts : List Draft} {result : Text}
  (spoken : ∀ field ∈ source.fields, field.declaration ≠ [])
  (cutting : Cutting source.text [] (Text.pieces source.text) source.fields drafts result)

include spoken

include cutting in
/-- The edits of a cutting can be added in the order in which they are planned. -/
theorem Cutting.pushable : EditList.empty.Pushable (cutting.declarations ++ cutting.bodies) := by
  -- The edits of a cutting are in the order of the text.
  have covers : ∀ edit ∈ cutting.declarations ++ cutting.bodies,
      edit.span.start < edit.span.stop := by
    intro edit member
    rcases List.mem_append.1 member with member | member
    · obtain ⟨field, inside, declared⟩ := List.exists_of_mem_right cutting.declared member
      exact declared.covers (spoken field (List.mem_filter.1 inside).1)
    · obtain ⟨draft, -, written⟩ := List.exists_of_mem_right cutting.written member
      exact written.covers
  exact EditList.pushable_empty cutting.edits covers (Part.pairwise_replacements [] cutting.parts).2

/-- A flush whose declarations can be cut fails as the drafts do. -/
theorem applyChanges_error (cutting : Cutting source.text [] (Text.pieces source.text)
    source.fields drafts result) {error : Error}
    (failed : draftFields source.fields source.drafts = .error error) :
    source.applyChanges = .error error := by
  -- Nothing else is planned before.
  obtain ⟨edits, planned, -⟩ :=
    planFields_eq ⟨.empty, source.drafts⟩ cutting.declared (cutting.pushable spoken)
  rw [failed] at planned
  rw [applyChanges]
  exact congrArg (fun attempt : Except Error (Plan × List Field) => attempt >>= _) planned

/-- A flush whose lines can be cut succeeds if the drafts do, and leaves what the cutting leaves. -/
theorem exists_flushing (cutting : Cutting source.text [] (Text.pieces source.text)
    source.fields drafts result) (drafted : draftFields source.fields source.drafts = .ok drafts) :
    ∃ flushed, source.applyChanges = .ok flushed ∧
      ∃ flushing : Flushing source flushed, flushing.drafts = drafts ∧ flushed.text = result := by
  -- Every edit is found, and it can be added to those before it.
  obtain ⟨edits, planned, pushable, perm⟩ :=
    planFields_eq ⟨.empty, source.drafts⟩ cutting.declared (cutting.pushable spoken)
  rw [drafted] at planned
  obtain ⟨edits', methods, perm'⟩ := exists_planMethods cutting.written pushable
  have all : edits'.edits.Perm (cutting.declarations ++ cutting.bodies) := by
    refine perm'.trans ((perm.append_left cutting.bodies).trans ?_)
    rw [show EditList.empty.edits = [] from rfl, List.append_nil]
    exact List.perm_append_comm
  -- Each edit has been located in the text, so that the text can be edited.
  have inside : ∀ edit ∈ edits'.edits, EditList.fits source.text edit.span := by
    intro edit member
    rcases List.mem_append.1 (all.subset member) with member | member
    · obtain ⟨field, -, declared⟩ := List.exists_of_mem_right cutting.declared member
      exact declared.fits
    · obtain ⟨draft, -, written⟩ := List.exists_of_mem_right cutting.written member
      exact written.fits
  obtain ⟨text, applied⟩ := EditList.exists_apply inside
  obtain ⟨-, runs, -⟩ := planFields_ok planned
  have made := EditList.apply_ok applied
  have done : source.applyChanges = .ok { source with
      text := text, fields := source.fields.map Field.flushed,
      methods := drafts.map Draft.settled } :=
    bind_eq_ok.2 ⟨_, planned, bind_eq_ok.2 ⟨edits', methods,
      bind_eq_ok.2 ⟨text, applied, rfl⟩⟩⟩
  refine ⟨_, done, ⟨cutting.declarations, cutting.bodies, edits', drafts, cutting.declared,
    cutting.written, all, runs, by rw [made]⟩, rfl, ?_⟩
  exact made.trans (cutting.substitute (Text.flatten_pieces source.text) all)

end Applied

end ClassText

end Smali
