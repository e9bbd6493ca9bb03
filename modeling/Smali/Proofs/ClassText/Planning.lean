import Smali.ClassText.Flush
import Smali.Proofs.Attempt
import Smali.Proofs.Pairing
import Smali.Proofs.Text.Substitution

/-! A flush plans one edit for each declaration and each body that it writes, and no other. -/

namespace Smali

/-- The field as a flush leaves it. -/
def Field.flushed (field : Field) : Field :=
  -- A field without changes is not touched.
  if field.dirty then
    field.settled (if field.rewritesDeclaration then some field.declarationText else none)
  else field

namespace ClassText

/-- An edit writes the declaration of a field again, in the place where it is found. -/
def DeclarationEdit (text : Text) (field : Field) (edit : Edit) : Prop :=
  -- The place is that of the old declaration.
  locateDeclaration text field.declaration = some edit.span ∧
    edit.replacement = field.declarationText

/-- An edit writes the body of a method again, in the place where the method is found. -/
def BodyEdit (text : Text) (draft : Draft) (edit : Edit) : Prop :=
  -- The terminator is written back as it stands.
  ∃ place, locateMethod text draft.method.signature = some place ∧
    edit = ⟨place.span, draft.body ++ place.terminator⟩

namespace Draft

/-- What the changes of one field make of a draft. -/
inductive Step (field : Field) : Draft → Draft → Prop where
  /-- The draft stays as it is. -/
  | same (draft : Draft) : Step field draft draft
  /-- The static initializer builds the list value of the field. -/
  | built {draft : Draft} {values : List Text} {body : Text}
      (pending : field.pending = .composite values)
      (initializer : draft.method.isStaticInitializer)
      (injected : ArrayBlock.inject draft.body values field.reference = .ok body) :
      Step field draft { draft with rewritten := some body }
  /-- The instructions that write the field are removed. -/
  | stripped {draft : Draft} {value body : Text} (pending : field.pending = .scalar value)
      (removed : Method.withoutAssignments field.declaredReference draft.body = some body) :
      Step field draft { draft with rewritten := some body }

/-- What the changes of several fields make of a draft, one after the other. -/
inductive Run : List Field → Draft → Draft → Prop where
  /-- Without fields the draft stays as it is. -/
  | done (draft : Draft) : Run [] draft draft
  /-- The first field goes before the others. -/
  | step {field : Field} {rest : List Field} {draft next last : Draft}
      (first : Step field draft next) (others : Run rest next last) :
      Run (field :: rest) draft last

/-- What each step keeps, a run keeps. -/
theorem Run.induct {fields : List Field} {draft last : Draft} (run : Run fields draft last)
    (Keeps : Draft → Prop) (start : Keeps draft)
    (kept : ∀ field ∈ fields, ∀ {draft next}, Step field draft next → Keeps draft → Keeps next) :
    Keeps last := by
  -- The fields are taken in order.
  induction run with
  | done => exact start
  | step first others ih =>
    exact ih (kept _ (by simp) first start) fun field member => kept field (by simp [member])

/-- A step does not change which method a draft is for. -/
theorem Step.method {field : Field} {draft next : Draft} (step : Step field draft next) :
    next.method = draft.method := by
  -- Only the body is rewritten.
  cases step <;> rfl

/-- A run does not change which method a draft is for. -/
theorem Run.method {fields : List Field} {draft last : Draft} (run : Run fields draft last) :
    last.method = draft.method := by
  -- No step does.
  exact run.induct (fun next => next.method = draft.method) rfl
    fun _ _ _ _ step same => step.method.trans same

end Draft

/-- A draft that is not written has the body of its method. -/
theorem Draft.body_unwritten {draft : Draft} (unwritten : draft.isWritten = false) :
    draft.body = draft.method.body := by
  -- No other body has been drafted.
  simp only [isWritten, Bool.or_eq_false_iff, Option.isSome_eq_false_iff,
    Option.isNone_iff_eq_none] at unwritten
  rw [body, unwritten.1, Option.getD_none]

/-- Building a list value takes one step on the static initializer and none on the others. -/
theorem buildArray_ok {field : Field} {values : List Text} {drafts built : List Draft}
    (pending : field.pending = .composite values)
    (done : buildArray field values drafts = .ok built) :
    List.Forall₂ (Draft.Step field) drafts built := by
  -- The drafts before the static initializer are passed over.
  induction drafts generalizing built with
  | nil => simp [buildArray] at done
  | cons draft rest ih =>
    unfold buildArray at done
    split at done
    · next initializer =>
      simp only [bind_eq_ok, concerning_eq_ok, pure_eq_ok] at done
      obtain ⟨body, injected, rfl⟩ := done
      exact .cons (.built pending initializer injected)
        (List.forall₂_same.2 fun other _ => .same other)
    · simp only [bind_eq_ok, pure_eq_ok] at done
      obtain ⟨others, rest', rfl⟩ := done
      exact .cons (.same draft) (ih rest')

/-- Removing the assignments to a field takes one step on every draft. -/
theorem step_withoutAssignments {field : Field} {value : Text}
    (pending : field.pending = .scalar value) (draft : Draft) :
    Draft.Step field draft (draft.withoutAssignments field.declaredReference) := by
  -- A body without assignments stays.
  unfold Draft.withoutAssignments
  split
  · next body removed => exact .stripped pending removed
  · exact .same draft

/-- A step on every draft goes before a run on every draft. -/
theorem forall₂_run {field : Field} {rest : List Field} {drafts middle last : List Draft}
    (steps : List.Forall₂ (Draft.Step field) drafts middle)
    (runs : List.Forall₂ (Draft.Run rest) middle last) :
    List.Forall₂ (Draft.Run (field :: rest)) drafts last := by
  -- The drafts are taken one by one.
  induction steps generalizing last with
  | nil => cases runs; exact .nil
  | cons first _ ih =>
    cases runs with
    | cons run others => exact .cons (.step first run) (ih others)

/-- What the changes of a field make of the drafts of all methods. -/
def draftField (field : Field) (drafts : List Draft) : Except Error (List Draft) :=
  -- A list is built, and for a string the old assignments go.
  if field.dirty then
    match field.pending with
    | .composite values => buildArray field values drafts
    | .scalar _ => .ok (drafts.map (Draft.withoutAssignments field.declaredReference))
    | .unchanged => .ok drafts
  else .ok drafts

/-- The changes of a field take one step on every draft. -/
theorem draftField_ok {field : Field} {drafts drafts' : List Draft}
    (done : draftField field drafts = .ok drafts') :
    List.Forall₂ (Draft.Step field) drafts drafts' := by
  -- Without a value to be written all drafts stay.
  have stay : List.Forall₂ (Draft.Step field) drafts drafts :=
    List.forall₂_same.2 fun draft _ => .same draft
  unfold draftField at done
  split at done
  · split at done
    · next values pending => exact buildArray_ok pending done
    · next value pending =>
      cases done
      rw [List.forall₂_map_right_iff]
      exact List.forall₂_same.2 fun draft _ => step_withoutAssignments pending draft
    · cases done
      exact stay
  · cases done
    exact stay

/-- The planning of a field drafts the bodies, then plans the declaration, and settles the field. -/
theorem planField_draft (text : Text) (plan : Plan) (field : Field) :
    planField text plan field = draftField field plan.drafts >>= fun drafts =>
      (if field.rewritesDeclaration then rewriteDeclaration text plan.edits field
        else .ok plan.edits) >>= fun edits =>
      .ok (⟨edits, drafts⟩, field.flushed) := by
  -- Whether the declaration is rewritten does not depend on the drafts.
  by_cases dirty : field.dirty
  · simp only [planField, draftField, dirty, if_true, Field.flushed]
    cases field.pending <;> by_cases rewrites : field.rewritesDeclaration <;>
      simp only [rewrites, if_true, Bool.false_eq_true, if_false] <;> rfl
  · have kept : field.rewritesDeclaration = false := by simp [Field.rewritesDeclaration, dirty]
    simp only [planField, draftField, dirty, kept, Field.flushed, Bool.false_eq_true, if_false]
    rfl

/-- Writing a declaration again adds the edit of that declaration. -/
theorem rewriteDeclaration_ok {text : Text} {edits edits' : EditList} {field : Field}
    (done : rewriteDeclaration text edits field = .ok edits') :
    ∃ edit, DeclarationEdit text field edit ∧ edits'.edits.Perm (edit :: edits.edits) := by
  -- The declaration has to be found.
  unfold rewriteDeclaration at done
  split at done
  · simp at done
  · next span located =>
    exact ⟨⟨span, field.declarationText⟩, ⟨located, rfl⟩, EditList.push_ok done⟩

/-- Planning a field adds the edit of its declaration, if it is rewritten, and takes one step on
every draft. -/
theorem planField_ok {text : Text} {plan plan' : Plan} {field field' : Field}
    (done : planField text plan field = .ok (plan', field')) :
    field' = field.flushed ∧ List.Forall₂ (Draft.Step field) plan.drafts plan'.drafts ∧
      ∃ added, List.Forall₂ (DeclarationEdit text)
          ([field].filter Field.rewritesDeclaration) added ∧
        plan'.edits.edits.Perm (added ++ plan.edits.edits) := by
  -- The drafts and the declaration are planned one after the other.
  simp only [planField_draft, bind_eq_ok, Except.ok.injEq, Prod.mk.injEq] at done
  obtain ⟨drafts, drafted, edits, rewritten, rfl, rfl⟩ := done
  refine ⟨rfl, draftField_ok drafted, ?_⟩
  by_cases rewrites : field.rewritesDeclaration
  · simp only [rewrites, if_true] at rewritten
    obtain ⟨edit, declared, perm⟩ := rewriteDeclaration_ok rewritten
    exact ⟨[edit], by simpa [rewrites] using declared, perm⟩
  · simp only [rewrites, Bool.false_eq_true, if_false, Except.ok.injEq] at rewritten
    exact ⟨[], by simp [rewrites], by simp [rewritten]⟩

/-- Planning fields adds the edits of the declarations that are rewritten, and takes a run on every
draft. -/
theorem planFields_ok {text : Text} {plan plan' : Plan} {fields fields' : List Field}
    (done : planFields text plan fields = .ok (plan', fields')) :
    fields' = fields.map Field.flushed ∧
      List.Forall₂ (Draft.Run fields) plan.drafts plan'.drafts ∧
      ∃ added, List.Forall₂ (DeclarationEdit text)
          (fields.filter Field.rewritesDeclaration) added ∧
        plan'.edits.edits.Perm (added ++ plan.edits.edits) := by
  -- Each field builds on the plan of the fields before it.
  induction fields generalizing plan plan' fields' with
  | nil =>
    simp only [planFields, Except.ok.injEq, Prod.mk.injEq] at done
    obtain ⟨rfl, rfl⟩ := done
    exact ⟨rfl, List.forall₂_same.2 fun draft _ => .done draft, [], .nil, .refl _⟩
  | cons field rest ih =>
    simp only [planFields, bind_eq_ok, pure_eq_ok, Prod.exists, Prod.mk.injEq] at done
    obtain ⟨middle, field', first, last, rest', others, rfl, rfl⟩ := done
    obtain ⟨rfl, steps, added, declared, perm⟩ := planField_ok first
    obtain ⟨rfl, runs, addedRest, declaredRest, permRest⟩ := ih others
    refine ⟨rfl, forall₂_run steps runs, added ++ addedRest, ?_, ?_⟩
    · rw [← List.singleton_append, List.filter_append]
      exact List.rel_append declared declaredRest
    · refine permRest.trans ((perm.append_left addedRest).trans ?_)
      rw [← List.append_assoc]
      exact List.perm_append_comm.append_right plan.edits.edits

/-- Planning methods adds the edits of the bodies that are written. -/
theorem planMethods_ok {text : Text} {edits edits' : EditList} {drafts : List Draft}
    (done : planMethods text edits drafts = .ok edits') :
    ∃ added, List.Forall₂ (BodyEdit text) (drafts.filter Draft.isWritten) added ∧
      edits'.edits.Perm (added ++ edits.edits) := by
  -- Each body that is written has its own edit.
  induction drafts generalizing edits with
  | nil =>
    simp only [planMethods, Except.ok.injEq] at done
    exact ⟨[], .nil, by simp [done]⟩
  | cons draft rest ih =>
    by_cases written : draft.isWritten
    case neg =>
      simp only [planMethods, written, Bool.false_eq_true, if_false] at done
      simpa [written] using ih done
    case pos =>
      simp only [planMethods, written, if_true] at done
      split at done
      · simp at done
      · next place located =>
        obtain ⟨middle, pushed, others⟩ := bind_eq_ok.1 done
        obtain ⟨added, bodies, perm⟩ := ih others
        refine ⟨⟨place.span, draft.body ++ place.terminator⟩ :: added, ?_, ?_⟩
        · rw [List.filter_cons_of_pos written]
          exact .cons ⟨place, located, rfl⟩ bodies
        · -- The edit list keeps its edits in the order of the text.
          exact perm.trans (((EditList.push_ok pushed).append_left added).trans
            List.perm_middle)

/-- How a flush comes about. -/
structure Flushing (source flushed : ClassText) where
  /-- The edits of declarations, in the order of the fields. -/
  declarations : List Edit
  /-- The edits of bodies, in the order of the methods. -/
  bodies : List Edit
  /-- All edits, in the order of the text. -/
  edits : EditList
  /-- The methods with the bodies that they get. -/
  drafts : List Draft
  /-- Each declaration that is rewritten has its edit. -/
  declared : List.Forall₂ (DeclarationEdit source.text)
    (source.fields.filter Field.rewritesDeclaration) declarations
  /-- Each body that is written has its edit. -/
  written : List.Forall₂ (BodyEdit source.text) (drafts.filter Draft.isWritten) bodies
  /-- There are no other edits. -/
  perm : edits.edits.Perm (declarations ++ bodies)
  /-- The fields change the bodies in order. -/
  runs : List.Forall₂ (Draft.Run source.fields)
    (source.methods.map fun method => ⟨method, none⟩) drafts
  /-- The edits are made, and the members are settled. -/
  result : flushed = { source with
    text := EditList.substituteFrom 0 edits.edits source.text
    fields := source.fields.map Field.flushed
    methods := drafts.map Draft.settled }

/-- A flush leaves the fields written. -/
theorem Flushing.fields_eq {source flushed : ClassText} (flushing : Flushing source flushed) :
    flushed.fields = source.fields.map Field.flushed := by
  -- This is part of its result.
  rw [flushing.result]

/-- Each method is taken to its draft by the changes of the fields. -/
theorem Flushing.drafted {source flushed : ClassText} (flushing : Flushing source flushed) :
    List.Forall₂ (fun method draft => Draft.Run source.fields ⟨method, none⟩ draft) source.methods
      flushing.drafts :=
  -- No method is drafted without its run.
  List.forall₂_map_left_iff.1 flushing.runs

/-- The drafts have the signatures of the methods. -/
theorem Flushing.signatures {source flushed : ClassText} (flushing : Flushing source flushed) :
    flushing.drafts.map (fun draft => draft.method.signature) =
      source.methods.map Method.signature := by
  -- A run changes the body alone.
  refine (flushing.drafted.map_eq _ _ fun method _ draft _ run => ?_).symm
  rw [run.method]

/-- A flush leaves the methods as they were drafted. -/
theorem Flushing.methods_eq {source flushed : ClassText} (flushing : Flushing source flushed) :
    flushed.methods = flushing.drafts.map Draft.settled :=
  -- This is part of its result.
  congrArg ClassText.methods flushing.result

/-- Writing all changes plans them first and then makes the edits. -/
theorem exists_plan {source flushed : ClassText} (done : source.applyChanges = .ok flushed) :
    ∃ plan fields, planFields source.text
        ⟨EditList.empty, source.methods.map fun method => ⟨method, none⟩⟩ source.fields =
          .ok (plan, fields) ∧
      ∃ flushing : Flushing source flushed, flushing.drafts = plan.drafts := by
  -- The edits of fields are planned before those of methods.
  simp only [applyChanges, bind_eq_ok, pure_eq_ok, Prod.exists] at done
  obtain ⟨plan, fields, planned, edits, methods, text, applied, rfl⟩ := done
  obtain ⟨rfl, runs, declarations, declared, perm⟩ := planFields_ok planned
  obtain ⟨bodies, written, perm'⟩ := planMethods_ok methods
  refine ⟨plan, _, planned,
    ⟨declarations, bodies, edits, plan.drafts, declared, written, ?_, runs, ?_⟩, rfl⟩
  · have nothing : declarations ++ EditList.empty.edits = declarations := List.append_nil _
    rw [nothing] at perm
    exact perm'.trans ((perm.append_left bodies).trans List.perm_append_comm)
  · rw [EditList.apply_ok applied]

/-- Every way to write all changes is a flush. -/
theorem applyChanges_ok {source flushed : ClassText}
    (done : source.applyChanges = .ok flushed) : Nonempty (Flushing source flushed) := by
  -- The plan does not matter.
  obtain ⟨-, -, -, flushing, -⟩ := exists_plan done
  exact ⟨flushing⟩

/-- Fields without changes are not planned. -/
theorem planFields_clean (text : Text) (plan : Plan) {fields : List Field}
    (clean : ∀ field ∈ fields, field.dirty = false) :
    planFields text plan fields = .ok (plan, fields) := by
  -- Each of them is passed over.
  induction fields with
  | nil => rfl
  | cons field rest ih =>
    rw [List.forall_mem_cons] at clean
    have first : planField text plan field = .ok (plan, field) := by
      rw [planField, clean.1]
      rfl
    exact bind_eq_ok.2 ⟨_, first, bind_eq_ok.2 ⟨_, ih clean.2, rfl⟩⟩

/-- Methods without changes are not planned. -/
theorem planMethods_clean (text : Text) (edits : EditList) {methods : List Method}
    (clean : ∀ method ∈ methods, method.dirty = false) :
    planMethods text edits (methods.map fun method => ⟨method, none⟩) = .ok edits := by
  -- Each of them is passed over.
  induction methods with
  | nil => rfl
  | cons method rest ih =>
    rw [List.forall_mem_cons] at clean
    have kept : (⟨method, none⟩ : Draft).isWritten = false := by simp [Draft.isWritten, clean.1]
    rw [List.map_cons, planMethods, kept]
    exact ih clean.2

/-- A method without changes is settled. -/
theorem Draft.settled_clean {method : Method} (clean : method.dirty = false) :
    (⟨method, none⟩ : Draft).settled = method := by
  -- The body is the one that it has.
  rw [settled, body, Option.getD_none, ← clean]

/-- A class text without changes stays as it is. -/
theorem applyChanges_clean {source : ClassText} (clean : source.isDirty = false) :
    source.applyChanges = .ok source := by
  -- Nothing is planned.
  simp only [isDirty, Bool.or_eq_false_iff, List.any_eq_false, Bool.not_eq_true] at clean
  have methods : (source.methods.map fun method => (⟨method, none⟩ : Draft)).map Draft.settled =
      source.methods := by
    rw [List.map_map]
    exact (List.map_congr_left fun method member =>
      Draft.settled_clean (clean.2 method member)).trans (List.map_id _)
  refine bind_eq_ok.2 ⟨_, planFields_clean _ _ clean.1, bind_eq_ok.2 ⟨.empty,
    planMethods_clean _ _ clean.2, bind_eq_ok.2 ⟨source.text, rfl, ?_⟩⟩⟩
  rw [methods]
  rfl

/-- A flush may as well look for changes where there are none. -/
theorem flush_eq (source : ClassText) :
    source.flush = concerning source.descriptor source.applyChanges := by
  -- A class text without changes stays as it is.
  unfold flush
  split
  · rfl
  · next clean =>
    rw [applyChanges_clean (by simpa using clean)]
    rfl

/-- Every flush that succeeds comes about in this way. -/
theorem flush_ok {source flushed : ClassText} (done : source.flush = .ok flushed) :
    Nonempty (Flushing source flushed) := by
  -- The changes are written.
  rw [flush_eq] at done
  exact applyChanges_ok (concerning_eq_ok.1 done)

end ClassText

end Smali
