import Smali.Document
import Smali.Proofs.ClassText.Location
import Smali.Proofs.ClassText.Planning
import Smali.Proofs.Method.Rewriting
import Smali.Proofs.Pairing
import Mathlib.Data.List.Perm.Basic

/-! A flush replaces the declarations and the bodies that it has to, and keeps all other text. -/

namespace Smali

/-- A replacement writes the declaration of a field again on the first line that says it. -/
def WritesDeclaration (text : Text) (field : Field) (replacement : Replacement) : Prop :=
  -- The blanks around what the line says are kept.
  ∃ front line back, ClassText.SaidAt text field.declaration front line back ∧
    replacement = ⟨front.flatMap Line.piece ++ line.indent, line.trimmed, field.declarationText⟩

/-- A replacement writes a body between the first header of a method and the next terminator. -/
def WritesBody (text : Text) (method : Method) (body : Text) (replacement : Replacement) : Prop :=
  -- Neither the header nor the terminator is replaced.
  ∃ front header inside terminator back,
    ClassText.MethodAt text method.signature front header inside terminator back ∧
    replacement = ⟨(front ++ [header]).flatMap Line.piece, inside.flatMap Line.piece, body⟩

namespace ClassText

/-- The edit of a declaration replaces what the first line that says it says. -/
theorem writesDeclaration_of_edit {text : Text} {field : Field} {edit : Edit}
    (declared : DeclarationEdit text field edit) :
    ∃ replacement, WritesDeclaration text field replacement ∧ replacement.Fits text [] ∧
      edit = replacement.edit [] := by
  -- The indentation stays in front of it.
  obtain ⟨located, written⟩ := declared
  obtain ⟨front, line, back, here, spans⟩ := locateDeclaration_eq_some.1 located
  obtain ⟨span, replacement⟩ := edit
  simp only at spans written
  subst spans written
  refine ⟨_, ⟨front, line, back, here, rfl⟩, ?_, ?_⟩
  · rw [Replacement.Fits, List.append_nil]
    exact said_prefix here.split
  · simp only [Replacement.edit, List.append_nil]

/-- The edit of a body replaces the lines between its header and its terminator. -/
theorem writesBody_of_edit {text : Text} {draft : Draft} {edit : Edit}
    (written : BodyEdit text draft edit) :
    ∃ replacement again, WritesBody text draft.method draft.body replacement ∧
      replacement.Fits text again ∧ edit = replacement.edit again := by
  -- The terminator is covered by the edit, which writes it again.
  obtain ⟨place, located, rfl⟩ := written
  obtain ⟨front, header, inside, terminator, back, here, rfl⟩ := locateMethod_eq_some.1 located
  have split : Text.lines text = (front ++ header :: inside) ++ terminator :: back := by
    rw [here.split]; simp
  have before : (front ++ [header]).flatMap Line.piece ++ inside.flatMap Line.piece =
      (front ++ header :: inside).flatMap Line.piece := by
    simp
  refine ⟨_, terminator.indent ++ terminator.trimmed, ⟨front, header, inside, terminator, back,
    here, rfl⟩, ?_, rfl⟩
  rw [Replacement.Fits]
  simp only
  rw [before, ← List.append_assoc]
  exact said_prefix split

namespace Draft

/-- What a run leaves of a method is another body, if it leaves any. -/
theorem Run.rewritten {fields : List Field} {method : Method} {last : Draft}
    (run : Run fields ⟨method, none⟩ last) {body : Text} (written : last.rewritten = some body) :
    Method.Rewritten method.body body := by
  -- Each step changes the body that the steps before it have left.
  have kept := run.induct (fun draft => draft.method = method ∧
    ∀ body, draft.rewritten = some body → Method.Rewritten method.body body) ⟨rfl, by simp⟩ ?_
  · exact kept.2 body written
  · intro field _ draft next step ⟨same, earlier⟩
    -- The body that a step finds is the one of the method or one that was already rewritten.
    have onward : ∀ changed, Method.Rewritten draft.body changed →
        Method.Rewritten method.body changed := by
      intro changed rewritten
      cases before : draft.rewritten with
      | none => simpa [Draft.body, before, same] using rewritten
      | some middle =>
        have first := earlier middle before
        rw [Draft.body, before] at rewritten
        exact first.trans rewritten
    cases step with
    | same => exact ⟨same, earlier⟩
    | built pending initializer injected =>
      refine ⟨same, fun changed some' => ?_⟩
      cases some'
      exact onward _ (Method.rewritten_inject injected)
    | stripped pending removed =>
      refine ⟨same, fun changed some' => ?_⟩
      cases some'
      exact onward _ (Method.rewritten_withoutAssignments removed)

/-- The methods that are written are those that were dirty and those with another body. -/
theorem Run.isWritten_eq {fields : List Field} {method : Method} {last : Draft}
    (run : Run fields ⟨method, none⟩ last) :
    last.isWritten = (method.dirty || last.body != method.body) := by
  -- A body that was changed never comes out the same.
  have same : last.method = method := run.method
  cases written : last.rewritten with
  | none => simp [isWritten, Draft.body, written, same]
  | some body =>
    have other := (run.rewritten written).ne
    simp [isWritten, Draft.body, written, other]

end Draft

/-- The pairs of methods before and after a flush, of which the changed ones are written. -/
theorem zip_settled {fields : List Field} {methods : List Method} {drafts : List Draft}
    (runs : List.Forall₂ (Draft.Run fields) (methods.map fun method => ⟨method, none⟩) drafts) :
    ((methods.zip (drafts.map Draft.settled)).filter
        fun pair => pair.1.dirty || pair.2.body != pair.1.body) =
      (drafts.filter Draft.isWritten).map fun draft => (draft.method, draft.settled) := by
  -- The methods are taken one by one.
  induction methods generalizing drafts with
  | nil => cases runs; rfl
  | cons method rest ih =>
    cases runs with
    | @cons _ draft _ others run runs =>
      have written := run.isWritten_eq
      have same : draft.method = method := run.method
      have after : draft.settled.body = draft.body := rfl
      rw [List.map_cons, List.zip_cons_cons, List.filter_cons, List.filter_cons, ih runs, after,
        ← written]
      split
      · rw [List.map_cons, same]
      · rfl

end ClassText

/-- A flush cuts the text into parts of which it replaces one for each declaration that is
rewritten and one for each method that was dirty or gets another body, and keeps all others. -/
theorem Document.flush_parts {document flushed : Document} (done : document.flush = .ok flushed) :
    ∃ parts declarations bodies,
      parts.flatMap Part.old = document.text ∧ parts.flatMap Part.new = flushed.text ∧
      (Part.replacements [] parts).Perm (declarations ++ bodies) ∧
      List.Forall₂ (WritesDeclaration document.text)
        (document.fields.filter Field.rewritesDeclaration) declarations ∧
      List.Forall₂ (fun pair => WritesBody document.text pair.1 pair.2.body)
        ((document.methods.zip flushed.methods).filter
          fun pair => pair.1.dirty || pair.2.body != pair.1.body) bodies ∧
      List.Forall₂ (fun method after => after = { method with body := after.body, dirty := false })
        document.methods flushed.methods := by
  -- The planned edits stand for replacements, which the order of the text makes parts of.
  simp only [Document.flush, bind_eq_ok, pure_eq_ok] at done
  obtain ⟨source, flushing, rfl⟩ := done
  obtain ⟨plan⟩ := ClassText.flush_ok flushing
  -- Every planned edit is a replacement that fits where it stands in the text.
  obtain ⟨declarations, declared, spansDeclared⟩ := List.exists_forall₂_map
    (fun field (item : Replacement × Text) =>
      WritesDeclaration document.text field item.1 ∧ item.1.Fits document.text item.2)
    (fun item => item.1.edit item.2) plan.declared fun field edit writes => by
      obtain ⟨replacement, here, fits, same⟩ := ClassText.writesDeclaration_of_edit writes
      exact ⟨(replacement, []), ⟨here, fits⟩, same⟩
  obtain ⟨bodies, written, spansWritten⟩ := List.exists_forall₂_map
    (fun draft (item : Replacement × Text) =>
      WritesBody document.text draft.method draft.body item.1 ∧
        item.1.Fits document.text item.2)
    (fun item => item.1.edit item.2) plan.written fun draft edit writes => by
      obtain ⟨replacement, again, here, fits, same⟩ := ClassText.writesBody_of_edit writes
      exact ⟨(replacement, again), ⟨here, fits⟩, same⟩
  -- The edits are the same in the order of the text.
  have perm := plan.perm
  rw [spansDeclared, spansWritten, ← List.map_append] at perm
  have sorted := (congrFun (congrFun (List.eq_map_comp_perm
    fun item : Replacement × Text => item.1.edit item.2) plan.edits.edits)
    (declarations ++ bodies)).mpr perm
  obtain ⟨planned, made, perm⟩ := sorted
  have fits : ∀ item ∈ planned, item.1.Fits document.text item.2 := by
    intro item member
    rcases List.mem_append.1 (perm.subset member) with member | member
    · obtain ⟨field, -, writes⟩ := List.exists_of_mem_right declared member
      exact writes.2
    · obtain ⟨draft, -, writes⟩ := List.exists_of_mem_right written member
      exact writes.2
  have ordered := plan.edits.ordered
  rw [made] at ordered
  -- In that order they leave parts of the text between them.
  obtain ⟨parts, before, after, replaced⟩ :=
    EditList.exists_parts (show document.text = [] ++ document.text from rfl) fits (by simp)
      ordered
  refine ⟨parts, declarations.map Prod.fst, bodies.map Prod.fst, before, ?_, ?_, ?_, ?_, ?_⟩
  · rw [after, plan.result, made]
    rfl
  · rw [replaced, ← List.map_append]
    exact perm.map Prod.fst
  · rw [List.forall₂_map_right_iff]
    exact declared.imp fun _ _ writes => writes.1
  · rw [plan.result]
    simp only [Document.withSource]
    rw [ClassText.zip_settled plan.runs, List.forall₂_map_left_iff, List.forall₂_map_right_iff]
    exact written.imp fun _ _ writes => writes.1
  · rw [plan.result]
    simp only [Document.withSource]
    rw [List.forall₂_map_right_iff]
    have runs := plan.runs
    rw [List.forall₂_map_left_iff] at runs
    refine runs.imp fun method draft run => ?_
    have same : draft.method = method := run.method
    rw [← same]
    rfl

/-- A document with a field that is to become static and a method with another body. -/
def Document.sampleChanged : Document where
  -- The line endings and the comment behind the terminator are meant to be kept.
  text := (".class LA;\n.super LB;\n  .field x:I\r\n.method m()V\n nop\n .end method # m\n").toList
  descriptor := "LA;".toList
  modifiers := []
  superclass := "LB;".toList
  fields := [Field.setStatic true ⟨"LA;".toList, [], ['x'], ['I'], none, ".field x:I".toList,
    "LA;->x:I".toList, none, .unchanged, false⟩]
  methods := [⟨"LA;".toList, [], ['m'], [], [], ['V'], " return-void\n".toList, true⟩]
  diagnostics := []
  path := none
  origin := none
  modified := false

/-- In the sample only the declaration and the body are replaced. -/
theorem Document.flush_parts_sample :
    ∃ parts : List Part, parts.flatMap Part.old = sampleChanged.text ∧
      parts.flatMap Part.new = (".class LA;\n.super LB;\n  .field static x:I\r\n" ++
        ".method m()V\n return-void\n .end method # m\n").toList := by
  -- The flush of the sample succeeds.
  obtain ⟨flushed, done, text⟩ : ∃ flushed, sampleChanged.flush = .ok flushed ∧
      flushed.text = (".class LA;\n.super LB;\n  .field static x:I\r\n" ++
        ".method m()V\n return-void\n .end method # m\n").toList := ⟨_, rfl, rfl⟩
  obtain ⟨parts, _, _, before, after, _⟩ := Document.flush_parts done
  rw [text] at after
  exact ⟨parts, before, after⟩

end Smali
