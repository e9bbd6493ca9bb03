import Smali.Proofs.ClassText.Planning
import Smali.Proofs.Rename.Collection

/-! A document that a renaming cannot rewrite keeps its changes only if they cannot be written. -/

namespace Smali

/-- A flush leaves nothing that is still to be written. -/
theorem ClassText.isDirty_of_flush {source flushed : ClassText}
    (done : source.flush = .ok flushed) : flushed.isDirty = false := by
  -- Every field and every method is settled, or had no change before.
  obtain ⟨flushing⟩ := flush_ok done
  rw [flushing.result]
  simp only [isDirty, Bool.or_eq_false_iff, List.any_eq_false, Bool.not_eq_true]
  constructor
  · intro field member
    obtain ⟨before, -, rfl⟩ := List.mem_map.1 member
    unfold Field.flushed
    split
    · rfl
    · next clean => simpa using clean
  · intro method member
    obtain ⟨draft, -, rfl⟩ := List.mem_map.1 member
    rfl

namespace Document

/-- A flush leaves nothing in a document that is still to be written. -/
theorem isDirty_of_flush {document flushed : Document} (done : document.flush = .ok flushed) :
    flushed.isDirty = false := by
  -- The document gets the class text that is flushed.
  simp only [flush, bind_eq_ok, pure_eq_ok] at done
  obtain ⟨source, written, rfl⟩ := done
  exact ClassText.isDirty_of_flush written

/-- A document is as it was before, with all the changes that are still to be written. -/
structure Untouched (before after : Document) : Prop where
  /-- The text is the same. -/
  text : after.text = before.text
  /-- The fields are the same, and so is what is still to be written of them. -/
  fields : after.fields = before.fields
  /-- The methods are the same, and so is what is still to be written of them. -/
  methods : after.methods = before.methods
  /-- Something is still to be written if it was before. -/
  dirty : after.isDirty = before.isDirty
  /-- The text has changed since it was read or saved if it had before. -/
  modified : after.modified = before.modified
  /-- The place is the same. -/
  path : after.path = before.path
  /-- The place that the document was moved from is the same. -/
  origin : after.origin = before.origin

/-- A document is untouched by what leaves it as it is. -/
theorem Untouched.refl (document : Document) : document.Untouched document :=
  -- Each part is the same.
  ⟨rfl, rfl, rfl, rfl, rfl, rfl, rfl⟩

end Document

namespace Renaming

/-- A renaming reports that it could not rewrite a document. -/
def Fails (task : Renaming) (document : Document) : Prop :=
  -- Then the report on the document has a failure.
  (task.applyTo document).2.failures ≠ []

/-- A document that could not be rewritten could not be flushed either, and stays as it is, or it
is left as it was flushed. -/
theorem Fails.cases {task : Renaming} {document : Document} (fails : task.Fails document) :
    (∃ error, document.flush = .error error) ∧ (task.applyTo document).1 = document ∨
      document.flush = .ok (task.applyTo document).1 := by
  -- The text is replaced only behind the flush, and read again only behind the replacement.
  unfold Fails at fails
  unfold applyTo at fails ⊢
  cases flushed : document.flush with
  | error error => exact .inl ⟨⟨error, rfl⟩, rfl⟩
  | ok settled =>
    simp only [flushed] at fails ⊢
    split at fails
    · exact absurd rfl fails
    · next changed =>
      cases read : settled.setText (task.rewrite settled.descriptor settled.text) with
      | error error =>
        rw [if_neg changed]
        exact .inr rfl
      | ok rewritten =>
        rw [read] at fails
        exact absurd rfl fails

/-- A document that could not be rewritten is untouched exactly if there was nothing to be written
or it could not be written. -/
theorem Fails.untouched_iff {task : Renaming} {document : Document}
    (fails : task.Fails document) : document.Untouched (task.applyTo document).1 ↔
      document.isDirty = false ∨ ∃ error, document.flush = .error error := by
  -- Flushed changes are no longer waiting.
  rcases fails.cases with ⟨failed, same⟩ | flushed
  · rw [same]
    exact iff_of_true (.refl document) (.inr failed)
  · constructor
    · intro untouched
      left
      rw [← untouched.dirty]
      exact Document.isDirty_of_flush flushed
    · rintro (clean | ⟨error, failed⟩)
      · rw [Document.flush_of_clean clean, Except.ok.injEq] at flushed
        rw [← flushed]
        exact .refl document
      · rw [failed] at flushed
        cases flushed

end Renaming

namespace Collection

/-- The failures of a renaming are those of the documents one by one, and each document that has
one is untouched exactly if it had no changes to be written or they could not be written. -/
theorem rename_untouched_iff {collection renamed : Collection} {old new : Text}
    {report : RenameReport} (done : collection.rename old new = .ok (renamed, report)) :
    ∃ task, collection.planRenaming old new = .ok task ∧
      report.failures =
        collection.documents.flatMap (fun document => (task.applyTo document).2.failures) ∧
      List.Forall₂ (fun before after => task.Fails before → (before.Untouched after ↔
          before.isDirty = false ∨ ∃ error, before.flush = .error error))
        collection.documents renamed.documents := by
  -- The documents are renamed independently of each other.
  obtain ⟨task, planned, -, documents, failures⟩ := exists_of_rename done
  refine ⟨task, planned, failures, ?_⟩
  rw [documents, List.forall₂_map_right_iff]
  exact List.forall₂_same.2 fun document _ fails => fails.untouched_iff

/-- A class with one method. -/
def plainSample : Collection :=
  -- Nothing is still to be written.
  ofSources {} [(⟨"s/A.smali".toList⟩,
    ".class LA;\n.super Lo;\n.method m()V\n.end method\n".toList)]

/-- The same class with a body for its method that is still to be written. -/
def changedSample : Collection :=
  -- The text is that of the class without changes.
  plainSample.modifyDocument "LA;".toList
    (Document.modifyMethod "m()V".toList (Method.setBody "nop\n".toList))

/-- A method without a name cannot be read, so that the sample without changes stays as it is. -/
theorem rename_untouched_sample : ∃ renamed report,
    plainSample.rename "LA;->m()V".toList "LA;->()V".toList = .ok (renamed, report) ∧
      report.failures.length = 1 ∧
      List.Forall₂ Document.Untouched plainSample.documents renamed.documents := by
  -- Its only document has a failure.
  have failed : (plainSample.rename "LA;->m()V".toList "LA;->()V".toList).map
      (fun outcome => outcome.2.failures.length) = .ok 1 := by
    decide +kernel
  cases done : plainSample.rename "LA;->m()V".toList "LA;->()V".toList with
  | error error =>
    rw [done] at failed
    cases failed
  | ok outcome =>
    obtain ⟨renamed, report⟩ := outcome
    rw [done] at failed
    refine ⟨renamed, report, rfl, Except.ok.inj failed, ?_⟩
    obtain ⟨task, planned, -, each⟩ := rename_untouched_iff done
    -- The document has no changes either, so that it is left as it was.
    have fails : ∀ task ∈ (plainSample.planRenaming "LA;->m()V".toList
        "LA;->()V".toList).toOption, ∀ document ∈ plainSample.documents,
        (task.applyTo document).2.failures ≠ [] ∧ document.isDirty = false := by
      decide +kernel
    refine each.imp_mem fun before inside after _ iff' => ?_
    have here := fails task (by rw [planned]; rfl) before inside
    exact (iff' here.1).2 (.inl here.2)

/-- The sample with a change has the same failure, but the change has been written. -/
theorem rename_touched_sample : ∃ renamed report,
    changedSample.rename "LA;->m()V".toList "LA;->()V".toList = .ok (renamed, report) ∧
      report.failures.length = 1 ∧
      changedSample.documents.map (fun document => (document.text, document.isDirty)) =
        [(".class LA;\n.super Lo;\n.method m()V\n.end method\n".toList, true)] ∧
      renamed.documents.map (fun document => (document.text, document.isDirty)) =
        [(".class LA;\n.super Lo;\n.method m()V\nnop\n.end method\n".toList, false)] := by
  -- The flush succeeds before the new text is found not to be readable.
  have run : (changedSample.rename "LA;->m()V".toList "LA;->()V".toList).map
      (fun outcome => (outcome.2.failures.length,
        outcome.1.documents.map fun document => (document.text, document.isDirty))) =
      .ok (1, [(".class LA;\n.super Lo;\n.method m()V\nnop\n.end method\n".toList,
        false)]) := by
    decide +kernel
  have before : changedSample.documents.map
      (fun document => (document.text, document.isDirty)) =
        [(".class LA;\n.super Lo;\n.method m()V\n.end method\n".toList, true)] := by
    decide +kernel
  cases done : changedSample.rename "LA;->m()V".toList "LA;->()V".toList with
  | error error =>
    rw [done] at run
    cases run
  | ok outcome =>
    obtain ⟨renamed, report⟩ := outcome
    rw [done] at run
    have after := Prod.mk.inj (Except.ok.inj run)
    exact ⟨renamed, report, rfl, after.1, before, after.2⟩

end Collection

end Smali
