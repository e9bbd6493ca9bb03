import Smali.Proofs.Header
import Smali.Proofs.Rename.Mentions

/-! A class takes a new name and then its old one again, and nothing else has changed. -/

namespace Smali

/-- A header line holds the name of the class that it gives. -/
theorem Header.infix_of_parseClass {line : Text} {header : ClassHeader}
    (done : parseClass line = .ok header) : header.descriptor <:+: line := by
  -- The name ends the line without the blanks around it.
  obtain ⟨-, -, front, c, whole, -⟩ := exists_front done
  refine List.IsInfix.trans ⟨front ++ [c], [], ?_⟩ (Text.trim_isInfix line)
  rw [whole]
  simp

/-- A class text holds the name of its class. -/
theorem ClassText.descriptor_infix {text : Text} {source : ClassText}
    (done : parse text = .ok source) : source.descriptor <:+: text := by
  -- The name stands in the line of the header.
  simp only [parse, bind_eq_ok, pure_eq_ok] at done
  obtain ⟨header, read, superclass, -, reading, -, rfl⟩ := done
  unfold readHeader at read
  split at read
  · next line found =>
    have member : line.piece ∈ Text.pieces text :=
      Text.piece_mem_pieces (List.mem_of_find?_eq_some found)
    have content : line.content <:+: line.piece := (List.prefix_append _ _).isInfix
    have piece : line.piece <:+: text := by
      rw [← Text.flatten_pieces text]
      exact List.infix_of_mem_flatten member
    exact (Header.infix_of_parseClass read).trans (content.trans piece)
  · exact absurd read refuse_ne_ok

/-- Settled documents with the same text say the same. -/
theorem Document.Settled.eq_of_text {document other : Document} (settled : document.Settled)
    (settled' : other.Settled) (same : document.text = other.text) :
    document.toClassText = other.toClassText := by
  -- Both are what is read from it.
  unfold Document.Settled at settled settled'
  rw [same, settled'] at settled
  exact (Except.ok.inj settled).symm

namespace Collection

variable {collection renamed : Collection} {old new : Text}

/-- A class that no text mentions is not in a settled collection. -/
theorem document?_of_absent (settled : collection.Settled)
    (absent : ∀ document ∈ collection.documents, ¬ new <:+: document.text) :
    collection.document? new = none := by
  -- Its document would hold its name.
  refine List.find?_eq_none.2 fun document member same => absent document member ?_
  have named : document.descriptor = new := by simpa using same
  rw [← named]
  exact ClassText.descriptor_infix (settled document member)

/-- After a class is renamed to one that no text mentioned, no document has the old class. -/
theorem document?_of_renamed (renames : Renames old new) (settled : collection.Settled)
    (absent : ∀ document ∈ collection.documents, ¬ new <:+: document.text)
    (each : List.Forall₂ (fun before after : Document => before.Renamed old new after.toClassText)
      collection.documents renamed.documents) : renamed.document? old = none := by
  -- A class becomes the old one only by staying it, but the old one is replaced.
  refine List.find?_eq_none.2 fun after member same => ?_
  have named : after.descriptor = old := by simpa using same
  obtain ⟨before, inside, becomes⟩ := List.exists_of_mem_right each member
  have outside : ¬ new <:+: before.descriptor := fun held =>
    absent before inside (held.trans (ClassText.descriptor_infix (settled before inside)))
  have whole : Text.replace old new before.descriptor = old := by
    rw [← becomes.descriptor, named]
  by_cases held : old <:+: before.descriptor
  · have comes := (renames.infix_replace before.descriptor).2 (.inl held)
    rw [whole] at comes
    exact outside (comes.trans held)
  · rw [Text.replace_absent renames.old.ne_nil held] at whole
    exact held (whole ▸ List.infix_rfl)

/-- A class of texts that were just read takes a name that none of them mentions, and then its old
name again. Both renamings succeed without failures, and all texts and all that is read from them
are what they were. -/
theorem rename_undone {config : Config} {sources : List (Path × Text)} (renames : Renames old new)
    (absent : ∀ document ∈ (ofSources config sources).documents,
      Text.contains new document.text = false) :
    ∃ renamed report restored report',
      (ofSources config sources).rename old new = .ok (renamed, report) ∧
        report.failures = [] ∧
      renamed.rename new old = .ok (restored, report') ∧ report'.failures = [] ∧
        restored.documents.map Document.toClassText =
          (ofSources config sources).documents.map Document.toClassText := by
  -- Settled documents are determined by their texts, which the second renaming restores.
  have settled := settled_ofSources config sources
  generalize ofSources config sources = collection at absent settled ⊢
  have absent : ∀ document ∈ collection.documents, ¬ new <:+: document.text := by
    intro document member
    rw [← Text.contains_iff, absent document member]
    exact Bool.false_ne_true
  -- The new name is free, because no document has it.
  obtain ⟨renamed, report, done⟩ := rename_of_free renames (document?_of_absent settled absent)
  obtain ⟨whole, each⟩ := rename_class renames settled done
  have settled' := settled_rename settled done
  -- Afterwards the old name is free, because every document has lost it.
  obtain ⟨restored, report', done'⟩ :=
    rename_of_free renames.symm (document?_of_renamed renames settled absent each)
  obtain ⟨whole', each'⟩ := rename_class renames.symm settled' done'
  have settled'' := settled_rename settled' done'
  refine ⟨renamed, report, restored, report', done, whole, done', whole', ?_⟩
  -- The second replacement undoes the first one wherever the new name was absent.
  have both : List.Forall₂ (fun before after : Document =>
      ¬ new <:+: before.text → after.text = before.text)
      collection.documents restored.documents := by
    refine each.trans_of (fun before middle after here there outside => ?_) each'
    rw [there.text, here.text, renames.replace_replace outside]
  refine (both.map_eq _ _ fun before inside after inside' same => ?_).symm
  exact (settled before inside).eq_of_text (settled'' after inside')
    (same (absent before inside)).symm

/-- In the sample the first class gets a name that is not mentioned, and its old name again. -/
theorem rename_undone_sample :
    (∀ document ∈ (ofSources {} sampleSources).documents,
      Text.contains "Lcc;".toList document.text = false) ∧
    ∃ renamed report restored report',
      (ofSources {} sampleSources).rename "La;".toList "Lcc;".toList = .ok (renamed, report) ∧
        report.failures = [] ∧
      renamed.rename "Lcc;".toList "La;".toList = .ok (restored, report') ∧
        report'.failures = [] ∧
        restored.documents.map Document.toClassText =
          (ofSources {} sampleSources).documents.map Document.toClassText := by
  -- The texts of the sample are looked through.
  have absent : ∀ document ∈ (ofSources {} sampleSources).documents,
      Text.contains "Lcc;".toList document.text = false := by
    decide +kernel
  have old : Descriptor.IsPlain "La;".toList :=
    Descriptor.isPlain_of_usual (show ['a'] ≠ [] by decide) (by decide)
  have new : Descriptor.IsPlain "Lcc;".toList :=
    Descriptor.isPlain_of_usual (show ['c', 'c'] ≠ [] by decide) (by decide)
  exact ⟨absent, rename_undone ⟨old, new⟩ absent⟩

end Collection

end Smali
