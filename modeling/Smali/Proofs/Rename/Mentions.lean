import Smali.Proofs.Rename.Collection
import Smali.Proofs.Rename.Occurrences

/-! Renaming a class moves every mention of it, and no other mention. -/

namespace Smali

/-- Whatever is renamed in a settled document, it stays settled. -/
theorem Renaming.settled_applyTo (task : Renaming) {document : Document}
    (settled : document.Settled) : (task.applyTo document).1.Settled := by
  -- Another text has been read in the renaming itself.
  have applied := task.applied settled
  generalize task.applyTo document = outcome at applied ⊢
  cases applied with
  | kept same => exact settled
  | refused unread => exact settled
  | @rewritten source changed read =>
    show ClassText.parse _ = _
    rw [Document.toClassText_moveTo]
    show ClassText.parse source.text = .ok source
    rw [ClassText.text_of_parse read, read]

namespace Collection

variable {collection renamed : Collection} {old new : Text} {report : RenameReport}

/-- Whatever is renamed in a settled collection, it stays settled. -/
theorem settled_rename (settled : collection.Settled)
    (done : collection.rename old new = .ok (renamed, report)) : renamed.Settled := by
  -- Each document stays settled.
  obtain ⟨task, -, -, documents, -⟩ := exists_of_rename done
  intro document member
  rw [documents] at member
  obtain ⟨before, inside, rfl⟩ := List.mem_map.1 member
  exact task.settled_applyTo (settled before inside)

/-- The renaming of a class to one that is not there yet is planned. -/
theorem planRenaming_of_free (renames : Renames old new) (free : collection.document? new = none) :
    ∃ target, collection.planRenaming old new = .ok ⟨.ofClass old, .ofClass new, some target⟩ := by
  -- The new class has a path.
  obtain ⟨below, path⟩ : ∃ below,
      Descriptor.classPath new collection.config.extension = .ok below := by
    unfold Descriptor.classPath
    rw [if_pos renames.new.isClass]
    exact ⟨_, rfl⟩
  refine ⟨collection.config.root.join below, ?_⟩
  simp only [planRenaming, Reference.parse_plain renames.old, Reference.parse_plain renames.new,
    bind_eq_ok, Except.ok.injEq, exists_eq_left', Reference.sameSort, Bool.not_true,
    Bool.false_eq_true, if_false, checkTarget, free, Option.isSome_none, pure_eq_ok]
  exact ⟨(), trivial, below, path, rfl⟩

/-- A class can be renamed to one that is not there yet. -/
theorem rename_of_free (renames : Renames old new) (free : collection.document? new = none) :
    ∃ renamed report, collection.rename old new = .ok (renamed, report) := by
  -- Single documents do not make a renaming fail.
  obtain ⟨target, planned⟩ := planRenaming_of_free renames free
  unfold rename
  rw [planned]
  exact ⟨_, _, rfl⟩

/-- The positions of the documents whose texts are of some kind. -/
def positions (ofKind : Text → Bool) (collection : Collection) : List Nat :=
  -- The positions come in order.
  collection.documents.findIdxs fun document => ofKind document.text

/-- The classes that mention something are those at the positions that do. -/
theorem mentions_eq (text : Text) (collection : Collection) :
    collection.mentions text = (collection.positions (Text.contains text)).filterMap fun index =>
      collection.documents[index]?.map fun document => document.descriptor := by
  -- The documents are looked through one by one.
  unfold mentions positions
  induction collection.documents with
  | nil => rfl
  | cons document rest ih =>
    have later : (rest.findIdxs (fun document => Text.contains text document.text) 1).filterMap
        (fun index => (document :: rest)[index]?.map fun document => document.descriptor) =
        (rest.findIdxs fun document => Text.contains text document.text).filterMap
          fun index => rest[index]?.map fun document => document.descriptor := by
      rw [List.findIdxs_start, List.filterMap_map]
      rfl
    rw [List.findIdxs_cons, List.filter_cons]
    split
    · rw [List.map_cons, ih, ← later]
      rfl
    · rw [ih, ← later]

/-- After a class of texts that were just read is renamed, no document mentions the old class, and
the new one is mentioned at exactly the positions at which one of both was mentioned before. -/
theorem mentions_rename {config : Config} {sources : List (Path × Text)}
    (renames : Renames old new) (notOld : ¬ old <:+ new) (notNew : ¬ new <:+ old)
    (done : (ofSources config sources).rename old new = .ok (renamed, report)) :
    renamed.mentions old = [] ∧
      renamed.positions (Text.contains new) = (ofSources config sources).positions
        (fun text => Text.contains old text || Text.contains new text) ∧
      renamed.mentions new = ((ofSources config sources).positions
        (fun text => Text.contains old text || Text.contains new text)).filterMap fun index =>
          renamed.documents[index]?.map fun document => document.descriptor := by
  -- Each text is looked at for itself.
  have texts := (rename_class renames (settled_ofSources config sources) done).2
  have moved : renamed.positions (Text.contains new) = (ofSources config sources).positions
      (fun text => Text.contains old text || Text.contains new text) := by
    refine (texts.findIdxs _ _ (fun before after here => ?_) 0).symm
    rw [Bool.eq_iff_iff, Bool.or_eq_true, Text.contains_iff, Text.contains_iff,
      Text.contains_iff, here.text]
    exact (renames.infix_replace before.text).symm
  refine ⟨?_, moved, ?_⟩
  · have absent : ∀ document ∈ renamed.documents, ¬ Text.contains old document.text := by
      intro document member
      obtain ⟨before, -, same⟩ := List.exists_of_mem_right texts member
      rw [same.text, Text.contains_iff]
      exact renames.not_infix_replace notOld notNew before.text
    rw [mentions, List.filter_eq_nil_iff.2 absent, List.map_nil]
  · rw [mentions_eq, moved]

/-- Three classes, of which the second mentions neither the first nor the one that the third has as
its superclass. -/
def sampleMentions : List (Path × Text) :=
  -- The superclass of the third class is not in the collection.
  [(⟨['a']⟩, ".class La;\n.super Lo;\n".toList), (⟨['b']⟩, ".class Lb;\n.super Lo;\n".toList),
    (⟨['c']⟩, ".class Lc;\n.super Lcc;\n".toList)]

/-- In the sample the new name of the first class is then mentioned by the first and the third. -/
theorem mentions_rename_sample : ∃ renamed : Collection,
    renamed.mentions "La;".toList = [] ∧
      renamed.positions (Text.contains "Lcc;".toList) = [0, 2] ∧
      renamed.mentions "Lcc;".toList = ["Lcc;".toList, "Lc;".toList] := by
  -- The renaming of the sample succeeds.
  have classes : ((ofSources {} sampleMentions).rename "La;".toList "Lcc;".toList).map
      (fun outcome => outcome.1.documents.map fun document => document.descriptor) =
      .ok ["Lcc;".toList, "Lb;".toList, "Lc;".toList] := by
    decide +kernel
  have before : (ofSources {} sampleMentions).positions (fun text =>
      Text.contains "La;".toList text || Text.contains "Lcc;".toList text) = [0, 2] := by
    decide +kernel
  have renames : Renames "La;".toList "Lcc;".toList :=
    ⟨Descriptor.isPlain_of_usual (show ['a'] ≠ [] by decide) (by decide),
      Descriptor.isPlain_of_usual (show ['c', 'c'] ≠ [] by decide) (by decide)⟩
  cases done : (ofSources {} sampleMentions).rename "La;".toList "Lcc;".toList with
  | error error =>
    rw [done] at classes
    cases classes
  | ok outcome =>
    obtain ⟨renamed, report⟩ := outcome
    obtain ⟨gone, places, come⟩ := mentions_rename renames (by decide) (by decide) done
    rw [before] at places come
    rw [done] at classes
    have classes : renamed.documents.map (fun document => document.descriptor) =
        ["Lcc;".toList, "Lb;".toList, "Lc;".toList] := Except.ok.inj classes
    refine ⟨renamed, gone, places, ?_⟩
    rw [come]
    simp only [← List.getElem?_map, classes]
    rfl

end Collection

end Smali
