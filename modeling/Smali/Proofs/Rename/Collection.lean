import Smali.Collection.Rename
import Smali.Proofs.Field
import Smali.Proofs.Rename.ClassText

/-! The classes of a collection are read alike before and after one of them is renamed. -/

namespace Smali

/-- The members that are read have nothing that is still to be written. -/
theorem ClassText.Reads.clean {owner : Text} {pieces : List Text} {fields : List Field}
    {methods : List Method} (reads : Reads owner pieces fields methods) :
    (∀ field ∈ fields, field.dirty = false) ∧ ∀ method ∈ methods, method.dirty = false := by
  -- Readers give members without changes.
  induction reads with
  | done => simp
  | plain _ _ _ _ ih => exact ih
  | field _ parsed _ ih =>
    refine ⟨fun field member => ?_, ih.2⟩
    rcases List.mem_cons.1 member with rfl | member
    · rw [(Field.reading_of_parse parsed).fresh]
    · exact ih.1 field member
  | method _ _ _ parsed _ ih =>
    refine ⟨ih.1, fun method member => ?_⟩
    rcases List.mem_cons.1 member with rfl | member
    · exact (Method.exists_of_parse parsed).choose_spec.2.2.2.1
    · exact ih.2 method member

/-- A text that holds another one holds its characters. -/
theorem Text.mem_of_contains {needle text : Text} (held : contains needle text) {c : Char}
    (member : c ∈ needle) : c ∈ text := by
  -- The other text stands somewhere.
  induction text with
  | nil =>
    have empty : needle = [] := by simpa [contains] using held
    rw [empty] at member
    cases member
  | cons d rest ih =>
    rw [contains, Bool.or_eq_true, List.isPrefixOf_iff_prefix] at held
    rcases held with here | later
    · exact here.subset member
    · exact List.mem_cons_of_mem _ (ih later)

/-- A plain descriptor is that of a class. -/
theorem Descriptor.IsPlain.isClass {descriptor : Text} (plain : Descriptor.IsPlain descriptor) :
    Descriptor.isClass descriptor := by
  -- It is long enough and has the right ends.
  have long := plain.long
  have first := plain.head?_eq
  have last := plain.getLast?_eq
  obtain ⟨rest, rfl⟩ := List.head?_eq_some_iff.1 first
  simp only [Descriptor.isClass, Text.endsWith, last, List.isPrefixOf, Bool.and_eq_true,
    decide_eq_true_eq]
  exact ⟨⟨by omega, by simp⟩, by simp⟩

/-- A plain descriptor is a reference to its class. -/
theorem Reference.parse_plain {descriptor : Text} (plain : Descriptor.IsPlain descriptor) :
    parse descriptor = .ok (.ofClass descriptor) := by
  -- It holds neither blanks nor an arrow.
  have trimmed : Text.trim descriptor = descriptor := by
    refine Text.trim_eq_self (fun c first => ?_) fun c last => ?_
    · rw [plain.head?_eq, Option.some.injEq] at first
      exact first ▸ by decide
    · rw [plain.getLast?_eq, Option.some.injEq] at last
      exact last ▸ by decide
  have noArrow : Text.contains arrow descriptor = false := by
    rw [← Bool.not_eq_true]
    intro held
    have head : '>' ∈ arrow := by decide
    exact plain.not_mem (by decide) (Text.mem_of_contains held head)
  simp only [parse, trimmed, noArrow, plain.isClass, Bool.false_eq_true, if_false, if_true]

/-- A document holds all that is read from its text, and nothing else. -/
def Document.Settled (document : Document) : Prop :=
  -- This includes the lines that were left out.
  ClassText.parse document.text = .ok document.toClassText

namespace Document

/-- A settled document is coherent. -/
theorem Settled.coherent {document : Document} (settled : document.Settled) :
    document.Coherent :=
  -- It is what is read from its text.
  ⟨document.toClassText, settled, rfl, rfl, rfl, rfl, rfl⟩

/-- The members of a settled document are read from the lines of its text. -/
theorem Settled.reads {document : Document} (settled : document.Settled) :
    ClassText.Reads document.descriptor (Text.pieces document.text) document.fields
      document.methods :=
  -- This is what a coherent class text holds.
  (ClassText.coherent_iff.1 settled.coherent).members

/-- A settled document has nothing that is still to be written. -/
theorem Settled.clean {document : Document} (settled : document.Settled) :
    document.toClassText.isDirty = false := by
  -- Its members have been read.
  simp only [ClassText.isDirty, Bool.or_eq_false_iff, List.any_eq_false, Bool.not_eq_true]
  exact settled.reads.clean

/-- A flush leaves a document without changes as it is. -/
theorem flush_of_clean {document : Document} (clean : document.isDirty = false) :
    document.flush = .ok document := by
  -- There is nothing to write.
  unfold flush ClassText.flush
  rw [clean]
  simp [withSource, bind, Except.bind, pure, Except.pure]

/-- A flush leaves a settled document as it is. -/
theorem Settled.flush {document : Document} (settled : document.Settled) :
    document.flush = .ok document :=
  -- There is nothing to write.
  flush_of_clean settled.clean

/-- A document that is read is settled. -/
theorem settled_of_parse {options : ParseOptions} {text : Text} {document : Document}
    (done : parse options text = .ok document) : document.Settled := by
  -- The text that was read is the one that is kept.
  simp only [parse, bind_eq_ok, pure_eq_ok] at done
  obtain ⟨source, read, rfl⟩ := done
  have kept := read
  simp only [ClassText.parse, bind_eq_ok, pure_eq_ok] at kept
  obtain ⟨header, -, superclass, -, reading, -, rfl⟩ := kept
  exact read

end Document

namespace Collection

/-- All documents of a collection are settled. -/
def Settled (collection : Collection) : Prop :=
  -- What failed to load does not count.
  ∀ document ∈ collection.documents, document.Settled

/-- What holds of all documents of a collection, and of what was loaded, holds of all documents
when it is added. -/
theorem forall_add {Holds : Document → Prop} {collection : Collection}
    (all : ∀ document ∈ collection.documents, Holds document) {path : Path}
    {loaded : Except Error Document} (fresh : ∀ document, loaded = .ok document → Holds document) :
    ∀ document ∈ (collection.add path loaded).documents, Holds document := by
  -- At most the loaded document comes to the others.
  unfold Collection.add
  split
  · exact all
  · next document =>
    split
    · intro other member
      rcases List.mem_append.1 member with member | member
      · exact all other member
      · exact List.mem_singleton.1 member ▸ fresh document rfl
    · exact all

/-- What holds of everything that is loaded holds of all documents. -/
theorem forall_foldl_add {Source : Type} {Holds : Document → Prop} {pathOf : Source → Path}
    {load : Source → Except Error Document} {sources : List Source} {start : Collection}
    (all : ∀ document ∈ start.documents, Holds document)
    (fresh : ∀ source ∈ sources, ∀ document, load source = .ok document → Holds document) :
    ∀ document ∈ (sources.foldl (fun collection source =>
      collection.add (pathOf source) (load source)) start).documents, Holds document := by
  -- Sources are added one by one.
  induction sources generalizing start with
  | nil => exact all
  | cons source rest ih =>
    exact ih (forall_add all (fresh source (by simp))) fun other member =>
      fresh other (List.mem_cons_of_mem _ member)

/-- A collection of texts is settled. -/
theorem settled_ofSources (config : Config) (sources : List (Path × Text)) :
    (ofSources config sources).Settled := by
  -- Each text has just been read.
  refine forall_foldl_add (fun _ member => by cases member) fun source _ document loaded => ?_
  cases read : Document.parse config.options source.2 with
  | error error => rw [read] at loaded; cases loaded
  | ok fresh =>
    rw [read] at loaded
    cases loaded
    exact (Document.settled_of_parse read : fresh.Settled)

end Collection

/-- Moves the document if there is somewhere to move it to. -/
def Document.moveTo (target : Option Path) (document : Document) : Document :=
  -- Without a target it stays where it is.
  match target with
  | some target => document.relocate target
  | none => document

/-- A document that is moved keeps its text and what is read from it. -/
@[simp] theorem Document.toClassText_moveTo (target : Option Path) (document : Document) :
    (document.moveTo target).toClassText = document.toClassText := by
  -- Only the places change.
  cases target with
  | none => rfl
  | some target =>
    simp only [moveTo, relocate]
    split <;> rfl

/-- What a renaming makes of a document, and what it reports. -/
inductive Renaming.Applied (task : Renaming) (document : Document) :
    Document × RenameReport → Prop where
  /-- A text without anything to rename stays. -/
  | kept (same : task.rewrite document.descriptor document.text = document.text) :
      Applied task document (document, {})
  /-- A text that would no longer be read stays. -/
  | refused {error : Error}
      (unread : ClassText.parse (task.rewrite document.descriptor document.text) = .error error) :
      Applied task document (document, { failures := [⟨document.path.getD ⟨[]⟩, error⟩] })
  /-- Another text is read again, and the document of a renamed class moves. -/
  | rewritten {source : ClassText}
      (changed : task.rewrite document.descriptor document.text ≠ document.text)
      (read : ClassText.parse (task.rewrite document.descriptor document.text) = .ok source) :
      Applied task document
        (({ document.withSource source with modified := true } : Document).moveTo
          (if task.renamesClass document.descriptor then task.target else none),
        { rewritten := [source.descriptor]
          relocated :=
            (if task.renamesClass document.descriptor then task.target else none).toList })

/-- A settled document is renamed without being flushed first. -/
theorem Renaming.applied (task : Renaming) {document : Document} (settled : document.Settled) :
    task.Applied document (task.applyTo document) := by
  -- The cases are those of the new text.
  unfold applyTo
  simp only [settled.flush]
  split
  · next same => exact .kept same
  · next changed =>
    simp only [Document.setText]
    cases read : ClassText.parse (task.rewrite document.descriptor document.text) with
    | error error => exact .refused read
    | ok source =>
      have made := Applied.rewritten changed read
      generalize (if task.renamesClass document.descriptor then task.target else none) = target
        at made ⊢
      cases target <;> exact made

/-- Renaming a class replaces it in every settled document, without failures. -/
theorem Renaming.applyTo_settled {task : Renaming} {old new : Text} (renames : Renames old new)
    (fromClass : task.old = .ofClass old) (toClass : task.new = .ofClass new)
    {document : Document} (settled : document.Settled) :
    (task.applyTo document).2.failures = [] ∧
      document.Renamed old new (task.applyTo document).1.toClassText := by
  -- The replaced text is read like the old one.
  have rewrite : task.rewrite document.descriptor document.text =
      Text.replace old new document.text := by
    rw [Renaming.rewrite, fromClass, toClass]
    rfl
  have alike := renames.parse_replace document.text
  rw [settled] at alike
  obtain ⟨after, read, renamed⟩ := alike.exists_ok
  have applied := task.applied settled
  generalize task.applyTo document = outcome at applied ⊢
  cases applied with
  -- If the text does not change, the class that was read from it is the renamed one.
  | kept same =>
    rw [rewrite] at same
    rw [same, settled] at read
    cases read
    exact ⟨rfl, renamed⟩
  -- The replaced text is one that can be read.
  | refused unread =>
    rw [rewrite, read] at unread
    cases unread
  | rewritten changed read' =>
    rw [rewrite, read] at read'
    cases read'
    refine ⟨rfl, ?_⟩
    rw [Document.toClassText_moveTo]
    exact renamed

/-- The failures of a renaming are those of its parts. -/
theorem RenameReport.failures_foldl (reports : List RenameReport) (start : RenameReport) :
    (reports.foldl append start).failures =
      start.failures ++ reports.flatMap RenameReport.failures := by
  -- Each part adds its own behind the others.
  induction reports generalizing start with
  | nil => simp
  | cons report rest ih =>
    rw [List.foldl_cons, ih]
    simp [append]

/-- The renaming of a class is planned if the new class is not there yet. -/
theorem Collection.planRenaming_class {collection : Collection} {old new before after : Text}
    (fromClass : Reference.parse old = .ok (.ofClass before))
    (toClass : Reference.parse new = .ok (.ofClass after)) {task : Renaming}
    (planned : collection.planRenaming old new = .ok task) :
    collection.document? after = none ∧
      ∃ below, Descriptor.classPath after collection.config.extension = .ok below ∧
        task = ⟨.ofClass before, .ofClass after, some (collection.config.root.join below)⟩ := by
  -- The new class gives the place that its document moves to.
  simp only [planRenaming, fromClass, toClass, bind_eq_ok, Except.ok.injEq, exists_eq_left',
    Reference.sameSort, Bool.not_true, Bool.false_eq_true, if_false, pure_eq_ok] at planned
  obtain ⟨_, free, below, path, rfl⟩ := planned
  refine ⟨?_, below, path, rfl⟩
  simp only [checkTarget] at free
  split at free
  · exact absurd free refuse_ne_ok
  · next absent => exact Option.not_isSome_iff_eq_none.1 absent

/-- A renaming that is planned is made in one document after the other, and their failures are its
failures. -/
theorem Collection.exists_of_rename {collection renamed : Collection} {old new : Text}
    {report : RenameReport} (done : collection.rename old new = .ok (renamed, report)) :
    ∃ task, collection.planRenaming old new = .ok task ∧ renamed.config = collection.config ∧
      renamed.documents = collection.documents.map (fun document => (task.applyTo document).1) ∧
      report.failures =
        collection.documents.flatMap fun document => (task.applyTo document).2.failures := by
  -- The reports are put one behind the other.
  simp only [rename, bind_eq_ok, pure_eq_ok] at done
  obtain ⟨task, planned, same⟩ := done
  obtain ⟨rfl, rfl⟩ := Prod.mk.inj same
  refine ⟨task, planned, rfl, ?_, ?_⟩
  · rw [List.map_map]
    rfl
  · rw [RenameReport.failures_foldl, List.flatMap_map, List.flatMap_map]
    exact List.nil_append _

/-- Renaming a class in a settled collection replaces it in every document, without failures. -/
theorem Collection.rename_class {collection renamed : Collection} {old new : Text}
    {report : RenameReport} (renames : Renames old new) (settled : collection.Settled)
    (done : collection.rename old new = .ok (renamed, report)) :
    report.failures = [] ∧
      List.Forall₂ (fun before after : Document => before.Renamed old new after.toClassText)
        collection.documents renamed.documents := by
  -- The documents are renamed one by one.
  obtain ⟨task, planned, -, documents, failures⟩ := exists_of_rename done
  obtain ⟨-, below, -, task'⟩ := planRenaming_class (Reference.parse_plain renames.old)
    (Reference.parse_plain renames.new) planned
  have fromClass : task.old = .ofClass old := by rw [task']
  have toClass : task.new = .ofClass new := by rw [task']
  have each := fun document member =>
    Renaming.applyTo_settled renames fromClass toClass (settled document member)
  constructor
  · rw [failures]
    simpa using fun document member => (each document member).1
  · rw [documents, List.forall₂_map_right_iff]
    exact List.forall₂_same.2 fun document member => (each document member).2

/-- Renaming a class in texts that were just read replaces it in all that is read from them, and
nothing fails. -/
theorem Collection.rename_ofSources {config : Config} {sources : List (Path × Text)}
    {old new : Text} (renames : Renames old new) {renamed : Collection} {report : RenameReport}
    (done : (ofSources config sources).rename old new = .ok (renamed, report)) :
    report.failures = [] ∧
      List.Forall₂ (fun before after : Document => before.Renamed old new after.toClassText)
        (ofSources config sources).documents renamed.documents := by
  -- Every document is settled, so that each is renamed without a failure.
  exact rename_class renames (settled_ofSources config sources) done

/-- Two classes, of which the first is named in several places of the second. -/
def Collection.sampleSources : List (Path × Text) :=
  -- The name of the first class also ends a longer one.
  [(⟨['a']⟩, ".class La;\n.super Lo;\n".toList),
    (⟨['b']⟩, (".class Lb;\n.super La;\n.field La;:[La;\n.field -\n" ++
      ".method m(ILbLa;)La;\n.end method").toList)]

/-- In the sample the first class is renamed in every place. -/
theorem Collection.rename_sample : ∃ renamed : Collection,
    renamed.documents.map (fun document => document.text) =
      [".class Lcc;\n.super Lo;\n".toList,
        (".class Lb;\n.super Lcc;\n.field Lcc;:[Lcc;\n.field -\n" ++
          ".method m(ILbLcc;)Lcc;\n.end method").toList] ∧
    List.Forall₂ (fun before after : Document =>
        before.Renamed "La;".toList "Lcc;".toList after.toClassText)
      (ofSources {} sampleSources).documents renamed.documents := by
  -- The renaming of the sample succeeds.
  have texts : ((ofSources {} sampleSources).rename "La;".toList "Lcc;".toList).map
      (fun outcome => outcome.1.documents.map fun document => document.text) =
      .ok [".class Lcc;\n.super Lo;\n".toList,
        (".class Lb;\n.super Lcc;\n.field Lcc;:[Lcc;\n.field -\n" ++
          ".method m(ILbLcc;)Lcc;\n.end method").toList] := by
    decide +kernel
  cases done : (ofSources {} sampleSources).rename "La;".toList "Lcc;".toList with
  | error error =>
    rw [done] at texts
    cases texts
  | ok outcome =>
    obtain ⟨renamed, report⟩ := outcome
    rw [done] at texts
    have old : Descriptor.IsPlain "La;".toList :=
      Descriptor.isPlain_of_usual (show ['a'] ≠ [] by decide) (by decide)
    have new : Descriptor.IsPlain "Lcc;".toList :=
      Descriptor.isPlain_of_usual (show ['c', 'c'] ≠ [] by decide) (by decide)
    exact ⟨renamed, Except.ok.inj texts, (Collection.rename_ofSources ⟨old, new⟩ done).2⟩

end Smali
