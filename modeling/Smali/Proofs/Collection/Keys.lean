import Mathlib.Data.List.Induction
import Mathlib.Data.List.Nodup
import Smali.Collection.Save
import Smali.Proofs.Collection.Placed
import Smali.Proofs.Document.Saving
import Smali.Proofs.Rename.Mentions

/-! The classes of a collection stay apart until a renaming brings two of them together. -/

namespace Smali

/-- Writing changes into a class text keeps the class. -/
theorem ClassText.descriptor_flush {source flushed : ClassText}
    (done : source.flush = .ok flushed) : flushed.descriptor = source.descriptor := by
  -- Only the text and the members can change.
  unfold flush at done
  split at done
  · rw [concerning_eq_ok] at done
    simp only [applyChanges, bind_eq_ok, pure_eq_ok] at done
    obtain ⟨_, -, _, -, _, -, rfl⟩ := done
    rfl
  · rw [Except.ok.inj done]

namespace Document

/-- A flush keeps the class. -/
theorem descriptor_flush {document flushed : Document} (done : document.flush = .ok flushed) :
    flushed.descriptor = document.descriptor := by
  -- It puts another class text of the same class into the document.
  simp only [flush, bind_eq_ok, pure_eq_ok] at done
  obtain ⟨source, written, rfl⟩ := done
  exact ClassText.descriptor_flush written

/-- The change of a field keeps the class. -/
@[simp] theorem descriptor_modifyField (reference : Text) (change : Field → Field)
    (document : Document) :
    (document.modifyField reference change).descriptor = document.descriptor := by
  -- Only the fields change, if anything does.
  unfold modifyField withSource ClassText.modifyField
  dsimp only
  split <;> rfl

/-- The change of a method keeps the class. -/
@[simp] theorem descriptor_modifyMethod (reference : Text) (change : Method → Method)
    (document : Document) :
    (document.modifyMethod reference change).descriptor = document.descriptor := by
  -- Only the methods change, if anything does.
  unfold modifyMethod withSource ClassText.modifyMethod
  dsimp only
  split <;> rfl

/-- Saving keeps the class, whether it succeeds or not. -/
@[simp] theorem descriptor_save (files : FileSystem) (document : Document) :
    (document.save files).document.descriptor = document.descriptor := by
  -- All that is left of the document comes from its flush.
  have saving := document.saving files
  generalize document.save files = attempt at saving ⊢
  cases saving with
  | refused => rfl
  | unplaced done | unwritten done => exact descriptor_flush done
  | kept whole | moved whole | stuck whole =>
    have kept := descriptor_flush whole.flush
    exact kept

/-- A settled document stays so when it is saved, whether this succeeds or not. -/
theorem Settled.save {document : Document} (settled : document.Settled) (files : FileSystem) :
    (document.save files).document.Settled := by
  -- There is nothing that its flush could change.
  have flushed {other : Document} (done : document.flush = .ok other) : other.Settled := by
    rw [settled.flush] at done
    cases done
    exact settled
  have saving := document.saving files
  generalize document.save files = attempt at saving ⊢
  cases saving with
  | refused => exact settled
  | unplaced done | unwritten done => exact flushed done
  | kept whole | moved whole | stuck whole =>
    have kept := flushed whole.flush
    exact kept

end Document

namespace Collection

/-- The classes of the documents in order. -/
def classes (collection : Collection) : List Text :=
  -- A document has one class.
  collection.documents.map fun document => document.descriptor

/-- Every class is that of one document at most. -/
def Keyed (collection : Collection) : Prop :=
  -- The class then tells the document.
  collection.classes.Nodup

/-- Whether the classes are apart can be decided. -/
instance (collection : Collection) : Decidable collection.Keyed :=
  -- They are compared with each other.
  inferInstanceAs (Decidable collection.classes.Nodup)

/-- A class is not found exactly if no document has it. -/
theorem document?_eq_none_iff {collection : Collection} {name : Text} :
    collection.document? name = none ↔ name ∉ collection.classes := by
  -- All documents are looked at.
  simp [document?, classes]

/-- Loading adds no class a second time. -/
theorem Keyed.add {collection : Collection} (keyed : collection.Keyed) (path : Path)
    (loaded : Except Error Document) : (collection.add path loaded).Keyed := by
  -- A document is only added if no other one has its class.
  unfold Collection.add
  split
  · exact keyed
  · next document =>
    split
    · next absent =>
      have fresh := document?_eq_none_iff.1 absent
      unfold Keyed classes
      rw [List.map_append, List.map_singleton]
      refine List.nodup_append.2 ⟨keyed, List.nodup_singleton _, fun taken inside new only => ?_⟩
      rw [List.mem_singleton.1 only]
      exact fun same => fresh (same ▸ inside)
    · exact keyed

/-- The classes of whatever is loaded are apart. -/
theorem keyed_foldl_add {Source : Type} (pathOf : Source → Path)
    (load : Source → Except Error Document) (sources : List Source) {start : Collection}
    (keyed : start.Keyed) : (sources.foldl (fun collection source =>
      collection.add (pathOf source) (load source)) start).Keyed := by
  -- Sources are added one by one.
  induction sources generalizing start with
  | nil => exact keyed
  | cons source rest ih => exact ih (keyed.add _ _)

/-- The classes of texts are apart. -/
theorem keyed_ofSources (config : Config) (sources : List (Path × Text)) :
    (ofSources config sources).Keyed :=
  -- The collection is empty at first.
  keyed_foldl_add _ _ sources List.nodup_nil

/-- The classes of a directory are apart. -/
theorem keyed_load {config : Config} {files : FileSystem} {collection : Collection}
    (done : load config files = .ok collection) : collection.Keyed := by
  -- The collection is empty at first.
  simp only [load, bind_eq_ok, pure_eq_ok] at done
  obtain ⟨paths, -, rfl⟩ := done
  exact keyed_foldl_add (fun path => path) _ paths List.nodup_nil

/-- Each document is related to what saving makes of it if it is so when it is saved alone. -/
theorem forall₂_saveAll (relates : Document → Document → Prop)
    (same : ∀ document, relates document document)
    (changed : ∀ files document, relates document (document.save files).document) (saved : Nat)
    (files : FileSystem) (documents : List Document) :
    List.Forall₂ relates documents (saveAll saved files documents).documents := by
  -- Documents behind a failure are left alone.
  induction documents generalizing saved files with
  | nil => exact .nil
  | cons document rest ih =>
    rw [saveAll]
    split
    · dsimp only
      split
      · exact .cons (changed files document) (List.forall₂_same.2 fun other _ => same other)
      · exact .cons (changed files document) (ih _ _)
    · exact .cons (same document) (ih _ _)

/-- Saving documents keeps their classes. -/
theorem map_descriptor_saveAll (saved : Nat) (files : FileSystem) (documents : List Document) :
    (saveAll saved files documents).documents.map (fun document => document.descriptor) =
      documents.map fun document => document.descriptor := by
  -- Each document keeps its own.
  have kept := forall₂_saveAll (fun before after => after.descriptor = before.descriptor)
    (fun _ => rfl) (fun files document => document.descriptor_save files) saved files documents
  exact (kept.map_eq _ _ fun before _ after _ same => same.symm).symm

/-- Settled documents stay so when they are saved. -/
theorem settled_saveAll {documents : List Document}
    (settled : ∀ document ∈ documents, document.Settled) (saved : Nat) (files : FileSystem) :
    ∀ document ∈ (saveAll saved files documents).documents, document.Settled := by
  -- Each document does.
  have kept := forall₂_saveAll (fun before after => before.Settled → after.Settled)
    (fun _ settled => settled) (fun files _ settled => settled.save files) saved files documents
  intro document member
  obtain ⟨before, inside, keeps⟩ := List.exists_of_mem_right kept member
  exact keeps (settled before inside)

end Collection

/-- The class that a document has after a renaming. -/
def Renaming.classAfter (task : Renaming) (document : Document) : Text :=
  -- It is read from the text in which the replacement is made, where that text can be read.
  match document.flush with
  | .error _ => document.descriptor
  | .ok flushed =>
    let text := task.rewrite flushed.descriptor flushed.text
    if text = flushed.text then document.descriptor
    else
      match ClassText.parse text with
      | .ok source => source.descriptor
      | .error _ => document.descriptor

/-- A renaming gives a document this class. -/
theorem Renaming.descriptor_applyTo (task : Renaming) (document : Document) :
    (task.applyTo document).1.descriptor = task.classAfter document := by
  -- A document that moves keeps the class that it has got.
  unfold applyTo classAfter
  cases done : document.flush with
  | error error => rfl
  | ok flushed =>
    have kept := Document.descriptor_flush done
    dsimp only
    split
    · exact kept
    · cases read : ClassText.parse (task.rewrite flushed.descriptor flushed.text) with
      | error error =>
        simp only [Document.setText, read, bind, Except.bind]
        exact kept
      | ok source =>
        simp only [Document.setText, read, bind, Except.bind, pure, Except.pure]
        split
        · unfold Document.relocate
          split <;> rfl
        · rfl

/-- The renaming of a class replaces it in the class of a settled document. -/
theorem Renaming.classAfter_settled {task : Renaming} {old new : Text} (renames : Renames old new)
    (fromClass : task.old = .ofClass old) (toClass : task.new = .ofClass new)
    {document : Document} (settled : document.Settled) :
    task.classAfter document = Text.replace old new document.descriptor := by
  -- Nothing is left to be written, and the new text can be read.
  rw [← task.descriptor_applyTo]
  exact (Renaming.applyTo_settled renames fromClass toClass settled).2.descriptor

/-- When the old name is replaced in different plain names, these stay different exactly if none of
them becomes one that is kept. -/
theorem Renames.nodup_replace_iff {old new : Text} (renames : Renames old new) {names : List Text}
    (distinct : names.Nodup) (plain : ∀ name ∈ names, Descriptor.IsPlain name) :
    (names.map (Text.replace old new)).Nodup ↔
      ¬ ∃ lead, lead ++ old ∈ names ∧ lead ++ new ∈ names ∧ ¬ old <:+ lead ++ new := by
  -- Only the end of a name can be replaced.
  rw [List.nodup_map_iff_inj_on distinct]
  constructor
  · -- A name that is kept would meet the one that becomes it.
    rintro apart ⟨lead, before, meets, other⟩
    have same := apart _ before _ meets (by
      rw [renames.replace_suffix (plain _ before), renames.replace_plain (plain _ meets) other])
    exact other (same ▸ List.suffix_append lead old)
  · -- Two names that become one are both replaced or both kept, unless they meet.
    intro apart first inside second inside' same
    by_cases ends : old <:+ first
    · obtain ⟨lead, rfl⟩ := ends
      rw [renames.replace_suffix (plain _ inside)] at same
      by_cases ends' : old <:+ second
      · obtain ⟨lead', rfl⟩ := ends'
        rw [renames.replace_suffix (plain _ inside')] at same
        rw [List.append_cancel_right same]
      · rw [renames.replace_plain (plain _ inside') ends'] at same
        exact absurd ⟨lead, inside, same ▸ inside', same ▸ ends'⟩ apart
    · rw [renames.replace_plain (plain _ inside) ends] at same
      by_cases ends' : old <:+ second
      · obtain ⟨lead', rfl⟩ := ends'
        rw [renames.replace_suffix (plain _ inside')] at same
        exact absurd ⟨lead', inside', same ▸ inside, same ▸ ends⟩ apart
      · rw [renames.replace_plain (plain _ inside') ends'] at same
        exact same

/-- A collection, and the files that it is saved to. -/
structure Session where
  /-- The documents, which may have changes that are still to be written. -/
  collection : Collection
  /-- The files as they are at present. -/
  files : FileSystem

namespace Session

/-- What can be done with a collection. -/
inductive Action where
  /-- Something is renamed in all documents. -/
  | rename (old new : Text)
  /-- The changes of the document at a position are written into its text. -/
  | flush (position : Nat)
  /-- A field of the document at a position is changed. -/
  | changeField (position : Nat) (reference : Text) (change : Field → Field)
  /-- A method of the document at a position is changed. -/
  | changeMethod (position : Nat) (reference : Text) (change : Method → Method)
  /-- All documents that have changed are saved. -/
  | save

/-- Changes the document at a position, where there is one. -/
def modify (position : Nat) (change : Document → Document) (session : Session) : Session :=
  -- The files do not change before the next save.
  { session with collection := { session.collection with
    documents := session.collection.documents.modify position change } }

/-- The session after an action; a renaming or a flush that fails changes nothing. -/
def perform (session : Session) : Action → Session
  -- Saving may have changed some documents and files before it fails.
  | .rename old new =>
    match session.collection.rename old new with
    | .ok (renamed, _) => { session with collection := renamed }
    | .error _ => session
  | .flush position => session.modify position fun document =>
      match document.flush with
      | .ok flushed => flushed
      | .error _ => document
  | .changeField position reference change =>
    session.modify position (Document.modifyField reference change)
  | .changeMethod position reference change =>
    session.modify position (Document.modifyMethod reference change)
  | .save =>
    let outcome := session.collection.save session.files
    ⟨outcome.1, outcome.2.1⟩

/-- The session after some actions. -/
def run (session : Session) (actions : List Action) : Session :=
  -- They are performed in order.
  actions.foldl perform session

/-- A change that keeps the class of each document keeps all classes. -/
theorem classes_modify (position : Nat) {change : Document → Document}
    (kept : ∀ document, (change document).descriptor = document.descriptor) (session : Session) :
    (session.modify position change).collection.classes = session.collection.classes := by
  -- The class at the position is what it was.
  exact List.map_modify kept session.collection.documents position

/-- Classes change by renamings alone. -/
theorem classes_perform (session : Session) (action : Action) :
    (session.perform action).collection.classes =
      match action with
      | .rename old new =>
        match session.collection.planRenaming old new with
        | .ok task => session.collection.documents.map task.classAfter
        | .error _ => session.collection.classes
      | _ => session.collection.classes := by
  -- The cases are those of the action.
  cases action with
  | rename old new =>
    simp only [perform, Collection.rename]
    cases planned : session.collection.planRenaming old new with
    | error error => rfl
    | ok task =>
      simp only [bind, Except.bind, pure, Except.pure, Collection.classes, List.map_map]
      refine List.map_congr_left fun document _ => ?_
      exact task.descriptor_applyTo document
  -- The other actions change documents, but not the classes that they define.
  | flush position =>
    refine classes_modify position (fun document => ?_) session
    split
    · next flushed done => exact Document.descriptor_flush done
    · rfl
  | changeField position reference change =>
    exact classes_modify position (fun _ => Document.descriptor_modifyField _ _ _) session
  | changeMethod position reference change =>
    exact classes_modify position (fun _ => Document.descriptor_modifyMethod _ _ _) session
  | save => exact Collection.map_descriptor_saveAll 0 _ _

/-- A renaming that is possible gives the documents of a session classes that are apart. -/
def Separates (old new : Text) (session : Session) : Prop :=
  -- A renaming that is refused changes nothing.
  ∀ task, session.collection.planRenaming old new = .ok task →
    (session.collection.documents.map task.classAfter).Nodup

/-- Everything in a session has been read from the texts of classes that have plain names. -/
structure Plain (session : Session) : Prop where
  /-- Nothing is still to be written. -/
  settled : session.collection.Settled
  /-- The names of the classes are plain. -/
  names : ∀ name ∈ session.collection.classes, Descriptor.IsPlain name

/-- An action changes no member, and if it renames something, that is a class with plain names. -/
def Action.IsPlain : Action → Prop
  -- The changes of members are not written before a flush.
  | .rename old new => Renames old new
  | .flush _ | .save => True
  | .changeField _ _ _ | .changeMethod _ _ _ => False

/-- A session stays plain in a plain action. -/
theorem Plain.perform {session : Session} (plain : session.Plain) {action : Action}
    (allowed : action.IsPlain) : (session.perform action).Plain := by
  -- The cases are those of the action.
  cases action with
  | rename old new =>
    have renames : Renames old new := allowed
    unfold Session.perform
    dsimp only
    split
    · next renamed report done =>
      have texts := (Collection.rename_class renames plain.settled done).2
      refine ⟨Collection.settled_rename plain.settled done, fun name member => ?_⟩
      obtain ⟨after, inside, rfl⟩ := List.mem_map.1 member
      obtain ⟨before, inside', becomes⟩ := List.exists_of_mem_right texts inside
      rw [becomes.descriptor]
      exact renames.isPlain_replace (plain.names _ (List.mem_map_of_mem inside'))
    · exact plain
  -- Nothing is written in a flush, because nothing has been changed.
  | flush position =>
    refine ⟨List.forall_mem_modify (fun document settled => ?_) plain.settled position, ?_⟩
    · rw [settled.flush]
      exact settled
    · rw [classes_perform]
      exact plain.names
  | save =>
    refine ⟨Collection.settled_saveAll plain.settled 0 session.files, ?_⟩
    rw [classes_perform]
    exact plain.names
  | changeField | changeMethod => cases allowed

/-- A session stays plain through plain actions. -/
theorem Plain.run {session : Session} (plain : session.Plain) {actions : List Action}
    (allowed : ∀ action ∈ actions, action.IsPlain) : (session.run actions).Plain := by
  -- They are performed one by one.
  induction actions generalizing session with
  | nil => exact plain
  | cons action rest ih =>
    rw [List.forall_mem_cons] at allowed
    exact ih (plain.perform allowed.1) allowed.2

/-- The new class is there already, so that the renaming is refused, or no class that ends with the
old name gets the name of a class that is not renamed itself. -/
def MeetsNone (old new : Text) (session : Session) : Prop :=
  -- Classes meet if the old and the new name stand behind the same characters.
  new ∈ session.collection.classes ∨ ¬ ∃ lead, lead ++ old ∈ session.collection.classes ∧
    lead ++ new ∈ session.collection.classes ∧ ¬ old <:+ lead ++ new

/-- Renaming a class in a plain session leaves the classes apart exactly if no two of them meet. -/
theorem separates_iff {session : Session} {old new : Text} (renames : Renames old new)
    (plain : session.Plain) (keyed : session.collection.Keyed) :
    session.Separates old new ↔ session.MeetsNone old new := by
  -- Nothing happens to the classes where the new one is there already.
  unfold MeetsNone
  have refused {task : Renaming} (planned : session.collection.planRenaming old new = .ok task) :
      new ∉ session.collection.classes :=
    Collection.document?_eq_none_iff.1 (Collection.planRenaming_class
      (Reference.parse_plain renames.old) (Reference.parse_plain renames.new) planned).1
  by_cases taken : new ∈ session.collection.classes
  · exact iff_of_true (fun task planned => absurd taken (refused planned)) (.inl taken)
  -- Each class becomes what is made of it by the replacement.
  obtain ⟨target, planned⟩ :=
    Collection.planRenaming_of_free renames (Collection.document?_eq_none_iff.2 taken)
  have after : session.collection.documents.map
      (Renaming.mk (.ofClass old) (.ofClass new) (some target)).classAfter =
        session.collection.classes.map (Text.replace old new) := by
    rw [Collection.classes, List.map_map]
    refine List.map_congr_left fun document member => ?_
    exact Renaming.classAfter_settled renames rfl rfl (plain.settled document member)
  -- The possible renaming is one only.
  have single : session.Separates old new ↔
      (session.collection.classes.map (Text.replace old new)).Nodup := by
    unfold Separates
    rw [planned, ← after]
    constructor
    · intro all
      exact all _ rfl
    · rintro apart _ ⟨⟩
      exact apart
  rw [or_iff_right taken, single, renames.nodup_replace_iff keyed plain.names]

/-- An action keeps the classes apart exactly if it is none of the renamings that do not. -/
theorem keyed_perform_iff {session : Session} (keyed : session.collection.Keyed)
    (action : Action) : (session.perform action).collection.Keyed ↔
      ∀ old new, action = .rename old new → session.Separates old new := by
  -- Only a renaming that is possible has to be looked at.
  unfold Collection.Keyed
  rw [classes_perform]
  cases action with
  | rename old new =>
    have only : (∀ old' new', Action.rename old new = .rename old' new' →
        session.Separates old' new') ↔ session.Separates old new := by
      constructor
      · intro all
        exact all old new rfl
      · rintro separates _ _ ⟨⟩
        exact separates
    rw [only, Separates]
    dsimp only
    cases session.collection.planRenaming old new with
    | error error => exact iff_of_true keyed (fun task possible => by cases possible)
    | ok task =>
      constructor
      · rintro apart _ ⟨⟩
        exact apart
      · intro apart
        exact apart task rfl
  -- The other actions keep the classes and ask for nothing.
  | flush | changeField | changeMethod | save =>
    exact iff_of_true keyed (fun old new impossible => by cases impossible)

/-- Classes that are apart stay apart throughout a run exactly if all its renamings are harmless at
the time when they are made, where those are harmless that leave classes apart which are so. -/
theorem keyed_run_iff {session : Session} (keyed : session.collection.Keyed)
    (actions : List Action) {Harmless : Text → Text → Session → Prop}
    (harmless_iff : ∀ done old new, done ++ [.rename old new] <+: actions →
      (session.run done).collection.Keyed →
        ((session.run done).Separates old new ↔ Harmless old new (session.run done))) :
    (∀ done, done <+: actions → (session.run done).collection.Keyed) ↔
      ∀ done old new, done ++ [.rename old new] <+: actions →
        Harmless old new (session.run done) := by
  -- The run is looked at action by action.
  have step (done : List Action) (action : Action) :
      session.run (done ++ [action]) = (session.run done).perform action := by
    rw [run, List.foldl_append]
    rfl
  constructor
  · intro apart done old new inside
    have before := apart done ((List.prefix_append done _).trans inside)
    have after := apart _ inside
    rw [step] at after
    exact (harmless_iff done old new inside before).1
      ((keyed_perform_iff before _).1 after old new rfl)
  · intro harmless done inside
    induction done using List.reverseRecOn with
    | nil => exact keyed
    | append_singleton done action ih =>
      have before := ih ((List.prefix_append done _).trans inside)
      rw [step, keyed_perform_iff before]
      rintro old new rfl
      exact (harmless_iff done old new inside before).2 (harmless done old new inside)

/-- From texts or files that were just loaded, and through any actions, no two documents ever have
the same class exactly if every renaming leaves the classes apart at the time when it is made. If
all classes have plain names, no member is changed, and only classes are renamed, with plain names,
this is so exactly if in every renaming no class that ends with the old name meets another one. -/
theorem keyed_throughout_iff {config : Config} {collection : Collection}
    (made : (∃ sources, collection = .ofSources config sources) ∨
      ∃ present, Collection.load config present = .ok collection)
    (files : FileSystem) (actions : List Action) :
    ((∀ done, done <+: actions → ((Session.mk collection files).run done).collection.Keyed) ↔
      ∀ done old new, done ++ [.rename old new] <+: actions →
        ((Session.mk collection files).run done).Separates old new) ∧
    ((∀ name ∈ collection.classes, Descriptor.IsPlain name) →
      (∀ action ∈ actions, action.IsPlain) →
      ((∀ done, done <+: actions → ((Session.mk collection files).run done).collection.Keyed) ↔
        ∀ done old new, done ++ [.rename old new] <+: actions →
          ((Session.mk collection files).run done).MeetsNone old new)) := by
  -- The classes are apart at first, and the documents are settled.
  obtain ⟨keyed, settled⟩ : (Session.mk collection files).collection.Keyed ∧
      collection.Settled := by
    rcases made with ⟨sources, rfl⟩ | ⟨present, loaded⟩
    · exact ⟨Collection.keyed_ofSources config sources,
        Collection.settled_ofSources config sources⟩
    · exact ⟨Collection.keyed_load loaded, Collection.settled_load loaded⟩
  refine ⟨keyed_run_iff keyed actions fun _ _ _ _ _ => Iff.rfl, fun names allowed => ?_⟩
  have start : (Session.mk collection files).Plain := ⟨settled, names⟩
  refine keyed_run_iff keyed actions fun done old new inside apart => ?_
  -- Up to the renaming all actions are plain, and it is plain itself.
  have before := start.run fun action member =>
    allowed action (inside.subset (List.mem_append_left _ member))
  exact separates_iff (allowed (.rename old new) (inside.subset (by simp))) before apart

/-- Three classes, of which two are in a package and one of these has the name of the third. -/
def sample : Session :=
  -- There are no files yet.
  ⟨Collection.ofSources {} [(⟨"a.smali".toList⟩, ".class LB;\n.super Lo;\n".toList),
    (⟨"p/B.smali".toList⟩, ".class Lp/LB;\n.super Lo;\n".toList),
    (⟨"p/C.smali".toList⟩, ".class Lp/LC;\n.super Lo;\n".toList)], ⟨.directory [], []⟩⟩

/-- The classes of the sample are apart after a run in which the first gets another name. -/
theorem keyed_throughout_sample :
    (sample.run [.rename "LB;".toList "LD;".toList, .flush 0, .save]).collection.Keyed := by
  -- The only renaming is the first action, and no class ends with the new name.
  have names : sample.collection.classes =
      ["LB;".toList, "Lp/LB;".toList, "Lp/LC;".toList] := by
    decide +kernel
  have usual : ∀ name ∈ ["B".toList, "p/LB".toList, "p/LC".toList, "D".toList],
      name ≠ [] ∧ ∀ c ∈ name, c.isAlphanum ∨ c ∈ "_$/-".toList := by
    decide
  have plain (name : Text)
      (member : name ∈ ["B".toList, "p/LB".toList, "p/LC".toList, "D".toList]) :
      Descriptor.IsPlain ('L' :: name ++ [';']) :=
    Descriptor.isPlain_of_usual (usual name member).1 (usual name member).2
  have allPlain : ∀ name ∈ sample.collection.classes, Descriptor.IsPlain name := by
    rw [names]
    simp only [List.forall_mem_cons]
    exact ⟨plain "B".toList (by simp), plain "p/LB".toList (by simp),
      plain "p/LC".toList (by simp), by simp⟩
  have apart : ∀ name ∈ sample.collection.classes, ¬ "LD;".toList <:+ name := by
    rw [names]
    decide
  refine ((keyed_throughout_iff (.inl ⟨_, rfl⟩) _ _).2 allPlain ?_).2
    (fun done old new inside => ?_) _ (List.prefix_refl _)
  · simp only [List.forall_mem_cons]
    exact ⟨⟨plain "B".toList (by simp), plain "D".toList (by simp)⟩, trivial, trivial, by simp⟩
  · obtain ⟨behind, whole⟩ := inside
    rcases done with _ | ⟨first, _ | ⟨second, _ | ⟨third, others⟩⟩⟩
    · obtain ⟨⟨rfl, rfl⟩, -⟩ : (old = "LB;".toList ∧ new = "LD;".toList) ∧ _ := by
        simpa using whole
      refine .inr ?_
      rintro ⟨lead, -, member, -⟩
      exact apart _ member (List.suffix_append lead _)
    all_goals simp at whole

/-- In the sample the new name of the first class makes the second one the third. -/
theorem keyed_lost_sample :
    (sample.run [.rename "LB;".toList "LC;".toList]).collection.classes =
      ["LC;".toList, "Lp/LC;".toList, "Lp/LC;".toList] ∧
    ¬ (sample.run [.rename "LB;".toList "LC;".toList]).collection.Keyed := by
  -- The name of the first class ends that of the second one.
  decide +kernel

end Session

end Smali
