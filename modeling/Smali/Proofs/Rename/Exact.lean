import Smali.Proofs.Rename.Mentions

/-! Renaming a class leaves other classes alone unless the name of the class stands inside another
name. -/

namespace Smali

/-- The type of the elements of an array of any depth, and any other type itself. -/
def Descriptor.element (type : Text) : Text :=
  -- Each bracket stands for one array.
  type.dropWhile fun c => c == '['

/-- A text changes when one class is replaced by another. -/
def Text.Moves (old new text : Text) : Prop :=
  -- There must be something to replace by something else.
  old ≠ new ∧ old <:+: text

/-- Whether a text changes can be decided. -/
instance (old new text : Text) : Decidable (Text.Moves old new text) :=
  -- Both parts can be.
  inferInstanceAs (Decidable (_ ∧ _))

namespace Renames

variable {old new : Text}

/-- Replacing a class that stands in a text by another one makes another text. -/
theorem replace_ne_self (renames : Renames old new) (distinct : old ≠ new) {text : Text}
    (inside : old <:+: text) : Text.replace old new text ≠ text := by
  -- The texts differ at the first semicolon that ends the old class.
  induction text using renames.semicolon_induct with
  | open' text clean => exact absurd inside (renames.old.not_infix clean)
  | ends lead back clean ih =>
    rw [renames.replace_ends clean, List.append_assoc, List.append_assoc, Ne,
      List.append_cancel_left_eq]
    intro same
    -- Both classes end with the first semicolon of the same text.
    obtain ⟨front, whole, frontClean⟩ := renames.old.exists_front
    have beginning : new <+: front ++ ';' :: back := by
      refine ⟨Text.replace old new back, ?_⟩
      rw [same, whole, List.append_assoc, List.singleton_append]
    rw [renames.new.prefix_semicolon frontClean, ← whole] at beginning
    exact distinct beginning.symm
  | other front back clean kept ih =>
    rw [renames.old.infix_semicolon clean] at inside
    rw [renames.replace_kept clean kept, Ne, List.append_cancel_left_eq, List.cons_inj_right]
    exact ih (inside.resolve_left kept)

/-- A text changes exactly if the old class stands in it and the new class is another one. -/
theorem replace_ne_iff (renames : Renames old new) (text : Text) :
    Text.replace old new text ≠ text ↔ Text.Moves old new text := by
  -- Without an occurrence nothing is replaced.
  constructor
  · intro changed
    refine ⟨fun same => changed ?_, ?_⟩
    · rw [← same]
      exact Text.replace_same renames.old.ne_nil text
    · by_contra absent
      exact changed (Text.replace_absent renames.old.ne_nil absent)
  · rintro ⟨distinct, inside⟩
    exact renames.replace_ne_self distinct inside

end Renames

/-- A type changes exactly if it is a given class or an array of it. -/
def Descriptor.ChangesAt (old before after : Text) : Prop :=
  -- The types are compared as they are written.
  after ≠ before ↔ element before = old

/-- A type changes exactly if it is made of a class when that class is replaced by another one. -/
def Descriptor.Exact (old new type : Text) : Prop :=
  -- The class must not stand inside the name of another one.
  Text.Moves old new type ↔ element type = old

/-- Whether a type changes exactly if it is made of a class can be decided. -/
instance (old new type : Text) : Decidable (Descriptor.Exact old new type) :=
  -- Both sides can be.
  inferInstanceAs (Decidable (_ ↔ _))

namespace ClassText

/-- The superclass and the types of all members. -/
def types (source : ClassText) : List Text :=
  -- Types that stand only in bodies do not count.
  source.superclass :: source.fields.map Field.type ++
    source.methods.flatMap fun method => method.returnType :: method.parameters

/-- The types of a class text change where they are a given class or arrays of it, and nowhere
else. -/
structure TypesFollow (old : Text) (source renamed : ClassText) : Prop where
  /-- The superclass changes exactly if it is the class. -/
  superclass : Descriptor.ChangesAt old source.superclass renamed.superclass
  /-- The type of a field changes exactly if it is made of the class. -/
  fields : List.Forall₂ (fun field field' => Descriptor.ChangesAt old field.type field'.type)
    source.fields renamed.fields
  /-- The type of a parameter changes exactly if it is made of the class. -/
  parameters : List.Forall₂ (fun method method' =>
    List.Forall₂ (Descriptor.ChangesAt old) method.parameters method'.parameters)
    source.methods renamed.methods
  /-- A return type changes exactly if it is made of the class. -/
  returns : List.Forall₂
    (fun method method' => Descriptor.ChangesAt old method.returnType method'.returnType)
    source.methods renamed.methods

/-- The types of a renamed class text follow the class exactly if those that change are those made
of it. -/
theorem Renamed.typesFollow_iff {old new : Text} (renames : Renames old new)
    {source renamed : ClassText} (here : source.Renamed old new renamed) :
    source.TypesFollow old renamed ↔
      ∀ type ∈ source.types, Descriptor.Exact old new type := by
  -- Each type is replaced, so that it can be looked at alone.
  have single {before after : Text} (same : after = Text.replace old new before) :
      Descriptor.ChangesAt old before after ↔ Descriptor.Exact old new before := by
    rw [Descriptor.ChangesAt, same, renames.replace_ne_iff, Descriptor.Exact]
  -- The types of the fields, those that are returned and those of the parameters are told apart.
  have fields : List.Forall₂ (fun field field' => Descriptor.ChangesAt old field.type field'.type)
      source.fields renamed.fields ↔
        ∀ field ∈ source.fields, Descriptor.Exact old new field.type :=
    here.fields.forall₂_iff fun field field' related => single related.type
  have returns : List.Forall₂
      (fun method method' => Descriptor.ChangesAt old method.returnType method'.returnType)
      source.methods renamed.methods ↔
        ∀ method ∈ source.methods, Descriptor.Exact old new method.returnType :=
    here.methods.forall₂_iff fun method method' related => single related.returnType
  have parameters : List.Forall₂ (fun method method' =>
      List.Forall₂ (Descriptor.ChangesAt old) method.parameters method'.parameters)
      source.methods renamed.methods ↔
        ∀ method ∈ source.methods, ∀ type ∈ method.parameters, Descriptor.Exact old new type := by
    refine here.methods.forall₂_iff fun method method' related => ?_
    have each : List.Forall₂ (fun before after => after = Text.replace old new before)
        method.parameters method'.parameters := by
      rw [related.parameters, List.forall₂_map_right_iff]
      exact List.forall₂_same.2 fun _ _ => rfl
    exact each.forall₂_iff fun before after same => single same
  constructor
  · intro follow type member
    rw [types, List.cons_append, List.mem_cons, List.mem_append, List.mem_map,
      List.mem_flatMap] at member
    rcases member with rfl | ⟨field, inside, rfl⟩ | ⟨method, inside, either⟩
    · exact (single here.superclass).1 follow.superclass
    · exact fields.1 follow.fields field inside
    · rcases List.mem_cons.1 either with rfl | parameter
      · exact returns.1 follow.returns method inside
      · exact parameters.1 follow.parameters method inside type parameter
  · intro each
    refine ⟨(single here.superclass).2 (each _ ?_), fields.2 fun field inside => each _ ?_,
      parameters.2 fun method inside type parameter => each _ ?_,
      returns.2 fun method inside => each _ ?_⟩
    · simp [types]
    · simp only [types, List.cons_append, List.mem_cons, List.mem_append, List.mem_map]
      exact .inr (.inl ⟨field, inside, rfl⟩)
    · simp only [types, List.cons_append, List.mem_cons, List.mem_append, List.mem_flatMap]
      exact .inr (.inr ⟨method, inside, .inr parameter⟩)
    · simp only [types, List.cons_append, List.mem_cons, List.mem_append, List.mem_flatMap]
      exact .inr (.inr ⟨method, inside, .inl rfl⟩)

end ClassText

/-- A renaming of a class leaves a document of another class where it is and what it is, and its
types follow the class. -/
structure Document.Follows (old : Text) (before after : Document) : Prop where
  /-- Another class keeps its name. -/
  descriptor : before.descriptor ≠ old → after.descriptor = before.descriptor
  /-- Another class keeps its place. -/
  path : before.descriptor ≠ old → after.path = before.path
  /-- The types change where they are made of the class. -/
  types : before.TypesFollow old after.toClassText

/-- Nothing but a class itself and the types made of it changes in a class text when that class is
replaced by another. -/
structure ClassText.Exact (old new : Text) (source : ClassText) : Prop where
  /-- The name of another class does not change. -/
  descriptor : source.descriptor ≠ old → ¬ Text.Moves old new source.descriptor
  /-- The types that change are those made of the class. -/
  types : ∀ type ∈ source.types, Descriptor.Exact old new type

/-- The document of another class keeps its place when a class is renamed. -/
theorem Renaming.path_applyTo {task : Renaming} {old : Text} (fromClass : task.old = .ofClass old)
    {document : Document} (settled : document.Settled) (other : document.descriptor ≠ old) :
    (task.applyTo document).1.path = document.path := by
  -- Only the document of the class itself is moved.
  have applied := task.applied settled
  have stays : task.renamesClass document.descriptor = false := by
    rw [renamesClass, fromClass]
    simpa using Ne.symm other
  generalize task.applyTo document = outcome at applied ⊢
  cases applied with
  | kept same => rfl
  | refused unread => rfl
  | rewritten changed read =>
    rw [stays, if_neg Bool.false_ne_true]
    rfl

/-- When a class of texts that were just read is renamed, all other classes stay and all types
follow the class exactly if its name stands in no other name. -/
theorem Collection.rename_follows_iff {config : Config} {sources : List (Path × Text)}
    {old new : Text} (renames : Renames old new) {renamed : Collection} {report : RenameReport}
    (done : (ofSources config sources).rename old new = .ok (renamed, report)) :
    List.Forall₂ (Document.Follows old) (ofSources config sources).documents renamed.documents ↔
      ∀ document ∈ (ofSources config sources).documents, document.Exact old new := by
  -- Every document is renamed for itself.
  have settled := settled_ofSources config sources
  generalize ofSources config sources = collection at settled done ⊢
  obtain ⟨task, planned, -, documents, -⟩ := exists_of_rename done
  obtain ⟨-, below, -, task'⟩ := planRenaming_class (Reference.parse_plain renames.old)
    (Reference.parse_plain renames.new) planned
  have fromClass : task.old = .ofClass old := by rw [task']
  have toClass : task.new = .ofClass new := by rw [task']
  rw [documents, List.forall₂_map_right_iff, List.forall₂_same]
  refine forall₂_congr fun document member => ?_
  -- The document that results is the one with its class replaced.
  have here := (Renaming.applyTo_settled renames fromClass toClass (settled document member)).2
  constructor
  · intro follows
    refine ⟨fun other => ?_, (here.typesFollow_iff renames).1 follows.types⟩
    rw [← renames.replace_ne_iff, ← here.descriptor]
    exact not_not_intro (follows.descriptor other)
  · intro exact'
    refine ⟨fun other => ?_, Renaming.path_applyTo fromClass (settled document member),
      (here.typesFollow_iff renames).2 exact'.types⟩
    have kept := exact'.descriptor other
    rw [← renames.replace_ne_iff, ← here.descriptor] at kept
    exact not_not.1 kept

/-- Two classes that name the first of them in all sorts of types. -/
def Collection.exactSample : Collection :=
  -- No other name ends with that of the first class.
  ofSources {} [(⟨"A.smali".toList⟩, ".class LA;\n.super Lo;\n.field f:[LA;\n".toList),
    (⟨"B.smali".toList⟩, ".class LB;\n.super LA;\n.method m(ILA;)[LB;\n.end method\n".toList)]

/-- In the sample all types follow the first class when it is renamed. -/
theorem Collection.rename_exactSample : ∃ renamed report,
    exactSample.rename "LA;".toList "LC;".toList = .ok (renamed, report) ∧
      renamed.documents.map (fun document => document.types) =
        [["Lo;".toList, "[LC;".toList],
          ["LC;".toList, "[LB;".toList, "I".toList, "LC;".toList]] ∧
      List.Forall₂ (Document.Follows "LA;".toList) exactSample.documents renamed.documents := by
  -- The conditions on the names are evaluated.
  have renames : Renames "LA;".toList "LC;".toList :=
    ⟨Descriptor.isPlain_of_usual (show ['A'] ≠ [] by decide) (by decide),
      Descriptor.isPlain_of_usual (show ['C'] ≠ [] by decide) (by decide)⟩
  have exact' : ∀ document ∈ exactSample.documents, document.Exact "LA;".toList "LC;".toList := by
    have descriptors : ∀ document ∈ exactSample.documents, document.descriptor ≠ "LA;".toList →
        ¬ Text.Moves "LA;".toList "LC;".toList document.descriptor := by
      decide +kernel
    have types : ∀ document ∈ exactSample.documents, ∀ type ∈ document.types,
        Descriptor.Exact "LA;".toList "LC;".toList type := by
      decide +kernel
    exact fun document member => ⟨descriptors document member, types document member⟩
  have run : (exactSample.rename "LA;".toList "LC;".toList).map
      (fun outcome => outcome.1.documents.map fun document => document.types) =
      .ok [["Lo;".toList, "[LC;".toList],
        ["LC;".toList, "[LB;".toList, "I".toList, "LC;".toList]] := by
    decide +kernel
  cases done : exactSample.rename "LA;".toList "LC;".toList with
  | error error =>
    rw [done] at run
    cases run
  | ok outcome =>
    obtain ⟨renamed, report⟩ := outcome
    rw [done] at run
    exact ⟨renamed, report, rfl, Except.ok.inj run, (rename_follows_iff renames done).2 exact'⟩

/-- Two classes, of which the name of the first ends that of the second. -/
def Collection.inexactSample : Collection :=
  -- The second class names the first one nowhere.
  ofSources {} [(⟨"B.smali".toList⟩, ".class LB;\n.super Lo;\n".toList),
    (⟨"p/B.smali".toList⟩, ".class Lp/LB;\n.super Lo;\n".toList)]

/-- In that sample the second class gets another name when the first one does, and nothing fails. -/
theorem Collection.rename_inexactSample : ∃ renamed report,
    inexactSample.rename "LB;".toList "LD;".toList = .ok (renamed, report) ∧
      report.failures = [] ∧
      inexactSample.documents.map (fun document => document.descriptor) =
        ["LB;".toList, "Lp/LB;".toList] ∧
      renamed.documents.map (fun document => document.descriptor) =
        ["LD;".toList, "Lp/LD;".toList] ∧
      ¬ List.Forall₂ (Document.Follows "LB;".toList) inexactSample.documents
        renamed.documents := by
  -- The whole renaming is evaluated.
  have run : (inexactSample.rename "LB;".toList "LD;".toList).map (fun outcome =>
      (outcome.2.failures, outcome.1.documents.map fun document => document.descriptor)) =
      .ok ([], ["LD;".toList, "Lp/LD;".toList]) := by
    decide +kernel
  have before : inexactSample.documents.map (fun document => document.descriptor) =
      ["LB;".toList, "Lp/LB;".toList] := by
    decide +kernel
  cases done : inexactSample.rename "LB;".toList "LD;".toList with
  | error error =>
    rw [done] at run
    cases run
  | ok outcome =>
    obtain ⟨renamed, report⟩ := outcome
    rw [done] at run
    obtain ⟨failures, after⟩ := Prod.mk.inj (Except.ok.inj run)
    refine ⟨renamed, report, rfl, failures, before, after, fun follows => ?_⟩
    -- No class but the one that is renamed would have been renamed.
    have kept : List.Forall₂ (fun first second => first ≠ "LB;".toList → second = first)
        (inexactSample.documents.map fun document => document.descriptor)
        (renamed.documents.map fun document => document.descriptor) := by
      rw [List.forall₂_map_left_iff, List.forall₂_map_right_iff]
      exact follows.imp fun _ _ here => here.descriptor
    rw [before, after, List.forall₂_cons, List.forall₂_cons] at kept
    exact absurd (kept.2.1 (by decide)) (by decide)

end Smali
