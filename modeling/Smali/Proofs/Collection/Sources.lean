import Smali.Proofs.Collection.Keys

/-! Each source that is loaded becomes one document or one failure, in the order of the sources. -/

namespace Smali.Collection

/-- Reads the document of a source, which is kept at the path of the source. -/
def readSource (options : ParseOptions) (source : Path × Text) : Except Error Document :=
  -- A text that does not read gives no document.
  (Document.parse options source.2).map (Document.setPath source.1)

/-- The document of a source, if it can be read and is that of a class. -/
def definition? (options : ParseOptions) (descriptor : Text) (source : Path × Text) :
    Option Document :=
  -- Whether there are others of the class does not matter.
  (readSource options source).toOption.filter fun document => document.descriptor == descriptor

/-- What becomes of a source that comes behind others. -/
def fate (options : ParseOptions) (earlier : List (Path × Text)) (source : Path × Text) :
    Document ⊕ DocumentFailure :=
  -- The first source of a class that can be read keeps all later ones out.
  match readSource options source with
  | .error error => .inr ⟨source.1, error⟩
  | .ok document =>
    match earlier.findSome? (definition? options document.descriptor) with
    | none => .inl document
    | some other =>
      let place := (other.path.map Path.spelling).getD []
      .inr ⟨source.1, ⟨.classTaken document.descriptor place, []⟩⟩

/-- What becomes of each of some sources. -/
def fates (options : ParseOptions) (sources : List (Path × Text)) :
    List (Document ⊕ DocumentFailure) :=
  -- Only the sources before it count.
  sources.mapIdx fun index source => fate options (sources.take index) source

variable {options : ParseOptions} {config : Config}

/-- A source at the end changes nothing for those before it. -/
theorem fates_concat (sources : List (Path × Text)) (source : Path × Text) :
    fates options (sources ++ [source]) =
      fates options sources ++ [fate options sources source] := by
  -- Those that come before each of them are the same.
  rw [fates, List.mapIdx_concat, List.take_left]
  refine congrArg (· ++ _) (List.ext_getElem? fun index => ?_)
  rw [fates, List.getElem?_mapIdx, List.getElem?_mapIdx]
  cases found : sources[index]? with
  | none => rfl
  | some other =>
    obtain ⟨inside, -⟩ := List.getElem?_eq_some_iff.1 found
    rw [List.take_append_of_le_length (Nat.le_of_lt inside)]

/-- A source at the end is added to what comes of those before it. -/
theorem ofSources_concat (sources : List (Path × Text)) (source : Path × Text) :
    ofSources config (sources ++ [source]) =
      (ofSources config sources).add source.1 (readSource config.options source) := by
  -- Sources are added in order.
  rw [ofSources, List.foldl_append]
  rfl

/-- The first document of a class is the one that was there, or else the one that is added. -/
theorem document?_add (collection : Collection) (path : Path) (loaded : Except Error Document)
    (descriptor : Text) : (collection.add path loaded).document? descriptor =
      (collection.document? descriptor).or
        (loaded.toOption.filter fun document => document.descriptor == descriptor) := by
  -- A document that is not added has the class of one that was there.
  cases loaded with
  | error error => simp [add, document?, Except.toOption]
  | ok document =>
    rw [Except.toOption, Option.filter_some, add]
    cases taken : collection.document? document.descriptor with
    | none => simp [document?, List.find?_append, List.find?_singleton]
    | some other =>
      by_cases same : document.descriptor = descriptor
      · rw [← same, taken]
        exact taken
      · rw [if_neg (by simpa using same), Option.or_none]
        rfl

/-- The first document of a class comes from the first source of the class that can be read. -/
theorem document?_ofSources (sources : List (Path × Text)) (descriptor : Text) :
    (ofSources config sources).document? descriptor =
      sources.findSome? (definition? config.options descriptor) := by
  -- Each source is added behind the others.
  induction sources using List.reverseRecOn with
  | nil => rfl
  | append_singleton sources source ih =>
    rw [ofSources_concat, document?_add, ih, List.findSome?_append, List.findSome?_singleton]
    rfl

/-- Documents and failures are what becomes of the sources. -/
theorem ofSources_eq (sources : List (Path × Text)) :
    (ofSources config sources).documents =
        (fates config.options sources).filterMap Sum.getLeft? ∧
      (ofSources config sources).failures =
        (fates config.options sources).filterMap Sum.getRight? := by
  -- Each source is added behind the others.
  induction sources using List.reverseRecOn with
  | nil => exact ⟨rfl, rfl⟩
  | append_singleton sources source ih =>
    rw [ofSources_concat, fates_concat, List.filterMap_append, List.filterMap_append, ← ih.1,
      ← ih.2]
    unfold fate add
    cases readSource config.options source with
    | error error => simp
    | ok document =>
      simp only [document?_ofSources]
      cases sources.findSome? (definition? config.options document.descriptor) with
      | none => simp
      | some other => simp

/-- The path of a document does not change its class. -/
@[simp] theorem descriptor_setPath (path : Path) (document : Document) :
    (document.setPath path).descriptor = document.descriptor :=
  -- Only the place is set.
  rfl

/-- A source defines no document of a class exactly if its text reads as none. -/
theorem definition?_eq_none {descriptor : Text} {source : Path × Text} :
    definition? options descriptor source = none ↔ ∀ document,
      Document.parse options source.2 = .ok document → document.descriptor ≠ descriptor := by
  -- The path does not matter.
  unfold definition? readSource
  cases Document.parse options source.2 with
  | error error => simp [Except.map, Except.toOption]
  | ok document => simp [Except.map, Except.toOption, Document.setPath]

/-- A source becomes a document exactly if it can be read, and no source before it can be read and
has the same class. -/
theorem fate_eq_inl {earlier : List (Path × Text)} {path : Path} {text : Text}
    {document : Document} : fate options earlier (path, text) = .inl document ↔
      ∃ read, Document.parse options text = .ok read ∧ document = read.setPath path ∧
        ∀ source ∈ earlier, ∀ other, Document.parse options source.2 = .ok other →
          other.descriptor ≠ read.descriptor := by
  -- A source of the class would be found.
  have absent (read : Document) :
      earlier.findSome? (definition? options read.descriptor) = none ↔
        ∀ source ∈ earlier, ∀ other, Document.parse options source.2 = .ok other →
          other.descriptor ≠ read.descriptor := by
    rw [List.findSome?_eq_none_iff]
    exact forall₂_congr fun source _ => definition?_eq_none
  unfold fate readSource
  cases read : Document.parse options text with
  | error error => simp [Except.map]
  | ok fresh =>
    simp only [Except.map, descriptor_setPath, Except.ok.injEq, exists_eq_left', ← absent]
    cases earlier.findSome? (definition? options fresh.descriptor) with
    | none => simp [eq_comm]
    | some other => simp

/-- A failure tells the path of its source. -/
theorem path_of_fate {earlier : List (Path × Text)} {source : Path × Text}
    {failure : DocumentFailure} (failed : fate options earlier source = .inr failure) :
    failure.path = source.1 := by
  -- There are two ways to fail.
  unfold fate at failed
  split at failed
  · cases failed
    rfl
  · split at failed
    · cases failed
    · cases failed
      rfl

/-- Each source becomes one document or one failure, both in the order of the sources. It becomes a
document, which is kept at its path, exactly if it can be read and no earlier source that can be
read has the same class, and else a failure with its path. No two documents have the same class,
and the document of a class is that of the first source of the class that can be read. -/
theorem ofSources_fates (config : Config) (sources : List (Path × Text)) :
    ∃ fates : List (Document ⊕ DocumentFailure), fates.length = sources.length ∧
      (ofSources config sources).documents = fates.filterMap Sum.getLeft? ∧
      (ofSources config sources).failures = fates.filterMap Sum.getRight? ∧
      (∀ index path text, sources[index]? = some (path, text) →
        (∀ document, fates[index]? = some (.inl document) ↔
          ∃ read, Document.parse config.options text = .ok read ∧
            document = read.setPath path ∧
            ∀ source ∈ sources.take index, ∀ other,
              Document.parse config.options source.2 = .ok other →
                other.descriptor ≠ read.descriptor) ∧
        ∀ failure, fates[index]? = some (.inr failure) → failure.path = path) ∧
      (ofSources config sources).Keyed ∧
      ∀ descriptor, (ofSources config sources).document? descriptor =
        sources.findSome? (definition? config.options descriptor) := by
  -- What becomes of a source depends on the sources before it.
  refine ⟨fates config.options sources, List.length_mapIdx, (ofSources_eq sources).1,
    (ofSources_eq sources).2, ?_, keyed_ofSources config sources,
    document?_ofSources sources⟩
  intro index path text here
  have found : (fates config.options sources)[index]? =
      some (fate config.options (sources.take index) (path, text)) := by
    rw [fates, List.getElem?_mapIdx, here]
    rfl
  rw [found]
  constructor
  · intro document
    rw [Option.some.injEq]
    exact fate_eq_inl
  · intro failure failed
    exact path_of_fate (Option.some.inj failed)

/-- Four sources, of which one cannot be read and one is of a class that is there already. -/
def doubledSources : List (Path × Text) :=
  -- The unreadable text names the class that comes last.
  [(⟨"A.smali".toList⟩, ".class LA;\n.super Lo;\n".toList),
    (⟨"B.smali".toList⟩, ".class LB;\n.super Lo;\n.end method\n".toList),
    (⟨"copy/A.smali".toList⟩, ".class LA;\n.super Lp;\n".toList),
    (⟨"other/B.smali".toList⟩, ".class LB;\n.super Lo;\n".toList)]

/-- The last source of the sample becomes a document, because no earlier one that can be read has
its class, and the two in the middle become failures. -/
theorem ofSources_fates_sample : ∃ fates : List (Document ⊕ DocumentFailure),
    (fates.filterMap Sum.getLeft?).map (fun document => document.descriptor) =
        ["LA;".toList, "LB;".toList] ∧
      (fates.filterMap Sum.getRight?).map (fun failure => failure.path) =
        [⟨"B.smali".toList⟩, ⟨"copy/A.smali".toList⟩] ∧
      ∃ document, fates[3]? = some (.inl document) ∧
        document.path = some ⟨"other/B.smali".toList⟩ := by
  -- The second text names the class as well, but does not read.
  obtain ⟨fates, -, documents, failures, each, -, -⟩ := ofSources_fates {} doubledSources
  have named : (Document.parse {} ".class LB;\n.super Lo;\n".toList).map
      (fun document => document.descriptor) = .ok "LB;".toList := by
    decide +kernel
  -- No source before the fourth defines the class.
  have earlier : ∀ source ∈ doubledSources.take 3,
      definition? {} "LB;".toList source = none := by
    decide +kernel
  refine ⟨fates, ?_, ?_, ?_⟩
  · rw [← documents]
    decide +kernel
  · rw [← failures]
    decide +kernel
  · cases parsed : Document.parse {} ".class LB;\n.super Lo;\n".toList with
    | error error => rw [parsed] at named; cases named
    | ok read =>
      rw [parsed] at named
      have class' : read.descriptor = "LB;".toList := Except.ok.inj named
      refine ⟨_, ((each 3 _ _ rfl).1 _).2 ⟨read, parsed, rfl, fun source member => ?_⟩, rfl⟩
      rw [class']
      exact definition?_eq_none.1 (earlier source member)

end Smali.Collection
