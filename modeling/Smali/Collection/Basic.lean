import Smali.Document.Save
import Smali.Files.Selection

/-! A collection holds the documents of a directory, one for each class, and what failed to load. -/

namespace Smali

/-- A document that could not be loaded or rewritten. -/
structure DocumentFailure where
  /-- Where the document is kept. -/
  path : Path
  /-- Why it could not. -/
  error : Error
  deriving DecidableEq, Repr

/-- What failed and why, for a reader. -/
def DocumentFailure.display (failure : DocumentFailure) : Text :=
  -- The path comes first.
  failure.path.spelling ++ ": ".toList ++ failure.error.display

/-- The documents of a directory. -/
structure Collection where
  /-- Where they were looked for. -/
  config : Config
  /-- The documents in the order in which they were loaded. -/
  documents : List Document
  /-- What failed to load. -/
  failures : List DocumentFailure
  deriving DecidableEq, Repr

namespace Collection

/-- The first document of a class. -/
def document? (descriptor : Text) (collection : Collection) : Option Document :=
  -- Loading keeps classes apart, so that there is one at most.
  collection.documents.find? fun document => document.descriptor == descriptor

/-- Adds what loading from a path has given. -/
def add (collection : Collection) (path : Path) (loaded : Except Error Document) : Collection :=
  -- A class that is there already is a failure.
  match loaded with
  | .error error => { collection with failures := collection.failures ++ [⟨path, error⟩] }
  | .ok document =>
    match collection.document? document.descriptor with
    | none => { collection with documents := collection.documents ++ [document] }
    | some other =>
      let place := (other.path.map Path.spelling).getD []
      let error : Error := ⟨.classTaken document.descriptor place, []⟩
      { collection with failures := collection.failures ++ [⟨path, error⟩] }

/-- The collection of texts that come with their paths. -/
def ofSources (config : Config) (sources : List (Path × Text)) : Collection :=
  -- Sources are added in order.
  sources.foldl
    (fun collection (path, text) =>
      collection.add path ((Document.parse config.options text).map (Document.setPath path)))
    ⟨config, [], []⟩

/-- The collection of all files that settings select. -/
def load (config : Config) (files : FileSystem) : Except Error Collection := do
  -- Files are added in the order of their paths.
  let paths ← config.selectFiles files
  return paths.foldl
    (fun collection path => collection.add path (Document.read config.options path files))
    ⟨config, [], []⟩

/-- Changes the first document of a class, where there is one. -/
def modifyDocument (descriptor : Text) (change : Document → Document) (collection : Collection) :
    Collection :=
  -- The other documents stay in their places.
  match collection.documents.findIdx? fun document => document.descriptor == descriptor with
  | some index => { collection with documents := collection.documents.modify index change }
  | none => collection

/-- The class that a full reference to a member names. -/
def ownerPart? (reference : Text) : Option Text :=
  -- It stands before the first arrow.
  (Text.splitOnce arrow reference).map Prod.fst

/-- The field with a full reference. -/
def field? (reference : Text) (collection : Collection) : Option Field :=
  -- The class tells where to look.
  (ownerPart? reference).bind fun owner =>
    (collection.document? owner).bind fun document => document.field? reference

/-- The method of a class with a reference. -/
def method? (owner reference : Text) (collection : Collection) : Option Method :=
  -- The class tells where to look.
  (collection.document? owner).bind fun document => document.method? reference

/-- The classes whose texts mention something. -/
def mentions (text : Text) (collection : Collection) : List Text :=
  -- The texts are searched as they stand, without changes that are still to be written.
  (collection.documents.filter fun document => Text.contains text document.text).map fun document =>
    document.descriptor

/-- Puts a document at a position and gives the class that stood there. -/
def replace? (index : Nat) (document : Document) (collection : Collection) :
    Option (Text × Collection) :=
  -- There has to be a document at that position.
  collection.documents[index]?.map fun old =>
    (old.descriptor, { collection with documents := collection.documents.set index document })

end Collection

end Smali
