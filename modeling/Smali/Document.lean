import Smali.ClassText.Flush
import Smali.ClassText.Lookup
import Smali.Config
import Smali.Files.Path

/-! A document is a class text together with the place where it is kept. -/

namespace Smali

/-- A class text and where it is kept. -/
structure Document extends ClassText where
  /-- Where the text will be saved. -/
  path : Option Path
  /-- Where the text was read from, when it has been moved since. -/
  origin : Option Path
  /-- The text differs from what has been read or saved. -/
  modified : Bool
  deriving DecidableEq, Repr

namespace Document

/-- The document of a class text that has no place yet. -/
def ofClassText (source : ClassText) : Document :=
  -- Nothing has been changed so far.
  { source with path := none, origin := none, modified := false }

/-- Reads a document from a text, which is prepared as the options say. -/
def parse (options : ParseOptions) (text : Text) : Except Error Document := do
  -- The prepared text is the one that is kept.
  let text := if options.stripLineNumbers then Text.withoutLineNumbers text else text
  let source ← ClassText.parse text
  return ofClassText source

/-- Puts another class text into the document. -/
def withSource (source : ClassText) (document : Document) : Document :=
  -- The place stays.
  { document with toClassText := source }

/-- Changes the first field with a reference, where there is one. -/
def modifyField (reference : Text) (change : Field → Field) (document : Document) : Document :=
  -- The text itself does not change before the next flush.
  document.withSource (document.toClassText.modifyField reference change)

/-- Changes the first method with a reference, where there is one. -/
def modifyMethod (reference : Text) (change : Method → Method) (document : Document) : Document :=
  -- The text itself does not change before the next flush.
  document.withSource (document.toClassText.modifyMethod reference change)

/-- Replaces the text and reads it, which forgets all changes that were not written. -/
def setText (text : Text) (document : Document) : Except Error Document := do
  -- A text that does not read is refused.
  let source ← ClassText.parse text
  return { document.withSource source with modified := true }

/-- Reads the present text again, which forgets all changes that were not written. -/
def reparse (document : Document) : Except Error Document := do
  -- The text itself does not change.
  let source ← ClassText.parse document.text
  return document.withSource source

/-- Writes all changes of the members into the text. -/
def flush (document : Document) : Except Error Document := do
  -- Only a text that comes out different counts as modified.
  let source ← document.toClassText.flush
  return { document.withSource source with
    modified := document.modified || source.text != document.text }

/-- Says where the text will be saved. -/
def setPath (path : Path) (document : Document) : Document :=
  -- Nothing is moved.
  { document with path := some path }

/-- Moves the document, so that saving it removes it from the place where it was read. -/
def relocate (path : Path) (document : Document) : Document :=
  -- The first place that it was moved from is kept.
  if document.path.any fun present => present.same path then document
  else { document with
    path := some path
    origin := document.origin <|> document.path
    modified := true }

end Document

end Smali
