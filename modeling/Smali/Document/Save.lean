import Smali.Document
import Smali.Files.System

/-! Documents are read from files and saved to them, and a moved document leaves its old file. -/

namespace Smali.Document

/-- Reads a document from a file. -/
def read (options : ParseOptions) (path : Path) (files : FileSystem) : Except Error Document := do
  -- All failures concern the path.
  let text ← concerning path.spelling <| match files.readText path with
    | .ok text => .ok text
    | .error failure => refuse (.file failure)
  let document ← concerning path.spelling (parse options text)
  return document.setPath path

/-- Writes the present text to a file, and makes the directories around it. -/
def write (path : Path) (files : FileSystem) (document : Document) :
    FileSystem × Except Error Unit :=
  -- Changes that are still to be written are not in the text.
  match files.writeWithDirectories path (.text document.text) with
  | (written, .ok ()) => (written, .ok ())
  | (made, .error failure) => (made, concerning path.spelling (refuse (.file failure)))

/-- What is left after an attempt to save. -/
structure Attempt where
  /-- The document afterwards. -/
  document : Document
  /-- The files afterwards. -/
  files : FileSystem
  /-- Whether the attempt succeeded. -/
  result : Except Error Unit

/-- Removes the file that a saved document was moved from. -/
def leaveOrigin (path : Path) (files : FileSystem) (document : Document) : Attempt :=
  -- The origin is forgotten whether or not its file can be removed.
  let settled : Document := { document with origin := none }
  let done (files : FileSystem) : Attempt := ⟨{ settled with modified := false }, files, .ok ()⟩
  match document.origin with
  | none => done files
  | some origin =>
    if origin.same path || !files.has origin then done files
    else
      match files.removeFile origin with
      | .ok removed => done removed
      | .error failure => ⟨settled, files, concerning origin.spelling (refuse (.file failure))⟩

/-- Writes all changes into the text, writes the text to its place, and removes the file that the
document was moved from. -/
def save (files : FileSystem) (document : Document) : Attempt :=
  -- What succeeded before a failure stays as it is.
  match document.flush with
  | .error error => ⟨document, files, .error error⟩
  | .ok flushed =>
    match flushed.path with
    | none => ⟨flushed, files, refuse (.noPath flushed.descriptor)⟩
    | some path =>
      match flushed.write path files with
      | (made, .error error) => ⟨flushed, made, .error error⟩
      | (written, .ok ()) => leaveOrigin path written flushed

end Smali.Document
