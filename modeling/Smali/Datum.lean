import Smali.Config
import Smali.Reference

/-! References and settings are exchanged as structured data. -/

namespace Smali

/-- A piece of structured data. -/
inductive Datum where
  /-- Nothing. -/
  | null
  /-- A truth value. -/
  | bool (value : Bool)
  /-- A number, as it is written. -/
  | number (digits : Text)
  /-- A text. -/
  | text (value : Text)
  /-- A list of data. -/
  | list (items : List Datum)
  /-- Data by name. -/
  | record (entries : List (Text × Datum))
  deriving Inhabited

namespace Datum

/-- The text that a datum is. -/
def asText? : Datum → Option Text
  -- Nothing else is taken for a text.
  | text value => some value
  | _ => none

/-- The truth value that a datum is. -/
def asBool? : Datum → Option Bool
  -- Nothing else is taken for a truth value.
  | bool value => some value
  | _ => none

/-- The list of texts that a datum is. -/
def asTexts? : Datum → Option (List Text)
  -- Every item has to be a text.
  | list items => items.mapM asText?
  | _ => none

/-- The parts of a datum that is a record with given names or a list of the parts in that order,
each of which may be missing. -/
def parts? (names : List String) : Datum → Option (List (Option Datum))
  -- Entries with other names are passed over, but a list may not be longer than the names.
  | record entries => some (names.map fun name => entries.lookup name.toList)
  | list items =>
    if names.length < items.length then none
    else some (names.zipIdx.map fun (_, index) => items[index]?)
  | _ => none

/-- Reads a part that may be missing. -/
def orElse {α : Type} (read : Datum → Option α) (absent : α) (part : Option Datum) :
    Option α :=
  -- A part that is there has to be of the right form.
  match part with
  | none => some absent
  | some datum => read datum

/-- A record with given names and data. -/
def ofEntries (entries : List (String × Datum)) : Datum :=
  -- The names are kept in order.
  record (entries.map fun (name, datum) => (name.toList, datum))

end Datum

namespace FieldRef

/-- Reads a field reference. -/
def ofDatum? (datum : Datum) : Option FieldRef := do
  -- All three parts have to be there, and none of them is checked any further.
  match ← datum.parts? ["class", "name", "descriptor"] with
  | [some owner, some name, some descriptor] =>
    return ⟨← owner.asText?, ← name.asText?, ← descriptor.asText?⟩
  | _ => none

/-- A field reference as data. -/
def toDatum (field : FieldRef) : Datum :=
  -- Each part has its name.
  .ofEntries [("class", .text field.owner), ("name", .text field.name),
    ("descriptor", .text field.descriptor)]

end FieldRef

namespace MethodRef

/-- Reads a method reference. -/
def ofDatum? (datum : Datum) : Option MethodRef := do
  -- It has the parts of a field reference.
  let parts ← FieldRef.ofDatum? datum
  return ⟨parts.owner, parts.name, parts.descriptor⟩

/-- A method reference as data. -/
def toDatum (method : MethodRef) : Datum :=
  -- It has the parts of a field reference.
  (FieldRef.mk method.owner method.name method.descriptor).toDatum

end MethodRef

namespace Reference

/-- Reads a reference. -/
def ofDatum? : Datum → Option Reference
  -- The name of the only entry tells the sort.
  | .record [(sort, datum)] =>
    if sort = "Class".toList then datum.asText?.map ofClass
    else if sort = "Field".toList then (FieldRef.ofDatum? datum).map ofField
    else if sort = "Method".toList then (MethodRef.ofDatum? datum).map ofMethod
    else none
  | _ => none

/-- A reference as data. -/
def toDatum : Reference → Datum
  -- The name of the only entry tells the sort.
  | ofClass descriptor => .ofEntries [("Class", .text descriptor)]
  | ofField field => .ofEntries [("Field", field.toDatum)]
  | ofMethod method => .ofEntries [("Method", method.toDatum)]

end Reference

namespace ParseOptions

/-- Reads options, where what is missing is as usual. -/
def ofDatum? (datum : Datum) : Option ParseOptions := do
  -- There is one option only.
  match ← datum.parts? ["strip_line_directives"] with
  | [strip] => return ⟨← Datum.orElse Datum.asBool? false strip⟩
  | _ => none

/-- Options as data. -/
def toDatum (options : ParseOptions) : Datum :=
  -- There is one option only.
  .ofEntries [("strip_line_directives", .bool options.stripLineNumbers)]

end ParseOptions

namespace Config

/-- Reads settings, where what is missing is as usual. -/
def ofDatum? (datum : Datum) : Option Config := do
  -- The defaults are those of settings that say nothing.
  let usual : Config := {}
  match ← datum.parts? ["root", "include", "exclude", "extension", "parse"] with
  | [root, included, excluded, extension, options] =>
    return {
      root := ⟨← Datum.orElse Datum.asText? usual.root.spelling root⟩
      included := ← Datum.orElse Datum.asTexts? usual.included included
      excluded := ← Datum.orElse Datum.asTexts? usual.excluded excluded
      extension := ← Datum.orElse Datum.asText? usual.extension extension
      options := ← Datum.orElse ParseOptions.ofDatum? usual.options options }
  | _ => none

/-- Settings as data. -/
def toDatum (config : Config) : Datum :=
  -- Paths are given as they are spelled.
  .ofEntries [("root", .text config.root.spelling),
    ("include", .list (config.included.map .text)),
    ("exclude", .list (config.excluded.map .text)), ("extension", .text config.extension),
    ("parse", config.options.toDatum)]

end Config

end Smali
