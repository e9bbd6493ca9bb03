import Smali.Files.Path

/-! Settings say where class texts are looked for and how they are prepared. -/

namespace Smali

/-- How a text is prepared before it is read. -/
structure ParseOptions where
  /-- The lines that record source line numbers are removed. -/
  stripLineNumbers : Bool := false
  deriving DecidableEq, Repr

/-- Where class texts are looked for. -/
structure Config where
  /-- The directory that holds them at any depth. -/
  root : Path := ⟨[]⟩
  /-- Keywords of which a path must hold one, if there are any. -/
  included : List Text := []
  /-- Keywords of which a path may hold none. -/
  excluded : List Text := []
  /-- The extension of the files. -/
  extension : Text := "smali".toList
  /-- How the texts are prepared. -/
  options : ParseOptions := {}
  deriving DecidableEq, Repr

namespace Config

/-- The settings for a directory that leave all else as usual. -/
def ofRoot (root : Path) : Config :=
  -- The defaults stand for the rest.
  { root := root }

/-- Sets the keywords of which a path must hold one. -/
def including (keywords : List Text) (config : Config) : Config :=
  -- Earlier keywords are forgotten.
  { config with included := keywords }

/-- Sets the keywords of which a path may hold none. -/
def excluding (keywords : List Text) (config : Config) : Config :=
  -- Earlier keywords are forgotten.
  { config with excluded := keywords }

/-- Sets the extension of the files. -/
def withExtension (extension : Text) (config : Config) : Config :=
  -- Dots in front of it do not belong to it.
  { config with extension := extension.dropWhile (· == '.') }

/-- Says whether lines that record source line numbers are removed. -/
def strippingLineNumbers (strip : Bool) (config : Config) : Config :=
  -- No other option is touched.
  { config with options := { config.options with stripLineNumbers := strip } }

end Config

end Smali
