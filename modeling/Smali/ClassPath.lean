import Smali.Descriptor
import Smali.Files.Path

/-! Every class has its place in a directory, given by its packages and its name. -/

namespace Smali.Descriptor

/-- The path of a class in a directory of files with an extension. -/
def classPath (descriptor extension : Text) : Except Error Path :=
  -- Packages are directories, and the extension follows the name behind a dot.
  if isClass descriptor then
    let segments := (className descriptor).splitOnP (· == '/')
    let packages := segments.dropLast.foldl (fun path name => path.join ⟨name⟩) (Path.mk [])
    .ok (packages.join ⟨segments.getLast?.getD [] ++ '.' :: extension⟩)
  else refuse (.noClassPath descriptor)

end Smali.Descriptor
