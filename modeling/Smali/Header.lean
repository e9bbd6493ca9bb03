import Smali.Descriptor
import Smali.Text.Blank

/-! A class text names its class and its superclass on one line each. -/

namespace Smali

/-- What a class header says. -/
structure ClassHeader where
  /-- The modifier words in order. -/
  modifiers : List Text
  /-- The class. -/
  descriptor : Text
  deriving DecidableEq, Repr

namespace Header

/-- The words of a trimmed line behind its directive, with spaces and tabs between them. -/
def wordsAfter (directive line : Text) : List Text :=
  -- Without a space behind the directive, or with a line break anywhere, there are no words.
  match Text.afterPrefix? directive line with
  | some (c :: rest) =>
    if Text.isSpace c && rest.all fun c => c != '\r' && c != '\n' then
      (rest.splitOnP Text.isSpace).filter fun word => !word.isEmpty
    else []
  | _ => []

/-- Reads a class header, in which every word but the last is a modifier. -/
def parseClass (line : Text) : Except Error ClassHeader :=
  -- The last word has to be a class descriptor.
  let line := Text.trim line
  match (wordsAfter ".class".toList line).reverse with
  | [] => refuse (.notClassHeader line)
  | descriptor :: modifiers =>
    if Descriptor.isClass descriptor then .ok ⟨modifiers.reverse, descriptor⟩
    else refuse (.headerDescriptor descriptor)

/-- Reads the superclass from its line. -/
def parseSuper (line : Text) : Except Error Text :=
  -- The only word has to be a class descriptor.
  let line := Text.trim line
  match wordsAfter ".super".toList line with
  | [descriptor] =>
    if Descriptor.isClass descriptor then .ok descriptor else refuse (.notSuperLine line)
  | _ => refuse (.notSuperLine line)

end Header

end Smali
