import Smali.Descriptor
import Smali.Proofs.Method.Header
import Smali.Proofs.Rename.Plain

/-! Taking a text apart and replacing one class by another do not interfere. -/

namespace Smali

open Descriptor (isMark isNameChar splitType splitTypes)

namespace Text

/-- Cutting off a comment and replacing do not interfere if neither text has to do with comments. -/
theorem beforeComment_replace {old new : Text} (nonempty : old ≠ []) (nonempty' : new ≠ [])
    (plain : ∀ c ∈ old, c ≠ '#' ∧ c ≠ '"' ∧ c ≠ '\\')
    (plain' : ∀ c ∈ new, c ≠ '#' ∧ c ≠ '"' ∧ c ≠ '\\') (quoting : Quoting) (text : Text) :
    beforeComment quoting (replace old new text) =
      replace old new (beforeComment quoting text) := by
  -- An occurrence is passed over in both texts.
  induction text using replace_induct nonempty generalizing quoting with
  | nil => cases quoting <;> rfl
  | found rest ih =>
    rw [replace_found nonempty, beforeComment_front nonempty' plain',
      beforeComment_front nonempty plain, ih, replace_found nonempty]
  | other c rest absent ih =>
    have absent' (quoting : Quoting) : ¬ old <+: c :: beforeComment quoting rest := by
      intro inside
      have beginning := beforeComment_prefix quoting rest
      exact absent (inside.trans ((List.cons_prefix_cons).2 ⟨rfl, beginning⟩))
    rw [replace_other absent, beforeComment_cons, beforeComment_cons]
    split
    · rfl
    · rw [ih, replace_other (absent' _)]

end Text

namespace Renames

variable {old new : Text}

/-- A character that begins no descriptor is kept. -/
theorem replace_cons (renames : Renames old new) {c : Char} (other : c ≠ 'L') (rest : Text) :
    Text.replace old new (c :: rest) = c :: Text.replace old new rest :=
  -- Every occurrence begins with the letter.
  Text.replace_cons renames.old.head?_eq other rest

/-- What follows a directive becomes what follows it afterwards. -/
theorem afterPrefix?_replace (renames : Renames old new) {directive : Text}
    (letter : 'L' ∉ directive) (text : Text) :
    Text.afterPrefix? directive (Text.replace old new text) =
      (Text.afterPrefix? directive text).map (Text.replace old new) :=
  -- No occurrence starts in the directive.
  Text.afterPrefix?_replace renames.old.head?_eq renames.new.head?_eq letter text

/-- A text is split at a separator into what its parts become. -/
theorem splitOnce_replace (renames : Renames old new) (c : Char) (separator : Text)
    (marks : ∀ d ∈ c :: separator, isMark d) (text : Text) :
    Text.splitOnce (c :: separator) (Text.replace old new text) =
      (Text.splitOnce (c :: separator) text).map
        (Prod.map (Text.replace old new) (Text.replace old new)) := by
  -- The separator neither begins in an occurrence nor goes into one.
  have first : isMark c := marks c (by simp)
  exact Text.splitOnce_replace renames.old.head?_eq renames.new.head?_eq
    (fun member => absurd (marks _ member) (by decide))
    (Text.splitOnce_front (renames.old.not_mem first) separator)
    (Text.splitOnce_front (renames.new.not_mem first) separator) text

/-- Cutting off a comment and replacing do not interfere. -/
theorem beforeComment_replace (renames : Renames old new) (quoting : Text.Quoting) (text : Text) :
    Text.beforeComment quoting (Text.replace old new text) =
      Text.replace old new (Text.beforeComment quoting text) := by
  -- No descriptor quotes or starts a comment.
  have plain : ∀ descriptor, Descriptor.IsPlain descriptor →
      ∀ c ∈ descriptor, c ≠ '#' ∧ c ≠ '"' ∧ c ≠ '\\' := by
    intro descriptor plain c member
    refine ⟨?_, ?_, ?_⟩ <;> rintro rfl <;> exact plain.not_mem (by decide) member
  exact Text.beforeComment_replace renames.old.ne_nil renames.new.ne_nil (plain old renames.old)
    (plain new renames.new) quoting text

/-- The part of a line before its comment becomes that of the line afterwards. -/
theorem codePart_replace (renames : Renames old new) (line : Text) :
    Text.codePart (Text.replace old new line) = Text.replace old new (Text.codePart line) := by
  -- The blanks before the comment go on both sides.
  rw [Text.codePart, renames.beforeComment_replace, renames.trimEnd_replace, Text.codePart]

end Renames

end Smali
