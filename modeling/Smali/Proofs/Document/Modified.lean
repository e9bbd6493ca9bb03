import Smali.Proofs.ClassText.Changes
import Smali.Proofs.ClassText.LineNumbers
import Smali.Proofs.Collection.Save

/-! A document that does not have to be saved has the text of its file, unless line numbers were
removed from that text when it was read. -/

namespace Smali.Document

open Collection (sampleDocument sampleFiles samplePath sampleText)

/-- What callers may do with the text and the members of a document. -/
inductive Operation where
  /-- The first field with a reference is changed. -/
  | field (reference : Text) (change : FieldChange)
  /-- The first method with a reference is changed. -/
  | method (reference : Text) (change : MethodChange)
  /-- All changes of the members are written into the text. -/
  | flush
  /-- The text is replaced. -/
  | setText (text : Text)
  /-- The text is read again. -/
  | reparse

/-- What an operation makes of a document. -/
def outcome (document : Document) : Operation → Except Error Document
  -- A member that is not there is passed over.
  | .field reference change => .ok (document.modifyField reference fun field => change.apply field)
  | .method reference change =>
    .ok (document.modifyMethod reference fun method => change.apply method)
  | .flush => document.flush
  | .setText text => document.setText text
  | .reparse => document.reparse

/-- The document after an operation. -/
def operate (document : Document) (operation : Operation) : Document :=
  -- One that fails changes nothing.
  match document.outcome operation with
  | .ok changed => changed
  | .error _ => document

/-- The document after several operations, one after the other. -/
def operateAll (document : Document) (operations : List Operation) : Document :=
  -- Each operation finds what the operations before it have left.
  operations.foldl operate document

variable {document : Document}

/-- An operation that leaves a document unchanged has found it so, with the same text. -/
theorem text_of_outcome {operation : Operation} {changed : Document}
    (done : document.outcome operation = .ok changed) (unmodified : changed.modified = false) :
    document.modified = false ∧ changed.text = document.text := by
  -- Members change without the text, and another text is marked.
  cases operation with
  | field reference change =>
    cases done
    refine ⟨unmodified, ?_⟩
    rw [modifyField, withSource, ClassText.modifyField]
    split <;> rfl
  | method reference change =>
    cases done
    refine ⟨unmodified, ?_⟩
    rw [modifyMethod, withSource, ClassText.modifyMethod]
    split <;> rfl
  | flush =>
    simp only [outcome, flush, bind_eq_ok, pure_eq_ok] at done
    obtain ⟨source, -, rfl⟩ := done
    simpa [withSource] using unmodified
  -- The texts given and parsed are those that decide the mark.
  | setText text =>
    simp only [outcome, setText, bind_eq_ok, pure_eq_ok] at done
    obtain ⟨source, -, rfl⟩ := done
    cases unmodified
  | reparse =>
    simp only [outcome, reparse, bind_eq_ok, pure_eq_ok] at done
    obtain ⟨source, parsed, rfl⟩ := done
    exact ⟨unmodified, ClassText.text_of_parse parsed⟩

/-- A document that is unchanged after an operation was so before, with the same text. -/
theorem text_operate {operation : Operation}
    (unmodified : (document.operate operation).modified = false) :
    document.modified = false ∧ (document.operate operation).text = document.text := by
  -- Failures do not matter.
  unfold operate at unmodified ⊢
  cases done : document.outcome operation with
  | error error =>
    rw [done] at unmodified
    exact ⟨unmodified, rfl⟩
  | ok changed =>
    rw [done] at unmodified
    exact text_of_outcome done unmodified

/-- A document that is unchanged after operations was so before, with the same text. -/
theorem text_operateAll {operations : List Operation}
    (unmodified : (document.operateAll operations).modified = false) :
    document.modified = false ∧ (document.operateAll operations).text = document.text := by
  -- No operation takes the mark of a change away.
  induction operations generalizing document with
  | nil => exact ⟨unmodified, rfl⟩
  | cons first rest ih =>
    obtain ⟨before, same⟩ := ih unmodified
    obtain ⟨earlier, first'⟩ := text_operate before
    exact ⟨earlier, same.trans first'⟩

/-- After any operations, a document that was read and does not have to be saved has the text of its
file, exactly if no line numbers were removed when it was read. -/
theorem unsaved_tells_iff {options : ParseOptions} {files : FileSystem} {path : Path}
    (opened : read options path files = .ok document) :
    (∀ operations, (document.operateAll operations).isUnsaved = false →
        files.readText path = .ok (document.operateAll operations).text) ↔
      (options.stripLineNumbers → ∀ content, files.readText path = .ok content →
        ∀ line ∈ Text.lines content, ¬ Text.SaysNumber line.trimmed) := by
  -- The text is the one that was prepared from the content of the file.
  obtain ⟨content, fresh, found, parsed, rfl⟩ := exists_of_read opened
  obtain ⟨prepared, -, unmodified⟩ := fresh_of_parse parsed
  constructor
  · -- Without operations the text is the prepared one, which must be the content.
    intro tells strips content' found'
    have clean : (fresh.setPath path).isUnsaved = false :=
      Bool.or_eq_false_iff.2 ⟨(settled_of_parse parsed).clean, unmodified⟩
    have same : files.readText path = .ok fresh.text := tells [] clean
    rw [found, Except.ok.injEq] at found'
    subst found'
    rw [found, prepared, if_pos strips, Except.ok.injEq] at same
    exact (Text.withoutLineNumbers_eq_self_iff content).1 same.symm
  · -- An unmodified document has kept the text that was prepared.
    intro silent operations saved
    have kept : (fresh.setPath path).text = content := by
      refine prepared.trans ?_
      split
      · next strips =>
        exact (Text.withoutLineNumbers_eq_self_iff content).2 (silent strips content found)
      · rfl
    rw [(text_operateAll (Bool.or_eq_false_iff.1 saved).2).2, kept, found]

/-- Where no line records a number, a document that does not have to be saved tells its file, even
though such lines are to be removed. -/
theorem unsaved_tells_sample : ∃ document,
    read ⟨true⟩ (samplePath 'A') sampleFiles = .ok document ∧
      ∀ operations, (document.operateAll operations).isUnsaved = false →
        sampleFiles.readText (samplePath 'A') = .ok (document.operateAll operations).text := by
  -- The file has two lines.
  have opened : read ⟨true⟩ (samplePath 'A') sampleFiles = .ok (sampleDocument 'A' none) := by
    decide +kernel
  have found : sampleFiles.readText (samplePath 'A') = .ok (sampleText 'A') := by decide +kernel
  refine ⟨_, opened, (unsaved_tells_iff opened).2 fun _ content found' line member => ?_⟩
  rw [found, Except.ok.injEq] at found'
  subst found'
  rw [← Line.recordsNumber_iff]
  revert line
  decide +kernel

/-- A directory with the file of a class that has line numbers. -/
def numberedFiles : FileSystem :=
  -- The file lies at the top.
  { tree := .directory [("A.smali".toList, .file (.text numberedSample))] }

/-- A document that is read without its line numbers does not have to be saved, although its text is
not that of its file. -/
theorem unsaved_hidesSample : ∃ options files path document operations,
    read options path files = .ok document ∧
      (document.operateAll operations).isDirty = false ∧
      (document.operateAll operations).modified = false ∧
      files.readText path ≠ .ok (document.operateAll operations).text := by
  -- Nothing has to be done to it.
  have whole : (read ⟨true⟩ ⟨"A.smali".toList⟩ numberedFiles).map (fun document =>
      (document.isDirty, document.modified,
        decide (numberedFiles.readText ⟨"A.smali".toList⟩ = .ok document.text))) =
      .ok (false, false, false) := by decide +kernel
  cases opened : read ⟨true⟩ ⟨"A.smali".toList⟩ numberedFiles with
  | error error =>
    rw [opened] at whole
    cases whole
  | ok document =>
    rw [opened] at whole
    obtain ⟨clean, others⟩ := Prod.mk.inj (Except.ok.inj whole)
    obtain ⟨unmodified, other⟩ := Prod.mk.inj others
    exact ⟨⟨true⟩, numberedFiles, _, document, [], opened, clean, unmodified,
      of_decide_eq_false other⟩

end Smali.Document
