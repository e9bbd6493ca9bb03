import Smali.Proofs.Text.Rewording
import Smali.Text.Comment

/-! A comment is found by where the reading of a line stands, which blanks hardly change. -/

namespace Smali.Text

/-- Where the reading of a line stands behind one more character. -/
def Quoting.step : Quoting → Char → Quoting
  -- A comment mark is not told apart from other characters here.
  | escaped, _ => inside
  | inside, c => if c = '\\' then escaped else if c = '"' then outside else inside
  | outside, c => if c = '"' then inside else outside

/-- Where the reading of a line stands behind some text. -/
def Quoting.after (quoting : Quoting) (text : Text) : Quoting :=
  -- It is read character by character.
  text.foldl step quoting

/-- What the reading of a line expects behind a character without a meaning of its own. -/
def Quoting.behind : Quoting → Quoting
  -- Only a backslash does not reach further.
  | escaped => inside
  | quoting => quoting

/-- No backslash reaches further than one character. -/
theorem Quoting.behind_ne_escaped (quoting : Quoting) : quoting.behind ≠ .escaped := by
  -- It is over behind that character.
  cases quoting <;> decide

/-- Without a backslash nothing changes behind a character without a meaning of its own. -/
theorem Quoting.behind_eq_self {quoting : Quoting} (unescaped : quoting ≠ .escaped) :
    quoting.behind = quoting := by
  -- Only a backslash would be over.
  cases quoting with
  | escaped => exact absurd rfl unescaped
  | _ => rfl

/-- A character is kept, unless it starts a comment. -/
theorem beforeComment_cons (quoting : Quoting) (c : Char) (rest : Text) :
    beforeComment quoting (c :: rest) = if quoting = .outside ∧ c = '#' then []
      else c :: beforeComment (quoting.step c) rest := by
  -- Comments start outside every literal.
  cases quoting <;> simp [beforeComment, Quoting.step]

/-- A character that neither quotes nor starts a comment does not change where the reading stands,
unless a backslash came before. -/
theorem Quoting.step_plain {c : Char} (quote : c ≠ '"') (slash : c ≠ '\\') (quoting : Quoting) :
    quoting.step c = quoting.behind := by
  -- It has no meaning of its own.
  cases quoting <;> simp [step, behind, quote, slash]

/-- A blank neither quotes nor starts a comment. -/
theorem plain_of_isBlank {c : Char} (blank : isBlank c) : c ≠ '#' ∧ c ≠ '"' ∧ c ≠ '\\' := by
  -- None of the three is a blank.
  refine ⟨?_, ?_, ?_⟩ <;> rintro rfl <;> exact absurd blank (by decide)

/-- A text has no comment for a reading that stands somewhere. -/
def Uncommented (quoting : Quoting) (text : Text) : Prop :=
  -- All of it stands before a comment.
  beforeComment quoting text = text

/-- The empty text has no comment. -/
@[simp] theorem uncommented_nil (quoting : Quoting) : Uncommented quoting [] := by
  -- There is no mark.
  simp [Uncommented, beforeComment]

/-- A comment starts at the first character or behind it. -/
theorem uncommented_cons {quoting : Quoting} {c : Char} {rest : Text} :
    Uncommented quoting (c :: rest) ↔
      ¬ (quoting = .outside ∧ c = '#') ∧ Uncommented (quoting.step c) rest := by
  -- The first character is kept unless it starts a comment.
  rw [Uncommented, beforeComment_cons]
  by_cases mark : quoting = .outside ∧ c = '#'
  · simp [mark]
  · simp [mark, Uncommented]

/-- A blank starts no comment. -/
theorem uncommented_blank {quoting : Quoting} {c : Char} (blank : isBlank c) {rest : Text} :
    Uncommented quoting (c :: rest) ↔ Uncommented quoting.behind rest := by
  -- It has no meaning of its own.
  obtain ⟨mark, quote, slash⟩ := plain_of_isBlank blank
  rw [uncommented_cons, Quoting.step_plain quote slash]
  simp [mark]

/-- What stands behind a text without comment is read from where the reading stands then. -/
theorem Uncommented.beforeComment_append {quoting : Quoting} {front : Text}
    (uncommented : Uncommented quoting front) (back : Text) :
    beforeComment quoting (front ++ back) = front ++ beforeComment (quoting.after front) back := by
  -- Each character is kept.
  induction front generalizing quoting with
  | nil => rfl
  | cons c rest ih =>
    obtain ⟨mark, others⟩ := uncommented_cons.1 uncommented
    rw [List.cons_append, beforeComment_cons, if_neg mark, ih others]
    rfl

/-- Two texts together have no comment exactly if neither has one. -/
theorem uncommented_append {quoting : Quoting} {front back : Text} :
    Uncommented quoting (front ++ back) ↔
      Uncommented quoting front ∧ Uncommented (quoting.after front) back := by
  -- The second one is read from where the reading stands behind the first one.
  induction front generalizing quoting with
  | nil => simp [Quoting.after]
  | cons c rest ih =>
    rw [List.cons_append, uncommented_cons, uncommented_cons, ih, and_assoc]
    rfl

/-- What stands before a comment has none. -/
theorem uncommented_beforeComment (quoting : Quoting) (text : Text) :
    Uncommented quoting (beforeComment quoting text) := by
  -- No character that is kept starts one.
  induction text generalizing quoting with
  | nil => simp [beforeComment]
  | cons c rest ih =>
    rw [beforeComment_cons]
    split
    · exact uncommented_nil _
    · next mark => exact uncommented_cons.2 ⟨mark, ih _⟩

/-- The part of a line that is read has no comment. -/
theorem uncommented_codePart (line : Text) : Uncommented .outside (codePart line) := by
  -- It is where the line without its comment begins.
  have whole := uncommented_beforeComment .outside line
  rw [← trimEnd_append_trailing (beforeComment .outside line), uncommented_append] at whole
  exact whole.1

/-- What stands before a comment is the beginning of the line. -/
theorem beforeComment_prefix (quoting : Quoting) (text : Text) :
    beforeComment quoting text <+: text := by
  -- Each character is kept up to the mark.
  induction text generalizing quoting with
  | nil => simp [beforeComment]
  | cons c rest ih =>
    rw [beforeComment_cons]
    split
    · exact List.nil_prefix
    · exact List.cons_prefix_cons.2 ⟨rfl, ih _⟩

/-- Without the mark there is no comment. -/
theorem uncommented_of_not_mem {text : Text} (absent : '#' ∉ text) (quoting : Quoting) :
    Uncommented quoting text := by
  -- No character is the mark.
  induction text generalizing quoting with
  | nil => exact uncommented_nil quoting
  | cons c rest ih =>
    rw [List.mem_cons, not_or] at absent
    exact uncommented_cons.2 ⟨fun mark => absent.1 mark.2.symm, ih absent.2 _⟩

/-- Characters that neither quote nor start a comment are no comment. -/
theorem uncommented_plain {text : Text} (plain : ∀ c ∈ text, c ≠ '#' ∧ c ≠ '"' ∧ c ≠ '\\')
    (quoting : Quoting) : Uncommented quoting text :=
  -- The mark is not among them.
  uncommented_of_not_mem (fun member => (plain '#' member).1 rfl) quoting

/-- Characters that neither quote nor start a comment leave the reading where it stood, unless a
backslash came before. -/
theorem Quoting.after_plain {text : Text} (nonempty : text ≠ [])
    (plain : ∀ c ∈ text, c ≠ '#' ∧ c ≠ '"' ∧ c ≠ '\\') (quoting : Quoting) :
    quoting.after text = quoting.behind := by
  -- A backslash does not reach further than the first of them.
  induction text generalizing quoting with
  | nil => exact absurd rfl nonempty
  | cons c rest ih =>
    rw [List.forall_mem_cons] at plain
    have step : quoting.after (c :: rest) = quoting.behind.after rest := by
      rw [← step_plain plain.1.2.1 plain.1.2.2]
      rfl
    rw [step]
    by_cases last : rest = []
    · rw [last]
      rfl
    · rw [ih last plain.2, behind_eq_self (behind_ne_escaped quoting)]

/-- Characters that neither quote nor start a comment are kept. -/
theorem beforeComment_front {front : Text} (nonempty : front ≠ [])
    (plain : ∀ c ∈ front, c ≠ '#' ∧ c ≠ '"' ∧ c ≠ '\\') (quoting : Quoting) (text : Text) :
    beforeComment quoting (front ++ text) = front ++ beforeComment quoting.behind text := by
  -- The reading stands where it stood, unless a backslash came before.
  rw [(uncommented_plain plain quoting).beforeComment_append, Quoting.after_plain nonempty plain]

/-- Blanks behind a line are left before a comment or go with it. -/
theorem beforeComment_append {tail : Text} (blank : ∀ c ∈ tail, isBlank c) (quoting : Quoting)
    (text : Text) : ∃ kept, (∀ c ∈ kept, isBlank c) ∧
      beforeComment quoting (text ++ tail) = beforeComment quoting text ++ kept := by
  -- A comment in the line takes them with it.
  induction text generalizing quoting with
  | nil =>
    refine ⟨tail, blank, ?_⟩
    rw [List.nil_append, uncommented_plain (fun c member => plain_of_isBlank (blank c member))]
    rfl
  | cons c rest ih =>
    rw [List.cons_append, beforeComment_cons, beforeComment_cons]
    split
    · exact ⟨[], by simp, by simp⟩
    · obtain ⟨kept, blank', same⟩ := ih (quoting.step c)
      exact ⟨kept, blank', by rw [same]; rfl⟩

/-- Blanks before a line are left before a comment. -/
theorem beforeComment_lead {lead : Text} (blank : ∀ c ∈ lead, isBlank c) (text : Text) :
    beforeComment .outside (lead ++ text) = lead ++ beforeComment .outside text := by
  -- Neither the mark nor a quote is blank.
  by_cases nonempty : lead = []
  · rw [nonempty]
    rfl
  · exact beforeComment_front nonempty (fun c member => plain_of_isBlank (blank c member)) _ text

/-- The words before a comment are those of the part of the line that is read. -/
theorem words_beforeComment (line : Text) :
    words (beforeComment .outside line) = words (codePart line) := by
  -- Only blanks are trimmed away.
  conv => lhs; rw [← trimEnd_append_trailing (beforeComment .outside line)]
  exact words_append_tail (fun c => isBlank_of_mem_trailing) _

/-- The words before a comment are those of the trimmed line. -/
theorem words_codePart (line : Text) :
    words (codePart line) = words (codePart (trim line)) := by
  -- Blanks around the line are no words.
  obtain ⟨lead, tail, blankLead, blankTail, whole⟩ := exists_trim line
  obtain ⟨kept, blankKept, same⟩ := beforeComment_append blankTail .outside (lead ++ trim line)
  rw [← words_beforeComment, ← words_beforeComment]
  conv => lhs; rw [whole]
  rw [same, words_append_tail blankKept, beforeComment_lead blankLead, words_append_lead blankLead]

/-- The words of a text without comment have none when they are joined by single spaces. -/
theorem Uncommented.intercalate_words {quoting : Quoting} {text : Text}
    (uncommented : Uncommented quoting text) (unescaped : quoting ≠ .escaped) :
    Uncommented quoting ([' '].intercalate (words text)) := by
  -- Several blanks leave the reading where one space does.
  induction text using word_induct generalizing quoting with
  | word text solid =>
    by_cases nonempty : text = []
    · simp [nonempty]
    · simpa [words_of_solid nonempty solid] using uncommented
  | more front c rest solid blank ih =>
    rw [uncommented_append, uncommented_blank blank] at uncommented
    obtain ⟨first, others⟩ := uncommented
    rw [words_append_cons blank]
    by_cases nonempty : front = []
    -- A blank alone leaves the reading as it is, unless the blank is escaped.
    · have same : (quoting.after front).behind = quoting := by
        rw [nonempty]
        exact Quoting.behind_eq_self unescaped
      rw [same] at others
      simpa [nonempty] using ih others unescaped
    · rw [words_of_solid nonempty solid, List.singleton_append]
      have later := ih others (Quoting.behind_ne_escaped _)
      cases listed : words rest with
      | nil => simpa using first
      | cons word more =>
        rw [listed] at later
        -- The word and the space before the next one are read as in the text.
        rw [List.intercalate_cons_cons, List.append_assoc, uncommented_append]
        exact ⟨first, (uncommented_blank (by decide)).2 later⟩

end Smali.Text
