import Smali.Text.Blank
import Mathlib.Data.List.TakeWhile

/-! Trimming takes away the blanks at both ends, and words are what blanks keep apart. -/

namespace Smali.Text

/-- A space or a tab is blank. -/
theorem isBlank_of_isSpace {c : Char} (space : isSpace c) : isBlank c := by
  -- There are only these two.
  have either : c = ' ' ∨ c = '\t' := by simpa [isSpace] using space
  rcases either with rfl | rfl <;> decide

/-- A run of one kind is taken up to the first that is of another kind. -/
theorem takeWhile_run {α : Type} {kind : α → Bool} {run behind : List α}
    (inside : ∀ c ∈ run, kind c) (stops : ∀ c, behind.head? = some c → kind c = false) :
    (run ++ behind).takeWhile kind = run ∧ (run ++ behind).dropWhile kind = behind := by
  -- What is behind the run gives nothing to it.
  have none : behind.takeWhile kind = [] ∧ behind.dropWhile kind = behind := by
    cases behind with
    | nil => exact ⟨rfl, rfl⟩
    | cons c rest => simp [stops c rfl]
  rw [List.takeWhile_append_of_pos inside, List.dropWhile_append_of_pos inside, none.1, none.2,
    List.append_nil]
  exact ⟨rfl, rfl⟩

/-- Blanks in front of a text do not survive trimming its start. -/
theorem trimStart_append {lead : Text} (blank : ∀ c ∈ lead, isBlank c) (text : Text) :
    trimStart (lead ++ text) = trimStart text := by
  -- Dropping passes over all of the lead.
  exact List.dropWhile_append_of_pos blank

/-- Blanks behind a text do not survive trimming its end. -/
theorem trimEnd_append {tail : Text} (blank : ∀ c ∈ tail, isBlank c) (text : Text) :
    trimEnd (text ++ tail) = trimEnd text := by
  -- In reverse the tail comes first.
  simp only [trimEnd, List.reverse_append]
  rw [List.dropWhile_append_of_pos fun c member => blank c (List.mem_reverse.1 member)]

/-- Blanks at both ends do not survive trimming. -/
theorem trim_append {lead tail : Text} (blankLead : ∀ c ∈ lead, isBlank c)
    (blankTail : ∀ c ∈ tail, isBlank c) (text : Text) :
    trim (lead ++ text ++ tail) = trim text := by
  -- The tail is reached from the front only if the text itself is blank.
  rw [trim, List.append_assoc, trimStart_append blankLead]
  simp only [trimStart, List.dropWhile_append, trim]
  split
  · next empty =>
    have nothing : List.dropWhile isBlank text = [] := by simpa using empty
    rw [nothing, List.dropWhile_eq_nil_iff.2 blankTail]
  · exact trimEnd_append blankTail _

/-- The blanks behind the last other character of a text that does not start with a blank. -/
def trailing (text : Text) : Text :=
  -- They are what trimming the end takes away.
  (text.reverse.takeWhile isBlank).reverse

/-- Trimming the end takes away the trailing blanks alone. -/
theorem trimEnd_append_trailing (text : Text) : trimEnd text ++ trailing text = text := by
  -- In reverse these are the two parts of a run.
  rw [trimEnd, trailing, ← List.reverse_append, List.takeWhile_append_dropWhile,
    List.reverse_reverse]

/-- Trailing blanks are blank. -/
theorem isBlank_of_mem_trailing {text : Text} {c : Char} (member : c ∈ trailing text) :
    isBlank c := by
  -- The run stops at the first other character.
  rw [trailing, List.mem_reverse] at member
  exact List.all_eq_true.1 List.all_takeWhile c member

/-- The blanks in front of the first other character are blank. -/
theorem isBlank_of_mem_takeWhile {text : Text} {c : Char}
    (member : c ∈ text.takeWhile isBlank) : isBlank c := by
  -- The run stops at the first other character.
  exact List.all_eq_true.1 List.all_takeWhile c member

/-- A text is what trimming leaves, with the blanks before and behind it. -/
theorem takeWhile_append_trim (text : Text) :
    text.takeWhile isBlank ++ trim text ++ trailing (trimStart text) = text := by
  -- The start is taken away first, then the end.
  rw [List.append_assoc, trim, trimEnd_append_trailing]
  exact List.takeWhile_append_dropWhile

/-- What trimming leaves stands in the text between blanks. -/
theorem exists_trim (text : Text) :
    ∃ lead tail, (∀ c ∈ lead, isBlank c) ∧ (∀ c ∈ tail, isBlank c) ∧
      text = lead ++ trim text ++ tail := by
  -- The leading and trailing runs are the two sides.
  exact ⟨_, _, fun c => isBlank_of_mem_takeWhile, fun c => isBlank_of_mem_trailing,
    (takeWhile_append_trim text).symm⟩

/-- A trimmed text does not start with a blank. -/
theorem not_isBlank_of_head?_trimStart {text : Text} {c : Char}
    (first : (trimStart text).head? = some c) : isBlank c = false := by
  -- Dropping stopped there.
  have stopped := List.head?_dropWhile_not isBlank text
  rw [show List.dropWhile isBlank text = trimStart text from rfl, first] at stopped
  simpa using stopped

/-- A text that does not end with a blank keeps its end. -/
theorem trimEnd_eq_self {text : Text} (last : ∀ c, text.getLast? = some c → isBlank c = false) :
    trimEnd text = text := by
  -- In reverse there is nothing to drop.
  rw [trimEnd]
  cases reversed : text.reverse with
  | nil => simp [List.reverse_eq_nil_iff.1 reversed]
  | cons c rest =>
    have final : text.getLast? = some c := by
      rw [← List.head?_reverse, reversed]; rfl
    rw [List.dropWhile_cons_of_neg (by simp [last c final]), ← reversed, List.reverse_reverse]

/-- A text that neither starts nor ends with a blank is left as it is. -/
theorem trim_eq_self {text : Text} (first : ∀ c, text.head? = some c → isBlank c = false)
    (last : ∀ c, text.getLast? = some c → isBlank c = false) : trim text = text := by
  -- Neither end has anything to drop.
  have start : trimStart text = text := by
    cases text with
    | nil => rfl
    | cons c rest => simp [trimStart, first c rfl]
  rw [trim, start, trimEnd_eq_self last]

/-- Trimming leaves no blank at the end. -/
theorem not_isBlank_of_getLast?_trimEnd {text : Text} {c : Char}
    (last : (trimEnd text).getLast? = some c) : isBlank c = false := by
  -- In reverse the last character is the first one that was not dropped.
  rw [trimEnd, List.getLast?_reverse] at last
  exact not_isBlank_of_head?_trimStart last

/-- Trimming leaves no blank at the start. -/
theorem not_isBlank_of_head?_trim {text : Text} {c : Char}
    (first : (trim text).head? = some c) : isBlank c = false := by
  -- What trimming the end leaves begins as before.
  have whole := trimEnd_append_trailing (trimStart text)
  refine not_isBlank_of_head?_trimStart (show (trimStart text).head? = some c from ?_)
  rw [← whole, List.head?_append, show trimEnd (trimStart text) = trim text from rfl, first]
  rfl

/-- Blanks before a text are trimmed away. -/
theorem trim_lead {lead : Text} (blank : ∀ c ∈ lead, isBlank c) (text : Text) :
    trim (lead ++ text) = trim text := by
  -- No blanks behind it are looked at.
  rw [trim, trimStart_append blank, trim]

/-- Blanks behind a text are trimmed away. -/
theorem trim_tail {tail : Text} (blank : ∀ c ∈ tail, isBlank c) (text : Text) :
    trim (text ++ tail) = trim text := by
  -- No blanks stand before it.
  have whole := trim_append (List.forall_mem_nil _) blank text
  rwa [List.nil_append] at whole

/-- A trimmed text begins with no blank. -/
theorem not_isBlank_of_trim_cons {c : Char} {rest : Text} (trimmed : trim (c :: rest) = c :: rest) :
    isBlank c = false := by
  -- Its first character was not trimmed away.
  have first : (trim (c :: rest)).head? = some c := by rw [trimmed, List.head?_cons]
  exact not_isBlank_of_head?_trim first

/-- A trimmed text ends with no blank. -/
theorem not_isBlank_of_trim {text : Text} (trimmed : trim text = text) {c : Char}
    (last : text.getLast? = some c) : isBlank c = false := by
  -- Its last character was not trimmed away.
  rw [← trimmed] at last
  exact not_isBlank_of_getLast?_trimEnd last

/-- Trimming twice is trimming once. -/
@[simp] theorem trim_trim (text : Text) : trim (trim text) = trim text := by
  -- What is left after the first time has no blank at either end.
  exact trim_eq_self (fun c => not_isBlank_of_head?_trim)
    fun c => not_isBlank_of_getLast?_trimEnd

/-- The empty text has no words. -/
@[simp] theorem words_nil : words [] = [] := by
  -- Its only piece is empty.
  simp [words, List.splitOnP_nil]

/-- A blank keeps the words on its two sides apart. -/
theorem words_append_cons {c : Char} (blank : isBlank c) (front back : Text) :
    words (front ++ c :: back) = words front ++ words back := by
  -- The pieces on both sides are those of the sides.
  rw [words, List.splitOnP_append_cons front back blank, List.filter_append]
  rfl

/-- Blanks in front of a text add no word. -/
theorem words_append_lead {lead : Text} (blank : ∀ c ∈ lead, isBlank c) (text : Text) :
    words (lead ++ text) = words text := by
  -- Each blank has nothing before it.
  induction lead with
  | nil => rfl
  | cons c rest ih =>
    have split := words_append_cons (blank c (by simp)) [] (rest ++ text)
    simp only [List.nil_append, words_nil] at split
    rw [List.cons_append, split, ih fun c member => blank c (by simp [member])]

/-- Blanks alone hold no word. -/
theorem words_blank {text : Text} (blank : ∀ c ∈ text, isBlank c) : words text = [] := by
  -- They add none to the empty text.
  have added := words_append_lead blank []
  rwa [List.append_nil] at added

/-- Blanks behind a text add no word. -/
theorem words_append_tail {tail : Text} (blank : ∀ c ∈ tail, isBlank c) (text : Text) :
    words (text ++ tail) = words text := by
  -- The first blank ends the words of the text, and no word follows it.
  cases tail with
  | nil => simp
  | cons c rest =>
    have others : ∀ d ∈ rest, isBlank d := fun d member => blank d (by simp [member])
    rw [words_append_cons (blank c (by simp)) text rest, words_blank others, List.append_nil]

/-- A nonempty text without blanks is one word. -/
theorem words_of_solid {word : Text} (nonempty : word ≠ [])
    (solid : ∀ c ∈ word, isBlank c = false) : words word = [word] := by
  -- There is nothing to split at.
  rw [words, List.splitOnP_eq_singleton solid]
  simp [nonempty]

/-- The characters of a piece between cuts are characters of the text at which it is not cut. -/
theorem mem_of_mem_splitOnP {cuts : Char → Bool} {text piece : Text}
    (member : piece ∈ text.splitOnP cuts) : ∀ c ∈ piece, c ∈ text ∧ cuts c = false := by
  -- A character joins the first piece of what follows only if there is no cut.
  induction text generalizing piece with
  | nil =>
    rw [List.splitOnP_nil, List.mem_singleton] at member
    simp [member]
  | cons first rest ih =>
    rw [List.splitOnP_cons_eq_if_modifyHead] at member
    obtain ⟨head, others, pieces⟩ :=
      List.exists_cons_of_ne_nil (List.splitOnP_ne_nil cuts rest)
    rw [pieces] at ih member
    -- What has been cut off from the rest is known by induction.
    have later : ∀ piece ∈ head :: others, ∀ c ∈ piece, c ∈ first :: rest ∧ cuts c = false :=
      fun piece member c inside =>
        ⟨List.mem_cons_of_mem _ (ih member c inside).1, (ih member c inside).2⟩
    by_cases cut : cuts first
    · -- The cut begins an empty piece.
      simp only [cut, if_true, List.mem_cons] at member
      rcases member with rfl | member
      · simp
      · exact later piece (List.mem_cons.2 member)
    · -- The character joins the first piece.
      simp only [cut, Bool.false_eq_true, if_false, List.modifyHead_cons, List.mem_cons] at member
      rcases member with rfl | member
      · intro c inside
        rcases List.mem_cons.1 inside with rfl | inside
        · exact ⟨by simp, by simpa using cut⟩
        · exact later head (by simp) c inside
      · exact later piece (List.mem_cons_of_mem _ member)

/-- A trimmed text is a part of the text. -/
theorem trim_isInfix (text : Text) : trim text <:+: text := by
  -- Blanks are before it and behind it.
  obtain ⟨lead, tail, -, -, whole⟩ := exists_trim text
  exact ⟨lead, tail, whole.symm⟩

/-- A word is not empty and holds no blank. -/
theorem solid_of_mem_words {text word : Text} (member : word ∈ words text) :
    word ≠ [] ∧ ∀ c ∈ word, isBlank c = false := by
  -- Words are the pieces between blanks that are not empty.
  obtain ⟨piece, nonempty⟩ := List.mem_filter.1 member
  exact ⟨by simpa using nonempty, fun c inside => (mem_of_mem_splitOnP piece c inside).2⟩

/-- Words that are joined by single spaces are read back. -/
theorem words_intercalate {parts : List Text}
    (solid : ∀ part ∈ parts, part ≠ [] ∧ ∀ c ∈ part, isBlank c = false) :
    words ([' '].intercalate parts) = parts := by
  -- Each space ends the word before it.
  induction parts with
  | nil => simp
  | cons first rest ih =>
    obtain ⟨nonempty, pure⟩ := solid first (by simp)
    have others := ih fun part member => solid part (by simp [member])
    cases rest with
    | nil => simpa using words_of_solid nonempty pure
    | cons second rest =>
      have joined : [' '].intercalate (first :: second :: rest) =
          first ++ ' ' :: [' '].intercalate (second :: rest) := by
        simp [List.intercalate_cons_cons]
      rw [joined, words_append_cons (by decide), words_of_solid nonempty pure, others]
      rfl

end Smali.Text
