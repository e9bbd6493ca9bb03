import Smali.Proofs.Text.Linewise
import Smali.Proofs.Text.Saying
import Smali.Proofs.Text.Splitting

/-! Words may be changed one by one, where it may count whether a word stands behind a space. -/

namespace Smali.Text

/-- A text holds no blank. -/
def Solid (text : Text) : Prop :=
  -- The empty text is solid, too.
  ∀ c ∈ text, isBlank c = false

/-- Whether a text holds no blank can be decided. -/
instance (text : Text) : Decidable (Solid text) :=
  -- Every character is looked at.
  inferInstanceAs (Decidable (∀ c ∈ text, _))

/-- A text without blanks has none at its ends. -/
theorem Solid.trim {text : Text} (solid : Solid text) : Text.trim text = text :=
  -- Its first and its last character are no blanks.
  trim_eq_self (fun c first => solid c (List.mem_of_head? first))
    fun c last => solid c (List.mem_of_getLast? last)

/-- A text is one that can stand behind a whole word. -/
def AfterWord (text : Text) : Prop :=
  -- It is empty or begins with a blank.
  ∀ c, text.head? = some c → isBlank c

/-- The empty text can stand behind a word. -/
theorem afterWord_nil : AfterWord [] := by
  -- It has no first character.
  simp [AfterWord]

/-- What begins with a blank can stand behind a word. -/
theorem afterWord_cons {c : Char} (blank : isBlank c) (rest : Text) : AfterWord (c :: rest) := by
  -- The blank is the first character.
  simpa [AfterWord] using blank

/-- A whole word is taken up to what may stand behind it. -/
theorem takeWhile_word {word rest : Text} (solid : Solid word) (after : AfterWord rest) :
    (word ++ rest).takeWhile (fun c => !isBlank c) = word ∧
      (word ++ rest).dropWhile (fun c => !isBlank c) = rest := by
  -- A blank follows, or nothing.
  refine takeWhile_run (fun c member => by simp [solid c member]) fun c first => ?_
  rw [after c first]
  rfl

/-- A text holds none of the signs that part the name of a member from its types. -/
def Unsigned (text : Text) : Prop :=
  -- Fields have a colon and methods have parentheses.
  ':' ∉ text ∧ '(' ∉ text

/-- Whether a text holds one of the signs can be decided. -/
instance (text : Text) : Decidable (Unsigned text) :=
  -- Both signs are looked for.
  inferInstanceAs (Decidable (_ ∧ _))

/-- Texts without signs have none when they are joined. -/
theorem Unsigned.append {front back : Text} (first : Unsigned front) (second : Unsigned back) :
    Unsigned (front ++ back) := by
  -- Each sign would be in one of them.
  simp only [Unsigned, List.mem_append, not_or] at first second ⊢
  exact ⟨⟨first.1, second.1⟩, first.2, second.2⟩

/-- Blanks are without signs. -/
theorem unsigned_of_blank {text : Text} (blank : ∀ c ∈ text, isBlank c) : Unsigned text := by
  -- No sign is blank.
  constructor <;> intro member <;> exact absurd (blank _ member) (by decide)

/-- Changes each word of a text, which is told whether the word stands behind a space. -/
def reword (change : Bool → Text → Text) (spaced : Bool) (text : Text) : Text :=
  -- The blanks stay where they are.
  match _found : text.dropWhile fun c => !isBlank c with
  | [] => change spaced text
  | c :: rest =>
    change spaced (text.takeWhile fun c => !isBlank c) ++ c :: reword change (c == ' ') rest
termination_by text.length
decreasing_by
  have shorter := (List.dropWhile_sublist (l := text) fun c => !isBlank c).length_le
  rw [_found, List.length_cons] at shorter
  omega

/-- What holds of texts without blanks, and stays when such a text and a blank are put in front,
holds of every text. -/
theorem word_induct {Holds : Text → Prop} (word : ∀ text, Solid text → Holds text)
    (more : ∀ front c rest, Solid front → isBlank c → Holds rest → Holds (front ++ c :: rest))
    (text : Text) : Holds text := by
  -- What is behind the first blank is shorter.
  have whole := List.takeWhile_append_dropWhile (p := fun c => !isBlank c) (l := text)
  have solid : Solid (text.takeWhile fun c => !isBlank c) := fun c member => by
    simpa using List.mem_takeWhile_imp member
  cases found : text.dropWhile fun c => !isBlank c with
  | nil =>
    rw [found, List.append_nil] at whole
    exact word text (whole ▸ solid)
  | cons c rest =>
    have stopped := List.head?_dropWhile_not (fun c => !isBlank c) text
    have shorter : rest.length < text.length := by
      have total := congrArg List.length whole
      rw [found, List.length_append, List.length_cons] at total
      omega
    rw [found] at whole stopped
    rw [← whole]
    exact more _ c rest solid (by simpa using stopped) (word_induct word more rest)
termination_by text.length

/-- A text without words has nothing but blanks. -/
theorem blank_of_words {text : Text} (nothing : words text = []) : ∀ c ∈ text, isBlank c := by
  -- Each word would be one of the text.
  have empty {word : Text} (solid : Solid word) (nothing : words word = []) : word = [] := by
    by_contra some'
    rw [words_of_solid some' solid] at nothing
    cases nothing
  induction text using word_induct with
  | word text solid => simp [empty solid nothing]
  | more front c rest solid blank ih =>
    rw [words_append_cons blank, List.append_eq_nil_iff] at nothing
    rw [empty solid nothing.1, List.nil_append]
    exact List.forall_mem_cons.2 ⟨blank, ih nothing.2⟩

/-- A text without blanks is changed as a whole. -/
theorem reword_solid (change : Bool → Text → Text) (spaced : Bool) {word : Text}
    (solid : Solid word) : reword change spaced word = change spaced word := by
  -- There is nothing behind the word.
  have nothing : word.dropWhile (fun c => !isBlank c) = [] :=
    List.dropWhile_eq_nil_iff.2 fun c member => by simp [solid c member]
  rw [reword]
  split
  · rfl
  · next c rest found => rw [nothing] at found; cases found

/-- The first blank parts the first word from what is changed behind it. -/
theorem reword_append_cons (change : Bool → Text → Text) (spaced : Bool) {front : Text}
    (solid : Solid front) {c : Char} (blank : isBlank c) (rest : Text) :
    reword change spaced (front ++ c :: rest) =
      change spaced front ++ c :: reword change (c == ' ') rest := by
  -- The first word goes up to the blank.
  obtain ⟨taken, dropped⟩ := takeWhile_word solid (afterWord_cons blank rest)
  rw [reword]
  split
  · next found => rw [dropped] at found; cases found
  · next d behind found =>
    rw [dropped] at found
    cases found
    rw [taken]

/-- Each blank parts what is changed. -/
theorem reword_append_blank (change : Bool → Text → Text) (spaced : Bool) (front : Text) {c : Char}
    (blank : isBlank c) (rest : Text) : reword change spaced (front ++ c :: rest) =
      reword change spaced front ++ c :: reword change (c == ' ') rest := by
  -- The words of the front are changed one by one.
  induction front using word_induct generalizing spaced with
  | word front solid => rw [reword_append_cons change spaced solid blank, reword_solid _ _ solid]
  | more front d behind solid blank' ih =>
    rw [List.append_assoc, List.cons_append, reword_append_cons change spaced solid blank', ih,
      reword_append_cons change spaced solid blank', List.append_assoc, List.cons_append]

/-- A way to change words that leaves words without signs alone. -/
structure Rewording (change : Bool → Text → Text) : Prop where
  /-- Nothing stays nothing. -/
  nil : ∀ spaced, change spaced [] = []
  /-- Something stays something. -/
  ne_nil : ∀ {spaced word}, word ≠ [] → change spaced word ≠ []
  /-- A word stays a word. -/
  solid : ∀ {spaced word}, Solid word → Solid (change spaced word)
  /-- A word without signs is kept. -/
  kept : ∀ {spaced word}, Unsigned word → change spaced word = word
  /-- No other word becomes one without signs. -/
  back : ∀ {spaced word}, Unsigned (change spaced word) → change spaced word = word

namespace Rewording

variable {change : Bool → Text → Text} {spaced : Bool}

/-- A word without signs comes only from itself. -/
theorem eq_iff (rewording : Rewording change) {word other : Text} (unsigned : Unsigned other) :
    change spaced word = other ↔ word = other := by
  -- It is kept, and nothing else becomes it.
  constructor
  · rintro rfl
    exact (rewording.back unsigned).symm
  · rintro rfl
    exact rewording.kept unsigned

/-- Nothing stays nothing. -/
@[simp] theorem reword_nil (rewording : Rewording change) : reword change spaced [] = [] := by
  -- The empty text has no blank.
  rw [reword_solid change spaced (by simp [Solid]), rewording.nil]

/-- A whole word is changed before what follows it. -/
theorem reword_append (rewording : Rewording change) {word rest : Text} (solid : Solid word)
    (after : AfterWord rest) : reword change spaced (word ++ rest) =
      change spaced word ++ reword change false rest := by
  -- The word ends at the first blank.
  cases rest with
  | nil => simp [reword_solid _ _ solid, rewording.reword_nil]
  | cons c rest =>
    have blank : isBlank c := after c rfl
    have first := reword_append_blank change false [] blank rest
    rw [rewording.reword_nil, List.nil_append, List.nil_append] at first
    rw [reword_append_cons change spaced solid blank, first]

/-- The first character stays if it is blank, and only then is it blank afterwards. -/
theorem head?_reword (rewording : Rewording change) {text : Text} {c : Char} (blank : isBlank c) :
    (reword change spaced text).head? = some c ↔ text.head? = some c := by
  -- A word that is not empty begins with another character before and after it is changed.
  have other {word rest : Text} (solid : Solid word) (some' : word ≠ []) :
      (word ++ rest).head? ≠ some c := by
    obtain ⟨d, others, rfl⟩ := List.exists_cons_of_ne_nil some'
    intro first
    have same : d = c := by simpa using first
    have solid' := solid d (by simp)
    rw [same, blank] at solid'
    cases solid'
  -- Whether the word is empty or not, the first characters agree.
  have both {word rest rest' : Text} (solid : Solid word) (same : rest.head? = rest'.head?) :
      (change spaced word ++ rest).head? = some c ↔ (word ++ rest').head? = some c := by
    by_cases nothing : word = []
    · rw [nothing, rewording.nil, List.nil_append, List.nil_append, same]
    · exact iff_of_false (other (rewording.solid solid) (rewording.ne_nil nothing))
        (other solid nothing)
  induction text using word_induct with
  | word text solid =>
    rw [reword_solid _ _ solid]
    have single := both solid (rfl : ([] : Text).head? = ([] : Text).head?)
    rwa [List.append_nil, List.append_nil] at single
  | more front d rest solid blank' ih =>
    rw [reword_append_cons change spaced solid blank']
    exact both solid rfl

/-- Only the empty text becomes empty. -/
theorem reword_eq_nil (rewording : Rewording change) {text : Text} :
    reword change spaced text = [] ↔ text = [] := by
  -- A blank stays, and so does a word.
  induction text using word_induct with
  | word text solid =>
    rw [reword_solid _ _ solid]
    exact ⟨fun nothing => by_contra fun some' => rewording.ne_nil some' nothing,
      fun nothing => by rw [nothing, rewording.nil]⟩
  | more front c rest solid blank ih =>
    rw [reword_append_cons change spaced solid blank]
    simp

/-- What stands behind a word stays behind it. -/
theorem afterWord_reword (rewording : Rewording change) {text : Text} :
    AfterWord (reword change spaced text) ↔ AfterWord text := by
  -- A first blank is kept, and nothing else becomes one.
  constructor
  · -- A blank that begins the changed text has been one of the text.
    intro after c first
    have some' : reword change spaced text ≠ [] := by
      rw [Ne, rewording.reword_eq_nil]
      rintro rfl
      cases first
    obtain ⟨d, others, same⟩ := List.exists_cons_of_ne_nil some'
    have blank := after d (by rw [same]; rfl)
    have here : (reword change spaced text).head? = some d := by rw [same]; rfl
    have kept := (rewording.head?_reword blank).1 here
    rw [first, Option.some.injEq] at kept
    rwa [kept]
  · -- The text begins with the blank that the changed one has.
    intro after c first
    cases text with
    | nil => rw [rewording.reword_nil] at first; cases first
    | cons d rest =>
      have blank : isBlank d := after d rfl
      have kept : (reword change spaced (d :: rest)).head? = some d :=
        (rewording.head?_reword blank).2 rfl
      rw [first, Option.some.injEq] at kept
      rwa [kept]

/-- Whole words without signs are kept, whatever follows them. -/
theorem reword_unsigned (rewording : Rewording change) {front rest : Text}
    (unsigned : Unsigned front) (after : AfterWord rest) :
    reword change spaced (front ++ rest) = front ++ reword change false rest := by
  -- The words of the front are kept one by one.
  induction front using word_induct generalizing spaced with
  | word front solid => rw [rewording.reword_append solid after, rewording.kept unsigned]
  | more front c behind solid blank ih =>
    simp only [Unsigned, List.mem_append, List.mem_cons, not_or] at unsigned
    rw [List.append_assoc, List.cons_append, reword_append_cons change spaced solid blank,
      rewording.kept ⟨unsigned.1.1, unsigned.2.1⟩, ih ⟨unsigned.1.2.2, unsigned.2.2.2⟩,
      List.append_assoc, List.cons_append]

/-- Whole words without signs come only from themselves. -/
theorem exists_of_reword (rewording : Rewording change) {text front rest : Text}
    (unsigned : Unsigned front) (after : AfterWord rest)
    (same : reword change spaced text = front ++ rest) :
    ∃ behind, text = front ++ behind ∧ AfterWord behind ∧ reword change false behind = rest := by
  -- The induction is on the text, and the front loses the first word of it in each step.
  induction text using word_induct generalizing spaced front with
  | word text solid =>
    rw [reword_solid _ _ solid] at same
    -- Nothing can follow the only word.
    have nothing : rest = [] := by
      cases rest with
      | nil => rfl
      | cons c others =>
        have blank := after c rfl
        have inside : c ∈ change spaced text := by rw [same]; simp
        rw [rewording.solid solid c inside] at blank
        cases blank
    rw [nothing, List.append_nil, rewording.eq_iff unsigned] at same
    exact ⟨[], by rw [same, List.append_nil], afterWord_nil, by
      rw [rewording.reword_nil, nothing]⟩
  | more word c behind solid blank ih =>
    rw [reword_append_cons change spaced solid blank] at same
    -- The front does not end inside the first word.
    obtain ⟨more, whole, others⟩ : ∃ more, front = change spaced word ++ more ∧
        c :: reword change (c == ' ') behind = more ++ rest := by
      rcases List.append_eq_append_iff.1 same with here | ⟨more, whole, others⟩
      · exact here
      · cases more with
        | nil =>
          rw [List.append_nil] at whole
          exact ⟨[], by rw [whole, List.append_nil], others.symm⟩
        | cons d more =>
          have blank' : isBlank d := after d (by rw [others]; rfl)
          have inside : d ∈ change spaced word := by rw [whole]; simp
          rw [rewording.solid solid d inside] at blank'
          cases blank'
    rw [whole] at unsigned
    simp only [Unsigned, List.mem_append, not_or] at unsigned
    rw [rewording.back ⟨unsigned.1.1, unsigned.2.1⟩] at whole
    -- The first word has taken the whole front.
    cases more with
    | nil =>
      have step := reword_append_blank change false [] blank behind
      rw [rewording.reword_nil, List.nil_append, List.nil_append] at step
      exact ⟨c :: behind, by rw [whole, List.append_nil], afterWord_cons blank behind, by
        rw [step, others]
        rfl⟩
    -- The front goes on behind the blank.
    | cons d more =>
      rw [List.cons_append, List.cons.injEq] at others
      obtain ⟨rfl, others⟩ := others
      simp only [List.mem_cons, not_or] at unsigned
      obtain ⟨last, parts, after', same'⟩ := ih ⟨unsigned.1.2.2, unsigned.2.2.2⟩ others
      exact ⟨last, by rw [whole, parts]; simp, after', same'⟩

/-- A text without signs is kept. -/
theorem reword_kept (rewording : Rewording change) {text : Text} (unsigned : Unsigned text) :
    reword change spaced text = text := by
  -- Nothing follows it.
  have whole : reword change spaced (text ++ []) = _ :=
    rewording.reword_unsigned unsigned afterWord_nil
  rwa [rewording.reword_nil, List.append_nil] at whole

/-- No other text becomes one without signs. -/
theorem reword_back (rewording : Rewording change) {text : Text}
    (unsigned : Unsigned (reword change spaced text)) : reword change spaced text = text := by
  -- All its words come from themselves.
  obtain ⟨behind, whole, -, nothing⟩ := rewording.exists_of_reword unsigned afterWord_nil
    (List.append_nil _).symm
  rw [rewording.reword_eq_nil] at nothing
  rw [nothing, List.append_nil] at whole
  exact whole.symm

/-- A text opens with the same directives as what it becomes. -/
theorem opens_reword (rewording : Rewording change) {directive : Text}
    (unsigned : Unsigned directive) (text : Text) :
    opens directive (reword change spaced text) = opens directive text := by
  -- The directive and what may follow it are the same in both.
  rw [Bool.eq_iff_iff]
  constructor
  · intro opened
    obtain ⟨rest, same, after⟩ := exists_of_opens opened
    obtain ⟨behind, rfl, after', -⟩ := rewording.exists_of_reword unsigned after same
    exact opens_append after'
  · intro opened
    obtain ⟨rest, rfl, after⟩ := exists_of_opens opened
    rw [rewording.reword_unsigned unsigned after]
    exact opens_append (rewording.afterWord_reword.2 after)

/-- Blanks alone stay. -/
theorem reword_blanks (rewording : Rewording change) {text : Text}
    (blank : ∀ c ∈ text, isBlank c) : reword change spaced text = text := by
  -- They are without signs.
  exact rewording.reword_kept (unsigned_of_blank blank)

/-- Blanks before a text stay, and the last of them counts for its first word. -/
theorem reword_lead (rewording : Rewording change) {lead : Text} (nonempty : lead ≠ [])
    (blank : ∀ c ∈ lead, isBlank c) (text : Text) : reword change spaced (lead ++ text) =
      lead ++ reword change (lead.getLast? == some ' ') text := by
  -- The blanks before the last one hold no word.
  obtain ⟨front, c, rfl⟩ := (List.eq_nil_or_concat lead).resolve_left nonempty
  rw [List.concat_eq_append] at blank ⊢
  have front' : reword change spaced front = front :=
    rewording.reword_blanks fun d member => blank d (List.mem_append_left _ member)
  rw [List.append_assoc, List.singleton_append, reword_append_blank change spaced front
    (blank c (by simp)), front', List.getLast?_concat, List.append_assoc]
  rfl

/-- Blanks behind a text stay. -/
theorem reword_tail (rewording : Rewording change) {tail : Text} (blank : ∀ c ∈ tail, isBlank c)
    (text : Text) : reword change spaced (text ++ tail) = reword change spaced text ++ tail := by
  -- The first of them parts the text from the others.
  cases tail with
  | nil => simp
  | cons c rest =>
    rw [reword_append_blank change spaced text (blank c (by simp)),
      rewording.reword_blanks fun d member => blank d (List.mem_cons_of_mem c member)]

/-- The last character stays if it is blank, and only then is it blank afterwards. -/
theorem getLast?_reword (rewording : Rewording change) {text : Text} {c : Char}
    (blank : isBlank c) : (reword change spaced text).getLast? = some c ↔
      text.getLast? = some c := by
  -- A word ends with another character before and after it is changed.
  have other {word : Text} (solid : Solid word) : word.getLast? ≠ some c := fun last => by
    rw [solid c (List.mem_of_getLast? last)] at blank
    cases blank
  induction text using word_induct generalizing spaced with
  | word text solid =>
    rw [reword_solid _ _ solid]
    exact iff_of_false (other (rewording.solid solid)) (other solid)
  | more front d rest solid _ ih =>
    rw [reword_append_cons change spaced solid ‹_›, List.getLast?_append, List.getLast?_append,
      List.getLast?_cons, List.getLast?_cons]
    cases rest with
    | nil => rw [rewording.reword_nil]; rfl
    | cons e rest =>
      have some' : reword change (d == ' ') (e :: rest) ≠ [] := by simp [rewording.reword_eq_nil]
      have later : (reword change (d == ' ') (e :: rest)).getLast? = some c ↔ _ := ih
      rw [List.getLast?_eq_some_getLast some',
        List.getLast?_eq_some_getLast (List.cons_ne_nil e rest)] at later ⊢
      simpa using later

/-- Trimming and changing words do not interfere. -/
theorem exists_trim_reword (rewording : Rewording change) (spaced : Bool) (text : Text) :
    ∃ flag, trim (reword change spaced text) = reword change flag (trim text) := by
  -- The blanks before a text only count for its first word.
  obtain ⟨lead, tail, blankLead, blankTail, whole⟩ := exists_trim text
  obtain ⟨flag, changed⟩ : ∃ flag, reword change spaced (lead ++ trim text) =
      lead ++ reword change flag (trim text) := by
    cases lead with
    | nil => exact ⟨spaced, rfl⟩
    | cons c rest => exact ⟨_, rewording.reword_lead (by simp) blankLead _⟩
  refine ⟨flag, ?_⟩
  conv => lhs; rw [whole, rewording.reword_tail blankTail, changed]
  rw [trim_append blankLead blankTail]
  -- What is left has no blank at either end.
  refine trim_eq_self (fun c first => ?_) fun c last => ?_
  · rw [← Bool.not_eq_true]
    intro blank
    rw [rewording.head?_reword blank] at first
    rw [not_isBlank_of_head?_trim first] at blank
    cases blank
  · rw [← Bool.not_eq_true]
    intro blank
    rw [rewording.getLast?_reword blank] at last
    rw [not_isBlank_of_getLast?_trimEnd last] at blank
    cases blank

/-- No blank comes from anything else. -/
theorem not_mem_reword (rewording : Rewording change) {text : Text} {c : Char} (blank : isBlank c)
    (absent : c ∉ text) : c ∉ reword change spaced text := by
  -- Words stay words, and the blanks between them are those of the text.
  induction text using word_induct generalizing spaced with
  | word text solid =>
    rw [reword_solid _ _ solid]
    intro member
    rw [rewording.solid solid c member] at blank
    cases blank
  | more front d rest solid blank' ih =>
    simp only [List.mem_append, List.mem_cons, not_or] at absent
    rw [reword_append_cons change spaced solid blank', List.mem_append, List.mem_cons]
    rintro (member | same | member)
    · rw [rewording.solid solid c member] at blank
      cases blank
    · exact absent.2.1 same
    · exact ih absent.2.2 member

/-- Words are changed line by line. -/
theorem linewise (rewording : Rewording change) : Linewise (reword change false) where
  -- The ends of lines are blank, and no spaces.
  nil := rewording.reword_nil
  ne_nil nonempty := by simp [rewording.reword_eq_nil, nonempty]
  feed front back := reword_append_blank change false front (by decide) back
  single := rewording.not_mem_reword (by decide)
  carriage front := by
    rw [reword_append_blank change false front (by decide), rewording.reword_nil]
  final := by
    rintro text c (rfl | rfl) last
    · exact (rewording.getLast?_reword (by decide)).1 last
    · exact (rewording.getLast?_reword (by decide)).1 last

/-- An equals sign between spaces splits a text where it splits what the text becomes. -/
theorem splitOnce_reword (rewording : Rewording change) (text : Text) :
    splitOnce " = ".toList (reword change spaced text) =
      (splitOnce " = ".toList text).map
        (Prod.map (reword change spaced) (reword change true)) := by
  -- The words are passed over one by one, and a single equals sign is kept.
  have sign : " = ".toList = ' ' :: "= ".toList := rfl
  have noSpace {word : Text} (solid : Solid word) : ' ' ∉ word := fun member =>
    absurd (solid ' ' member) (by decide)
  have equals : Solid ['='] ∧ Unsigned ['='] := by decide
  rw [sign]
  induction text using word_induct generalizing spaced with
  | word text solid =>
    -- A word holds no space, so that it does not hold the sign.
    have none' {word : Text} (solid : Solid word) : splitOnce (' ' :: "= ".toList) word = none :=
      splitOnce_none fun left right whole beginning => noSpace solid
        (by rw [whole]; exact List.mem_append_right _ (beginning.subset (by simp)))
    rw [reword_solid _ _ solid, none' solid, none' (rewording.solid solid)]
    rfl
  | more front c rest solid blank ih =>
    rw [reword_append_cons change spaced solid blank,
      splitOnce_front (noSpace (rewording.solid solid)), splitOnce_front (noSpace solid),
      Option.map_map]
    -- The sign begins at the blank, or it comes later.
    by_cases here : ' ' :: "= ".toList <+: c :: rest
    · obtain ⟨behind, whole⟩ := here
      obtain ⟨rfl, rfl⟩ : ' ' = c ∧ ['='] ++ ' ' :: behind = rest := by simpa using whole
      have step (more : Text) : splitOnce (' ' :: "= ".toList) (' ' :: (['='] ++ ' ' :: more)) =
          some ([], more) := by
        rw [splitOnce_cons]
        rfl
      rw [reword_append_cons change _ equals.1 (by decide), rewording.kept equals.2, step, step]
      simp [reword_solid _ _ solid]
    · -- A sign that begins here in the changed text would begin here in the text.
      have absent : ¬ ' ' :: "= ".toList <+: c :: reword change (c == ' ') rest := by
        rintro ⟨behind, whole⟩
        obtain ⟨rfl, same⟩ : ' ' = c ∧ ['='] ++ ' ' :: behind =
            reword change (c == ' ') rest := by simpa using whole
        obtain ⟨others, rfl, after, same'⟩ := rewording.exists_of_reword equals.2
          (afterWord_cons (by decide) behind) same.symm
        have here' : (reword change false others).head? = some ' ' := by rw [same']; rfl
        have first := (rewording.head?_reword (by decide)).1 here'
        obtain ⟨more, rfl⟩ := List.head?_eq_some_iff.1 first
        exact here ⟨more, rfl⟩
      rw [splitOnce_other absent, splitOnce_other here, ih, Option.map_map, Option.map_map,
        Option.map_map]
      refine congrArg (fun image => Option.map image (splitOnce (' ' :: "= ".toList) rest)) ?_
      funext parts
      obtain ⟨before, after⟩ := parts
      simp [reword_append_cons change spaced solid blank]

end Rewording

/-- A text is cut before and behind its last word. -/
structure LastWord (text front word tail : Text) : Prop where
  /-- These are the parts of the text. -/
  whole : text = front ++ word ++ tail
  /-- The word is not empty. -/
  nonempty : word ≠ []
  /-- The word is a word. -/
  solid : Solid word
  /-- A blank keeps it apart from what stands before it. -/
  apart : ∀ c, front.getLast? = some c → isBlank c
  /-- Only blanks follow it. -/
  blank : ∀ c ∈ tail, isBlank c

namespace LastWord

variable {text front word tail : Text}

/-- The last word stands behind the other words. -/
theorem words (last : LastWord text front word tail) :
    Text.words text = Text.words front ++ [word] := by
  -- The blank before it may be left out.
  rw [last.whole, words_append_tail last.blank]
  rcases List.eq_nil_or_concat front with rfl | ⟨before, c, rfl⟩
  · rw [List.nil_append, words_of_solid last.nonempty last.solid, words_nil, List.nil_append]
  · have blank : isBlank c := last.apart c (by rw [List.concat_eq_append, List.getLast?_concat])
    rw [List.concat_eq_append, List.append_assoc, List.singleton_append, words_append_cons blank,
      words_append_cons blank, words_of_solid last.nonempty last.solid, words_nil, List.append_nil]

/-- Trimming the end leaves the last word at the end. -/
theorem trimEnd (last : LastWord text front word tail) : Text.trimEnd text = front ++ word := by
  -- The word does not end with a blank.
  rw [last.whole, trimEnd_append last.blank]
  refine trimEnd_eq_self fun c final => last.solid c ?_
  rw [List.getLast?_append_of_ne_nil _ last.nonempty] at final
  exact List.mem_of_getLast? final

/-- There is only one last word, in one place. -/
theorem unique (last : LastWord text front word tail) {front' word' tail' : Text}
    (last' : LastWord text front' word' tail') : front = front' ∧ word = word' ∧ tail = tail' := by
  -- It is the last of the words, and the last thing that trimming leaves.
  have words := last.words
  rw [last'.words] at words
  obtain rfl : word' = word := List.singleton_inj.1 (List.append_inj' words rfl).2
  have trimmed := last.trimEnd
  rw [last'.trimEnd] at trimmed
  obtain rfl := List.append_cancel_right trimmed
  exact ⟨rfl, rfl, List.append_cancel_left (last.whole.symm.trans last'.whole)⟩

/-- A text with a last word says something. -/
theorem words_ne_nil (last : LastWord text front word tail) : Text.words text ≠ [] := by
  -- The word is one of its words.
  simp [last.words]

/-- The last word stands behind a space exactly if a space and the word are the end of the text. -/
theorem spaced_iff (last : LastWord text front word tail) :
    ' ' :: word <:+ Text.trimEnd text ↔ front.getLast? = some ' ' := by
  -- The rest of the text is what stands before the word.
  rw [last.trimEnd]
  constructor
  · rintro ⟨before, whole⟩
    have same : before ++ [' '] = front := List.append_cancel_right (by
      rw [List.append_assoc]
      exact whole)
    rw [← same, List.getLast?_concat]
  · intro final
    obtain ⟨before, rfl⟩ := List.getLast?_eq_some_iff.1 final
    exact ⟨before, by simp⟩

/-- The last word is changed, and whether it stands behind a space is seen before it. -/
theorem reword (last : LastWord text front word tail) {change : Bool → Text → Text}
    (rewording : Rewording change) (spaced : Bool) :
    LastWord (Text.reword change spaced text) (Text.reword change spaced front)
      (change (front.getLast?.elim spaced (· == ' ')) word) tail := by
  -- The blank before it parts what is changed.
  refine ⟨?_, rewording.ne_nil last.nonempty, rewording.solid last.solid, fun c final => ?_,
    last.blank⟩
  · rw [last.whole, rewording.reword_tail last.blank]
    rcases List.eq_nil_or_concat front with rfl | ⟨before, c, rfl⟩
    · rw [List.nil_append, reword_solid _ _ last.solid, rewording.reword_nil]
      rfl
    · -- The blank at the end of the front is where the change is parted.
      have blank : isBlank c := last.apart c (by rw [List.concat_eq_append, List.getLast?_concat])
      have front := reword_append_blank change spaced before blank []
      rw [rewording.reword_nil] at front
      rw [List.concat_eq_append, front, List.getLast?_concat, List.append_assoc,
        List.singleton_append, reword_append_blank change spaced before blank,
        reword_solid _ _ last.solid]
      simp
  · -- The front still ends with its blank.
    rcases List.eq_nil_or_concat front with rfl | ⟨before, d, rfl⟩
    · rw [rewording.reword_nil] at final
      cases final
    · have blank : isBlank d := last.apart d (by rw [List.concat_eq_append, List.getLast?_concat])
      rw [List.concat_eq_append, reword_append_blank change spaced before blank,
        rewording.reword_nil, List.getLast?_concat, Option.some.injEq] at final
      rwa [← final]

end LastWord

/-- A text that has words has a last one. -/
theorem exists_lastWord {text word : Text} (last : (words text).getLast? = some word) :
    ∃ front tail, LastWord text front word tail := by
  -- It is looked for from the end.
  -- The run of word characters at the end is the word, and before it there is a blank.
  have solid : Solid ((trimEnd text).reverse.takeWhile fun c => !isBlank c) := fun c member => by
    simpa using List.mem_takeWhile_imp member
  have stopped := List.head?_dropWhile_not (fun c => !isBlank c) (trimEnd text).reverse
  have whole := List.takeWhile_append_dropWhile (p := fun c => !isBlank c)
    (l := (trimEnd text).reverse)
  generalize (trimEnd text).reverse.takeWhile (fun c => !isBlank c) = back at solid whole
  generalize (trimEnd text).reverse.dropWhile (fun c => !isBlank c) = front at stopped whole
  have parts : trimEnd text = front.reverse ++ back.reverse := by
    rw [← List.reverse_append, whole, List.reverse_reverse]
  -- Without a word at the end there would be nothing but blanks.
  have nonempty : back ≠ [] := by
    rintro rfl
    rw [List.reverse_nil, List.append_nil] at parts
    have nothing : front = [] := by
      cases front with
      | nil => rfl
      | cons c rest =>
        have final : (trimEnd text).getLast? = some c := by
          rw [parts, List.getLast?_reverse, List.head?_cons]
        simp [not_isBlank_of_getLast?_trimEnd final] at stopped
    have none' := trimEnd_append_trailing text
    rw [parts, nothing, List.reverse_nil, List.nil_append] at none'
    rw [← none', words_blank fun c => isBlank_of_mem_trailing] at last
    cases last
  have found : LastWord text front.reverse back.reverse (trailing text) :=
    ⟨by rw [← parts, trimEnd_append_trailing], by simpa using nonempty,
      fun c member => solid c (List.mem_reverse.1 member), fun c final => by
        rw [List.getLast?_reverse] at final
        rw [final] at stopped
        simpa using stopped, fun c => isBlank_of_mem_trailing⟩
  rw [found.words, List.getLast?_concat, Option.some.injEq] at last
  exact ⟨_, _, last ▸ found⟩

/-- The last word of what a text becomes is what its own last word becomes. -/
theorem Rewording.lastWord_back {change : Bool → Text → Text} (rewording : Rewording change)
    {spaced : Bool} {text front word tail : Text}
    (last : LastWord (reword change spaced text) front word tail) :
    ∃ front' word', LastWord text front' word' tail ∧ front = reword change spaced front' ∧
      word = change (front'.getLast?.elim spaced (· == ' ')) word' := by
  -- A text without words stays as it is.
  have some' : words text ≠ [] := by
    intro nothing
    have blank : ∀ c ∈ text, isBlank c := blank_of_words nothing
    rw [rewording.reword_blanks blank] at last
    exact last.words_ne_nil nothing
  obtain ⟨front', tail', last'⟩ := exists_lastWord (List.getLast?_eq_some_getLast some')
  obtain ⟨rfl, rfl, rfl⟩ := last.unique (last'.reword rewording spaced)
  exact ⟨front', _, last', rfl, rfl⟩

/-- A word stands at most once behind given words. -/
theorem front_unique {word front back front' back' : Text} (nonempty : word ≠ [])
    (solid : Solid word) (apart : ∀ c, front.getLast? = some c → isBlank c)
    (apart' : ∀ c, front'.getLast? = some c → isBlank c) (same : words front = words front')
    (whole : front ++ (word ++ back) = front' ++ (word ++ back')) : front = front' := by
  -- The longer of the two would hold a word more.
  have shorter {front more back back' : Text} (apart : ∀ c, front.getLast? = some c → isBlank c)
      (same : words front = words (front ++ more))
      (whole : word ++ back = more ++ (word ++ back')) : more = [] := by
    -- What is more in the longer front holds no word, so that it is blank.
    have none' : words more = [] := by
      rcases List.eq_nil_or_concat front with rfl | ⟨before, c, rfl⟩
      · simpa using same.symm
      · rw [List.concat_eq_append] at apart same
        have blank := apart c List.getLast?_concat
        rw [List.append_assoc, List.singleton_append, words_append_cons blank,
          words_append_cons blank, words_nil] at same
        exact (List.append_cancel_left same).symm
    cases more with
    | nil => rfl
    | cons c others =>
      obtain ⟨d, rest, rfl⟩ := List.exists_cons_of_ne_nil nonempty
      rw [List.cons_append, List.cons_append, List.cons.injEq] at whole
      have blank := blank_of_words none' c (by simp)
      rw [← whole.1, solid d (by simp)] at blank
      cases blank
  -- Either of both fronts is the beginning of the other.
  rcases List.append_eq_append_iff.1 whole with ⟨more, rfl, behind⟩ | ⟨more, rfl, behind⟩
  · rw [shorter apart same behind, List.append_nil]
  · rw [shorter apart' same.symm behind, List.append_nil]

end Smali.Text
