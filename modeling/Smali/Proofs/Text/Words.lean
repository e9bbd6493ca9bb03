import Smali.Proofs.Text.Replace
import Smali.Proofs.Text.Rewording

/-! Replacing a text without blanks, with or without a space before it, changes words one by one. -/

namespace Smali.Text

/-- Changing words twice is changing them once by both changes. -/
theorem reword_reword {before after : Bool → Text → Text} (first : Rewording before)
    (spaced : Bool) (text : Text) : reword after spaced (reword before spaced text) =
      reword (fun spaced word => after spaced (before spaced word)) spaced text := by
  -- Words stay words in between.
  induction text using word_induct generalizing spaced with
  | word text solid =>
    rw [reword_solid _ _ solid, reword_solid _ _ solid, reword_solid _ _ (first.solid solid)]
  | more front c rest solid blank ih =>
    rw [reword_append_cons _ _ solid blank, reword_append_cons _ _ solid blank,
      reword_append_cons _ _ (first.solid solid) blank, ih]

/-- Changing words twice leaves words without signs alone if each time does. -/
theorem Rewording.comp {before after : Bool → Text → Text} (first : Rewording before)
    (second : Rewording after) :
    Rewording fun spaced word => after spaced (before spaced word) where
  -- A word that comes to be without signs was so in between.
  nil spaced := by rw [first.nil, second.nil]
  ne_nil some' := second.ne_nil (first.ne_nil some')
  solid solid := second.solid (first.solid solid)
  kept unsigned := by rw [first.kept unsigned, second.kept unsigned]
  back unsigned := by
    have between := second.back unsigned
    rw [between] at unsigned ⊢
    exact first.back unsigned

variable {old new : Text}

/-- A text without blanks is replaced word by word. -/
theorem replace_eq_reword (nonempty : old ≠ []) (solid : Solid old) (spaced : Bool)
    (text : Text) : replace old new text = reword (fun _ => replace old new) spaced text := by
  -- No occurrence holds the blanks between the words.
  induction text using word_induct generalizing spaced with
  | word text whole => rw [reword_solid _ _ whole]
  | more front c rest whole blank ih =>
    have other : c ∉ old := fun member => by simp [solid c member] at blank
    rw [reword_append_cons _ _ whole blank, replace_append_cons nonempty other, ih]

/-- Replacing leaves words without signs alone if all that is replaced has signs, before and
afterwards. -/
theorem rewording_replace (nonempty : old ≠ []) (nonempty' : new ≠ []) (solid : Solid new)
    (signed : ∀ text, old <:+: text → ¬ Unsigned text)
    (signed' : ∀ text, new <:+: text → ¬ Unsigned text) :
    Rewording fun _ => replace old new where
  -- A word with an occurrence has signs before and afterwards.
  nil _ := replace_nil old new
  ne_nil {_ word} some' nothing := by
    by_cases held : old <:+: word
    · have inside : new <:+: replace old new word := infix_replace nonempty held
      rw [nothing, List.infix_nil] at inside
      exact nonempty' inside
    · rw [replace_absent nonempty held] at nothing
      exact some' nothing
  solid {_ word} whole c member := (mem_of_mem_replace nonempty member).elim (whole c) (solid c)
  kept unsigned := replace_absent nonempty fun held => signed _ held unsigned
  back {_ word} unsigned := by
    by_cases held : old <:+: word
    · exact absurd unsigned (signed' _ (infix_replace nonempty held))
    · exact replace_absent nonempty held

/-- Replaces the beginning of a word that stands behind a space. -/
def replaceSpaced (old new : Text) (spaced : Bool) (word : Text) : Text :=
  -- Behind other blanks, and inside words, nothing is replaced.
  if spaced ∧ old <+: word then new ++ word.drop old.length else word

/-- Behind a space, the beginning of a word is replaced. -/
theorem replaceSpaced_append (old new rest : Text) :
    replaceSpaced old new true (old ++ rest) = new ++ rest := by
  -- The rest of the word stays.
  simp [replaceSpaced]

/-- A word with another beginning, or not behind a space, stays. -/
theorem replaceSpaced_other {spaced : Bool} {word : Text} (other : ¬ (spaced ∧ old <+: word)) :
    replaceSpaced old new spaced word = word := by
  -- There is nothing to replace.
  rw [replaceSpaced, if_neg other]

/-- A text without blanks that begins another one begins its first word. -/
theorem prefix_of_solid (solid : Solid old) {front rest : Text} (after : AfterWord rest) :
    old <+: front ++ rest ↔ old <+: front := by
  -- It does not reach the blank.
  refine ⟨fun ⟨behind, whole⟩ => ?_, fun beginning => beginning.trans (List.prefix_append ..)⟩
  rcases List.append_eq_append_iff.1 whole with ⟨more, rfl, -⟩ | ⟨more, rfl, rfl⟩
  · exact List.prefix_append old more
  · cases more with
    | nil => simp
    | cons c others =>
      have blank : isBlank c := after c rfl
      rw [solid c (by simp)] at blank
      cases blank

/-- A text behind a space is looked for only behind a word. -/
theorem replace_space_append {word : Text} (solid : Solid word) (rest : Text) :
    replace (' ' :: old) (' ' :: new) (word ++ rest) =
      word ++ replace (' ' :: old) (' ' :: new) rest := by
  -- The word has no space.
  have noSpace : ' ' ∉ word := fun member => absurd (solid ' ' member) (by decide)
  have apart : Apart (' ' :: old) word rest := by
    rintro first second some' - whole ⟨inside, -⟩
    obtain ⟨c, others, rfl⟩ := List.exists_cons_of_ne_nil some'
    rw [List.cons_append, List.cons.injEq] at whole
    exact noSpace (whole.1 ▸ inside.subset (by simp))
  rw [replace_append (by simp) apart, replace_eq_self (c := ' ') (by simp) noSpace]

/-- A text is replaced behind spaces exactly where a word behind a space begins with it, also if the
whole text stands behind a space. -/
theorem replace_space (solid : Solid old) (text : Text) :
    replace (' ' :: old) (' ' :: new) text = reword (replaceSpaced old new) false text ∧
      replace (' ' :: old) (' ' :: new) (' ' :: text) =
        ' ' :: reword (replaceSpaced old new) true text := by
  -- The blank before a word tells which half of the statement is needed for it.
  have kept (word : Text) : replaceSpaced old new false word = word :=
    replaceSpaced_other (by simp)
  -- Behind a space the token is replaced at the beginning of a word alone.
  have single {front rest after : Text} (whole : Solid front) (blank : AfterWord rest)
      (same : replace (' ' :: old) (' ' :: new) rest = after) :
      replace (' ' :: old) (' ' :: new) (' ' :: (front ++ rest)) =
        ' ' :: (replaceSpaced old new true front ++ after) := by
    by_cases here : old <+: front
    · obtain ⟨others, rfl⟩ := here
      have whole' : Solid others := fun c member => whole c (List.mem_append_right old member)
      rw [List.append_assoc, ← List.cons_append, replace_found (by simp),
        replace_space_append whole', same, replaceSpaced_append]
      simp
    · have absent : ¬ ' ' :: old <+: ' ' :: (front ++ rest) := by
        rwa [List.prefix_cons_inj, prefix_of_solid solid blank]
      rw [replace_other absent, replace_space_append whole, same,
        replaceSpaced_other (by simp [here])]
  induction text using word_induct with
  | word text whole =>
    constructor
    · have first : replace (' ' :: old) (' ' :: new) (text ++ []) = _ :=
        replace_space_append whole []
      rw [List.append_nil, replace_nil, List.append_nil] at first
      rw [first, reword_solid _ _ whole, kept]
    · have second := single whole afterWord_nil rfl
      rw [replace_nil, List.append_nil, List.append_nil] at second
      rw [second, reword_solid _ _ whole]
  | more front c rest whole blank ih =>
    -- The blank is a space or it is not, and what follows it is read accordingly.
    have behind : replace (' ' :: old) (' ' :: new) (c :: rest) =
        c :: reword (replaceSpaced old new) (c == ' ') rest := by
      by_cases space : c = ' '
      · rw [space]
        exact ih.2
      · have other : (c == ' ') = false := by simpa using space
        rw [replace_cons (show (' ' :: old).head? = some ' ' from rfl) space, ih.1, other]
    rw [reword_append_cons _ _ whole blank, reword_append_cons _ _ whole blank, kept]
    exact ⟨by rw [replace_space_append whole, behind],
      single whole (afterWord_cons blank rest) behind⟩

/-- Replacing the beginnings of words behind spaces leaves words without signs alone if all that is
replaced has signs, before and afterwards. -/
theorem rewording_replaceSpaced (nonempty : old ≠ []) (nonempty' : new ≠ []) (solid : Solid new)
    (signed : ∀ text, old <:+: text → ¬ Unsigned text)
    (signed' : ∀ text, new <:+: text → ¬ Unsigned text) :
    Rewording (replaceSpaced old new) where
  -- A word that is replaced has signs before and afterwards.
  nil _ := replaceSpaced_other (by simp [nonempty])
  ne_nil some' := by
    unfold replaceSpaced
    split
    · simp [nonempty']
    · exact some'
  solid {_ word} whole := by
    unfold replaceSpaced
    split
    · intro c member
      exact (List.mem_append.1 member).elim (solid c) fun inside =>
        whole c (List.mem_of_mem_drop inside)
    · exact whole
  kept unsigned := replaceSpaced_other fun both => signed _ both.2.isInfix unsigned
  back {_ word} unsigned := by
    unfold replaceSpaced at unsigned ⊢
    split at unsigned
    · exact absurd unsigned (signed' _ (List.prefix_append new _).isInfix)
    · next other => rw [if_neg other]

end Smali.Text
