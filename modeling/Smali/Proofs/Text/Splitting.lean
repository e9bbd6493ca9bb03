import Smali.Proofs.Text.Blank

/-! A text is split where a separator stands first, and words may keep a separator away. -/

namespace Smali.Text

/-- A text holds another one exactly if that is a part of it. -/
theorem contains_iff {needle text : Text} : contains needle text ↔ needle <:+: text := by
  -- The part starts with the first character or behind it.
  induction text with
  | nil => simp [contains]
  | cons c rest ih =>
    rw [contains, Bool.or_eq_true, List.isPrefixOf_iff_prefix, ih, List.infix_cons_iff]

/-- What follows a beginning makes up the text together with it. -/
theorem afterPrefix?_eq_some {beginning text rest : Text} :
    afterPrefix? beginning text = some rest ↔ text = beginning ++ rest := by
  -- As many characters as the beginning has are dropped.
  unfold afterPrefix?
  constructor
  · intro found
    split at found
    · next fits =>
      obtain ⟨behind, rfl⟩ := List.isPrefixOf_iff_prefix.1 fits
      rw [List.drop_left, Option.some.injEq] at found
      rw [found]
    · cases found
  · rintro rfl
    rw [if_pos (List.isPrefixOf_iff_prefix.2 (List.prefix_append beginning rest)),
      List.drop_left]

/-- A beginning is taken away character by character. -/
theorem afterPrefix?_cons (c d : Char) (beginning text : Text) :
    afterPrefix? (c :: beginning) (d :: text) =
      if c = d then afterPrefix? beginning text else none := by
  -- The first characters have to agree.
  unfold afterPrefix?
  by_cases same : c = d
  · simp [same, List.isPrefixOf]
  · simp [same, List.isPrefixOf]

/-- A text is split at its start if the separator stands there. -/
theorem splitOnce_cons (separator : Text) (c : Char) (rest : Text) :
    splitOnce separator (c :: rest) = match afterPrefix? separator (c :: rest) with
      | some behind => some ([], behind)
      | none => (splitOnce separator rest).map fun (before, after) => (c :: before, after) := by
  -- Otherwise the first character passes to the front.
  rw [splitOnce, afterPrefix?]
  split <;> rfl

/-- A character at which the separator does not stand passes to the front. -/
theorem splitOnce_other {separator : Text} {c : Char} {rest : Text}
    (absent : ¬ separator <+: c :: rest) : splitOnce separator (c :: rest) =
      (splitOnce separator rest).map fun (before, after) => (c :: before, after) := by
  -- The separator is looked for behind it.
  rw [splitOnce, if_neg (by rwa [List.isPrefixOf_iff_prefix])]

/-- A separator is looked for only behind a front, whatever follows it. -/
def Passes (separator front : Text) : Prop :=
  -- The front goes to what stands before the separator.
  ∀ text, splitOnce separator (front ++ text) =
    (splitOnce separator text).map fun (before, after) => (front ++ before, after)

/-- A front without the first character of a separator is passed over. -/
theorem splitOnce_front {c : Char} {front : Text} (absent : c ∉ front) (separator : Text) :
    Passes (c :: separator) front := fun text => by
  -- The separator fits nowhere in it.
  induction front with
  | nil => simp
  | cons d rest ih =>
    have other : c ≠ d := fun same => absent (by simp [same])
    rw [List.cons_append, splitOnce_cons, afterPrefix?_cons, if_neg other,
      ih fun member => absent (by simp [member]), Option.map_map]
    rfl

/-- What a split gives makes up the text, with the separator in between. -/
theorem eq_of_splitOnce {separator text before after : Text}
    (split : splitOnce separator text = some (before, after)) :
    text = before ++ separator ++ after := by
  -- Characters pass to the front until the separator fits.
  induction text generalizing before with
  | nil =>
    simp only [splitOnce] at split
    split at split
    · next empty =>
      cases split
      simpa using empty
    · simp at split
  | cons c rest ih =>
    simp only [splitOnce] at split
    split at split
    · next fits =>
      cases split
      exact (List.prefix_iff_eq_append.1 (List.isPrefixOf_iff_prefix.1 fits)).symm
    · obtain ⟨⟨front, back⟩, inner, same⟩ := Option.map_eq_some_iff.1 split
      cases same
      rw [ih inner]
      rfl

/-- What stands before the first separator does not hold it. -/
theorem not_infix_of_splitOnce {separator text before after : Text} (nonempty : separator ≠ [])
    (split : splitOnce separator text = some (before, after)) : ¬ separator <:+: before := by
  -- It would have been found earlier.
  induction text generalizing before with
  | nil =>
    simp only [splitOnce] at split
    split at split
    · next empty => exact absurd (List.isEmpty_iff.1 empty) nonempty
    · cases split
  | cons c rest ih =>
    have whole := eq_of_splitOnce split
    rw [splitOnce] at split
    split at split
    · cases split
      rwa [List.infix_nil]
    · next absent =>
      rw [List.isPrefixOf_iff_prefix] at absent
      obtain ⟨⟨front, back⟩, inner, same⟩ := Option.map_eq_some_iff.1 split
      obtain ⟨rfl, rfl⟩ := Prod.mk.inj same
      rintro inside
      -- At the first character the separator would have stopped the search.
      rcases List.infix_cons_iff.1 inside with beginning | later
      · refine absent (beginning.trans ?_)
        rw [whole, List.append_assoc]
        exact List.prefix_append _ _
      · exact ih inner later

/-- A text that holds the separator is split. -/
theorem exists_splitOnce {separator text : Text} (held : separator <:+: text) :
    ∃ before after, splitOnce separator text = some (before, after) := by
  -- It stands at the start or behind the first character.
  induction text with
  | nil =>
    have nothing : separator = [] := List.infix_nil.1 held
    exact ⟨[], [], by simp [splitOnce, nothing]⟩
  | cons c rest ih =>
    rw [splitOnce]
    split
    · exact ⟨_, _, rfl⟩
    · next other =>
      rw [List.isPrefixOf_iff_prefix] at other
      obtain ⟨before, after, split⟩ := ih ((List.infix_cons_iff.1 held).resolve_left other)
      exact ⟨c :: before, after, by rw [split]; rfl⟩

/-- Behind a part of what stands before the separator, a text is split at the same place. -/
theorem splitOnce_suffix {separator front text before after : Text}
    (split : splitOnce separator (front ++ text) = some (front ++ before, after)) :
    splitOnce separator text = some (before, after) := by
  -- The characters of the part are passed over.
  induction front with
  | nil => exact split
  | cons c rest ih =>
    rw [List.cons_append, splitOnce] at split
    split at split
    · cases split
    · obtain ⟨⟨front, back⟩, inner, same⟩ := Option.map_eq_some_iff.1 split
      obtain ⟨same', rfl⟩ := Prod.mk.inj same
      rw [List.cons_append, List.cons_inj_right] at same'
      exact ih (by rw [inner, same'])

/-- A text with the separator behind a beginning in which it never starts is split there. -/
theorem splitOnce_append {separator : Text} (nonempty : separator ≠ []) (front back : Text)
    (first : ∀ left right, front = left ++ right → right ≠ [] →
      ¬ separator <+: right ++ separator ++ back) :
    splitOnce separator (front ++ separator ++ back) = some (front, back) := by
  -- The beginning is passed over character by character.
  induction front with
  | nil =>
    obtain ⟨c, rest, rfl⟩ := List.exists_cons_of_ne_nil nonempty
    have fits : (c :: rest).isPrefixOf (c :: (rest ++ back)) :=
      List.isPrefixOf_iff_prefix.2 (List.prefix_append (c :: rest) back)
    simp only [List.nil_append, List.cons_append, splitOnce, fits, if_true]
    rw [← List.cons_append, List.drop_left]
  | cons c rest ih =>
    have here : ¬ separator.isPrefixOf (c :: (rest ++ (separator ++ back))) := by
      rw [List.isPrefixOf_iff_prefix]
      simpa using first [] (c :: rest) rfl (by simp)
    have others := ih fun left right whole =>
      first (c :: left) right (by simp [whole])
    simp only [List.cons_append, List.append_assoc, splitOnce, here] at others ⊢
    simp [others]

/-- A text in which the separator never starts is not split. -/
theorem splitOnce_none {separator text : Text}
    (never : ∀ left right, text = left ++ right → ¬ separator <+: right) :
    splitOnce separator text = none := by
  -- No position fits.
  rw [Option.eq_none_iff_forall_ne_some]
  rintro ⟨before, after⟩ split
  have whole := eq_of_splitOnce split
  exact never before (separator ++ after) (by rw [whole, List.append_assoc])
    (List.prefix_append separator after)

/-- A text is split at the first place of a character. -/
theorem splitOnce_char {c : Char} {front : Text} (absent : c ∉ front) (back : Text) :
    splitOnce [c] (front ++ c :: back) = some (front, back) := by
  -- The beginning does not hold the character.
  have split : splitOnce [c] (front ++ [c] ++ back) = some (front, back) :=
    splitOnce_append (by simp) front back fun left right whole nonempty beginning => by
      obtain ⟨d, rest, rfl⟩ := List.exists_cons_of_ne_nil nonempty
      rw [List.cons_append, List.cons_append, List.cons_prefix_cons] at beginning
      exact absent (by simp [whole, beginning.1])
  simpa using split

/-- The beginning that is split off at a character does not hold it. -/
theorem not_mem_of_splitOnce {c : Char} {text before after : Text}
    (split : splitOnce [c] text = some (before, after)) : c ∉ before := by
  -- A character that passes to the front is another one.
  induction text generalizing before with
  | nil => simp [splitOnce] at split
  | cons d rest ih =>
    simp only [splitOnce] at split
    split at split
    · cases split
      simp
    · next other =>
      obtain ⟨⟨front, back⟩, inner, same⟩ := Option.map_eq_some_iff.1 split
      cases same
      have distinct : c ≠ d := by simpa using other
      simp [distinct, ih inner]

/-- An equals sign between spaces that stands in a text is one of its words. -/
theorem equals_mem_words (front back : Text) :
    ['='] ∈ words (front ++ " = ".toList ++ back) := by
  -- The spaces keep it apart from the words around it.
  have word : words ['='] = [['=']] := words_of_solid (by simp) (by decide)
  have whole : front ++ " = ".toList ++ back = front ++ ' ' :: (['='] ++ ' ' :: back) := by simp
  rw [whole, words_append_cons (by decide), words_append_cons (by decide),
    word]
  simp

/-- An equals sign between spaces splits a text behind words that are no equals sign. -/
theorem splitOnce_equals {front : Text} (noWord : ['='] ∉ words front) (back : Text) :
    splitOnce " = ".toList (front ++ " = ".toList ++ back) = some (front, back) := by
  -- An earlier place would make a word of an equals sign before it.
  refine splitOnce_append (by decide) front back fun left right whole nonempty beginning => ?_
  subst whole
  have spaced : " = ".toList = [' ', '=', ' '] := rfl
  match right, nonempty with
  -- The place is one before the true one, where a blank would have to be an equals sign.
  | [c], _ =>
    simp [spaced] at beginning
  -- The place is two before, so that the front ends with a word of the equals sign.
  | [c, d], _ =>
    simp only [spaced, List.cons_append, List.nil_append, List.cons_prefix_cons] at beginning
    obtain ⟨rfl, rfl, -⟩ := beginning
    refine noWord ?_
    have word : words ['='] = [['=']] := words_of_solid (by simp) (by decide)
    rw [words_append_cons (by decide), word]
    simp
  -- The place is farther before, so that the word stands between blanks.
  | c :: d :: e :: rest, _ =>
    simp only [spaced, List.cons_append, List.cons_prefix_cons] at beginning
    obtain ⟨rfl, rfl, rfl, -⟩ := beginning
    have member := equals_mem_words left rest
    rw [spaced, List.append_assoc] at member
    exact noWord member

/-- A text of which no word is an equals sign is not split at one. -/
theorem splitOnce_equals_none {text : Text} (noWord : ['='] ∉ words text) :
    splitOnce " = ".toList text = none := by
  -- The place would make a word of it.
  refine splitOnce_none fun left right whole beginning => ?_
  obtain ⟨rest, rfl⟩ := beginning
  rw [whole, ← List.append_assoc] at noWord
  exact noWord (equals_mem_words left rest)

/-- A word more is joined behind a space. -/
theorem intercalate_append {front : List Text} (nonempty : front ≠ []) (word : Text)
    (back : List Text) : [' '].intercalate (front ++ word :: back) =
      [' '].intercalate front ++ ' ' :: [' '].intercalate (word :: back) := by
  -- Words are joined from the front.
  induction front with
  | nil => exact absurd rfl nonempty
  | cons first rest ih =>
    cases rest with
    | nil => simp [List.intercalate_cons_cons]
    | cons second rest =>
      have others := ih (by simp)
      simp only [List.cons_append, List.intercalate_cons_cons] at others ⊢
      rw [others]
      simp

/-- Two texts that are parted at their first characters of one kind are alike only if their parts
are. -/
theorem eq_of_first {c : Char} {front front' back back' : Text} (absent : c ∉ front)
    (absent' : c ∉ front') (same : front ++ c :: back = front' ++ c :: back') :
    front = front' ∧ back = back' := by
  -- Both are split at the first one.
  have split := splitOnce_char absent back
  rw [same, splitOnce_char absent' back', Option.some.injEq, Prod.mk.injEq] at split
  exact ⟨split.1.symm, split.2.symm⟩

/-- Words joined by spaces begin with the first character of the first one. -/
theorem head?_intercalate {first : Text} (nonempty : first ≠ []) (rest : List Text) :
    ([' '].intercalate (first :: rest)).head? = first.head? := by
  -- The first word stands in front.
  obtain ⟨c, others, rfl⟩ := List.exists_cons_of_ne_nil nonempty
  cases rest with
  | nil => simp
  | cons second rest => simp [List.intercalate_cons_cons]

/-- Words joined by spaces end with the last character of the last one. -/
theorem getLast?_intercalate {last : Text} (nonempty : last ≠ []) (front : List Text) :
    ([' '].intercalate (front ++ [last])).getLast? = last.getLast? := by
  -- The last word stands at the end.
  obtain ⟨before, c, rfl⟩ := (List.eq_nil_or_concat last).resolve_left nonempty
  rw [List.concat_eq_append]
  cases front with
  | nil => rw [List.nil_append, List.intercalate_singleton]
  | cons first rest =>
    rw [intercalate_append (List.cons_ne_nil first rest), List.intercalate_singleton,
      ← List.cons_append, ← List.append_assoc, List.getLast?_concat, List.getLast?_concat]

/-- Words joined by spaces hold spaces and the characters of the words. -/
theorem mem_intercalate {parts : List Text} {c : Char} (member : c ∈ [' '].intercalate parts) :
    c = ' ' ∨ ∃ part ∈ parts, c ∈ part := by
  -- Each space ends the word before it.
  induction parts with
  | nil => simp at member
  | cons first rest ih =>
    cases rest with
    | nil => exact .inr ⟨first, by simp, by simpa using member⟩
    | cons second rest =>
      rw [List.intercalate_cons_cons, List.append_assoc, List.mem_append, List.mem_append,
        List.mem_singleton] at member
      rcases member with inside | space | inside
      · exact .inr ⟨first, by simp, inside⟩
      · exact .inl space
      · exact (ih inside).imp_right fun ⟨part, among, inside⟩ =>
          ⟨part, List.mem_cons_of_mem _ among, inside⟩

/-- Words joined by spaces are on one line. -/
theorem open_intercalate {parts : List Text}
    (solid : ∀ part ∈ parts, ∀ c ∈ part, isBlank c = false) : '\n' ∉ [' '].intercalate parts := by
  -- Words have no blanks.
  intro feed
  rcases mem_intercalate feed with space | ⟨part, among, inside⟩
  · exact absurd space (by decide)
  · exact absurd (solid part among _ inside) (by decide)

/-- A text is cut behind the last of its characters of a kind. -/
theorem exists_last {kind : Char → Bool} {text : Text} {c : Char} (member : c ∈ text)
    (here : kind c) : ∃ front last back, text = front ++ last :: back ∧ kind last ∧
      ∀ d ∈ back, kind d = false := by
  -- It is the first one from the end.
  have found : (text.reverse.find? kind).isSome :=
    List.find?_isSome.2 ⟨c, List.mem_reverse.2 member, here⟩
  obtain ⟨last, same⟩ := Option.isSome_iff_exists.1 found
  obtain ⟨kind', back, front, whole, others⟩ := List.find?_eq_some_iff_append.1 same
  refine ⟨front.reverse, last, back.reverse, ?_, kind', fun d inside => ?_⟩
  · rw [← List.reverse_reverse text, whole]
    simp
  · simpa using others d (List.mem_reverse.1 inside)

end Smali.Text
