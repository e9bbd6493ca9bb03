import Smali.Text.Comment
import Smali.Proofs.Text.Blank
import Smali.Proofs.Text.Replace

/-! Replacing one class by another leaves the marks of a text where they are. -/

namespace Smali

namespace Descriptor

/-- A blank, or a character that sets the parts of a class text apart. -/
def isMark (c : Char) : Bool :=
  -- The semicolon is left out because descriptors end with it.
  Text.isBlank c || ":()\"#\\=>".toList.contains c

/-- A class descriptor with no mark and no other semicolon in its name. -/
def IsPlain (descriptor : Text) : Prop :=
  -- All names made of letters, digits and the signs between packages are such.
  ∃ name, descriptor = 'L' :: name ++ [';'] ∧ name ≠ [] ∧
    ∀ c ∈ name, isMark c = false ∧ c ≠ ';'

namespace IsPlain

variable {descriptor : Text}

/-- A plain descriptor is not empty. -/
theorem ne_nil (plain : IsPlain descriptor) : descriptor ≠ [] := by
  -- It has a first character.
  obtain ⟨name, rfl, -⟩ := plain
  simp

/-- A plain descriptor begins with its letter. -/
theorem head?_eq (plain : IsPlain descriptor) : descriptor.head? = some 'L' := by
  -- The name follows it.
  obtain ⟨name, rfl, -⟩ := plain
  rfl

/-- A plain descriptor ends with its semicolon. -/
theorem getLast?_eq (plain : IsPlain descriptor) : descriptor.getLast? = some ';' := by
  -- The name stands before it.
  obtain ⟨name, rfl, -⟩ := plain
  exact List.getLast?_concat

/-- A plain descriptor holds no mark. -/
theorem not_mem (plain : IsPlain descriptor) {c : Char} (mark : isMark c) : c ∉ descriptor := by
  -- Neither the letter nor the semicolon is one.
  obtain ⟨name, rfl, -, solid⟩ := plain
  intro member
  simp only [List.cons_append, List.mem_cons, List.mem_append, List.not_mem_nil, or_false]
    at member
  rcases member with rfl | member | rfl
  · exact absurd mark (by decide)
  · rw [(solid c member).1] at mark
    exact absurd mark (by decide)
  · exact absurd mark (by decide)

/-- A plain descriptor has its only semicolon at the end. -/
theorem semicolon_not_mem (plain : IsPlain descriptor) : ';' ∉ descriptor.dropLast := by
  -- The name holds none.
  obtain ⟨name, rfl, -, solid⟩ := plain
  rw [List.dropLast_concat]
  intro member
  rcases List.mem_cons.1 member with absurd' | member
  · exact absurd absurd' (by decide)
  · exact (solid _ member).2 rfl

/-- A plain descriptor has three characters at least. -/
theorem long (plain : IsPlain descriptor) : 3 ≤ Text.byteLength descriptor := by
  -- The name has one.
  obtain ⟨name, rfl, nonempty, -⟩ := plain
  obtain ⟨c, rest, rfl⟩ := List.exists_cons_of_ne_nil nonempty
  have width := c.utf8Size_pos
  have ends : 'L'.utf8Size = 1 ∧ ';'.utf8Size = 1 := ⟨rfl, rfl⟩
  simp only [List.cons_append, Text.byteLength_cons, Text.byteLength_append]
  omega

end IsPlain

/-- The usual letters and digits are among the first characters. -/
theorem toNat_lt_of_isAlphanum {c : Char} (letter : c.isAlphanum) : c.toNat < 128 := by
  -- Small letters come last.
  delta Char.isAlphanum Char.isAlpha Char.isUpper Char.isLower Char.isDigit at letter
  simp only [Bool.or_eq_true, Bool.and_eq_true, decide_eq_true_eq, ge_iff_le,
    UInt32.le_iff_toNat_le] at letter
  have same : c.toNat = c.val.toNat := rfl
  have ends : 'Z'.val.toNat = 90 ∧ 'z'.val.toNat = 122 ∧ '9'.val.toNat = 57 := ⟨rfl, rfl, rfl⟩
  omega

/-- Letters, digits and the signs that join them make a plain name. -/
theorem isPlain_of_usual {name : Text} (nonempty : name ≠ [])
    (usual : ∀ c ∈ name, c.isAlphanum ∨ c ∈ "_$/-".toList) : IsPlain ('L' :: name ++ [';']) := by
  -- None of them is a mark or a semicolon.
  refine ⟨name, rfl, nonempty, fun c member => ?_⟩
  have letters : ∀ code < 128, (Char.ofNat code).isAlphanum →
      isMark (Char.ofNat code) = false ∧ Char.ofNat code ≠ ';' := by decide +kernel
  have signs : ∀ c ∈ "_$/-".toList, isMark c = false ∧ c ≠ ';' := by decide
  rcases usual c member with letter | sign
  · have here := letters c.toNat (toNat_lt_of_isAlphanum letter)
    rw [Char.ofNat_toNat] at here
    exact here letter
  · exact signs c sign

/-- A blank is a mark. -/
theorem isMark_of_isBlank {c : Char} (blank : Text.isBlank c) : isMark c := by
  -- Blanks come first.
  simp [isMark, blank]

end Descriptor

open Descriptor (IsPlain isMark isMark_of_isBlank)

/-- One class takes the name of another. -/
structure Renames (old new : Text) : Prop where
  /-- The old descriptor is plain. -/
  old : IsPlain old
  /-- The new descriptor is plain. -/
  new : IsPlain new

namespace Renames

variable {old new : Text}

/-- The first character of a text stays. -/
theorem head?_replace (renames : Renames old new) (text : Text) :
    (Text.replace old new text).head? = text.head? :=
  -- Both descriptors begin with the same letter.
  Text.head?_replace renames.old.head?_eq renames.new.head?_eq text

/-- The last character of a text stays. -/
theorem getLast?_replace (renames : Renames old new) (text : Text) :
    (Text.replace old new text).getLast? = text.getLast? := by
  -- Both descriptors end with a semicolon.
  induction text using Text.replace_induct renames.old.ne_nil with
  | nil => rfl
  | found rest ih =>
    rw [Text.replace_found renames.old.ne_nil, List.getLast?_append, List.getLast?_append,
      renames.old.getLast?_eq, renames.new.getLast?_eq, ih]
  | other c rest absent ih =>
    rw [Text.replace_other absent, List.getLast?_cons, List.getLast?_cons, ih]

/-- Only the empty text becomes empty. -/
@[simp] theorem replace_eq_nil (renames : Renames old new) {text : Text} :
    Text.replace old new text = [] ↔ text = [] := by
  -- A text with a first character keeps it.
  rw [← List.head?_eq_none_iff, renames.head?_replace, List.head?_eq_none_iff]

/-- Marks neither come nor go. -/
theorem mem_replace (renames : Renames old new) {c : Char} (mark : isMark c) (text : Text) :
    c ∈ Text.replace old new text ↔ c ∈ text := by
  -- Neither descriptor holds one.
  induction text using Text.replace_induct renames.old.ne_nil with
  | nil => rfl
  | found rest ih =>
    rw [Text.replace_found renames.old.ne_nil, List.mem_append, List.mem_append, ih]
    simp [renames.old.not_mem mark, renames.new.not_mem mark]
  | other d rest absent ih =>
    rw [Text.replace_other absent, List.mem_cons, List.mem_cons, ih]

/-- A mark parts what is replaced. -/
theorem replace_mark (renames : Renames old new) {c : Char} (mark : isMark c)
    (front back : Text) : Text.replace old new (front ++ c :: back) =
      Text.replace old new front ++ c :: Text.replace old new back := by
  -- No occurrence holds it.
  exact Text.replace_append_cons renames.old.ne_nil (renames.old.not_mem mark) front back

/-- A semicolon parts what is replaced, and belongs to what stands before it. -/
theorem replace_semicolon (renames : Renames old new) (front back : Text) :
    Text.replace old new (front ++ ';' :: back) =
      Text.replace old new (front ++ [';']) ++ Text.replace old new back := by
  -- An occurrence can only end with it.
  rw [← Text.replace_append renames.old.ne_nil
    (Text.apart_of_last renames.old.semicolon_not_mem)]
  simp

/-- Marks in front of a text are kept. -/
theorem replace_lead (renames : Renames old new) {lead : Text} (marks : ∀ c ∈ lead, isMark c)
    (text : Text) : Text.replace old new (lead ++ text) = lead ++ Text.replace old new text := by
  -- Each of them is kept.
  induction lead with
  | nil => rfl
  | cons c rest ih =>
    have rest' : ∀ d ∈ rest, isMark d := fun d member => marks d (by simp [member])
    have first := renames.replace_mark (marks c (by simp)) [] (rest ++ text)
    rw [List.cons_append, List.cons_append, ← ih rest']
    exact first

/-- Marks behind a text are kept. -/
theorem replace_tail (renames : Renames old new) {tail : Text} (marks : ∀ c ∈ tail, isMark c)
    (text : Text) : Text.replace old new (text ++ tail) = Text.replace old new text ++ tail := by
  -- The first of them parts the text from the others.
  cases tail with
  | nil => simp
  | cons c rest =>
    have rest' : ∀ d ∈ rest, isMark d := fun d member => marks d (by simp [member])
    have others := renames.replace_lead rest' []
    rw [List.append_nil, Text.replace_nil, List.append_nil] at others
    rw [renames.replace_mark (marks c (by simp)), others]

/-- Trimming the end and replacing do not interfere. -/
theorem trimEnd_replace (renames : Renames old new) (text : Text) :
    Text.trimEnd (Text.replace old new text) = Text.replace old new (Text.trimEnd text) := by
  -- What is left has the same last character.
  have whole := Text.trimEnd_append_trailing text
  have blank : ∀ c ∈ Text.trailing text, Text.isBlank c := fun c => Text.isBlank_of_mem_trailing
  conv => lhs; rw [← whole]
  rw [renames.replace_tail fun c member => isMark_of_isBlank (blank c member),
    Text.trimEnd_append blank]
  refine Text.trimEnd_eq_self fun c last => ?_
  rw [renames.getLast?_replace] at last
  exact Text.not_isBlank_of_getLast?_trimEnd last

/-- Trimming and replacing do not interfere. -/
theorem trim_replace (renames : Renames old new) (text : Text) :
    Text.trim (Text.replace old new text) = Text.replace old new (Text.trim text) := by
  -- What is left has the same first and last character.
  obtain ⟨lead, tail, blankLead, blankTail, whole⟩ := Text.exists_trim text
  conv => lhs; rw [whole]
  rw [renames.replace_tail fun c member => isMark_of_isBlank (blankTail c member),
    renames.replace_lead fun c member => isMark_of_isBlank (blankLead c member),
    Text.trim_append blankLead blankTail]
  refine Text.trim_eq_self (fun c first => ?_) fun c last => ?_
  · rw [renames.head?_replace] at first
    exact Text.not_isBlank_of_head?_trim first
  · rw [renames.getLast?_replace] at last
    exact Text.not_isBlank_of_getLast?_trimEnd last

/-- A text is cut at marks into what its pieces become. -/
theorem splitOnP_replace (renames : Renames old new) {cuts : Char → Bool}
    (marks : ∀ c, cuts c → isMark c) (text : Text) :
    (Text.replace old new text).splitOnP cuts =
      (text.splitOnP cuts).map (Text.replace old new) := by
  -- The first cut is taken before those behind it.
  have whole := List.takeWhile_append_dropWhile (p := fun c => !cuts c) (l := text)
  have solid : ∀ c ∈ text.takeWhile fun c => !cuts c, cuts c = false := fun c member => by
    simpa using List.all_eq_true.1 List.all_takeWhile c member
  cases rest : text.dropWhile fun c => !cuts c with
  -- Without a cut there is nothing to be cut in the new text either.
  | nil =>
    rw [rest, List.append_nil] at whole
    rw [whole] at solid
    rw [List.splitOnP_eq_singleton solid, List.splitOnP_eq_singleton, List.map_singleton]
    intro c member
    by_contra cut
    have cut' : cuts c := by simpa using cut
    exact cut (solid c ((renames.mem_replace (marks c cut') text).1 member))
  | cons c behind =>
    have cut : cuts c := by
      have stopped := List.head?_dropWhile_not (fun c => !cuts c) text
      rw [rest] at stopped
      simpa using stopped
    rw [rest] at whole
    have shorter : behind.length < text.length := by
      have total := congrArg List.length whole
      rw [List.length_append, List.length_cons] at total
      omega
    -- The new piece has no cut, because no mark gets into it.
    have solid' : ∀ d ∈ Text.replace old new (text.takeWhile fun c => !cuts c),
        cuts d = false := by
      intro d member
      by_contra cut'
      have cut'' : cuts d := by simpa using cut'
      exact cut' (solid d ((renames.mem_replace (marks d cut'') _).1 member))
    conv => lhs; rw [← whole]
    conv => rhs; rw [← whole]
    rw [renames.replace_mark (marks c cut), List.splitOnP_append_cons _ _ cut,
      List.splitOnP_append_cons _ _ cut, List.splitOnP_eq_singleton solid,
      List.splitOnP_eq_singleton solid', renames.splitOnP_replace marks behind]
    rfl
termination_by text.length

/-- No piece becomes empty or stops being so. -/
theorem filter_replace (renames : Renames old new) (pieces : List Text) :
    (pieces.map (Text.replace old new)).filter (fun word => !word.isEmpty) =
      (pieces.filter fun word => !word.isEmpty).map (Text.replace old new) := by
  -- Each piece is looked at for itself.
  have kept : (fun word : Text => !word.isEmpty) ∘ Text.replace old new =
      fun word : Text => !word.isEmpty := by
    funext word
    rw [Function.comp_apply, Bool.eq_iff_iff]
    simp [renames.replace_eq_nil]
  rw [List.filter_map, kept]

/-- The words of a text become what they become one by one. -/
theorem words_replace (renames : Renames old new) (text : Text) :
    Text.words (Text.replace old new text) = (Text.words text).map (Text.replace old new) := by
  -- No word comes or goes.
  rw [Text.words, renames.splitOnP_replace fun c => isMark_of_isBlank, renames.filter_replace]
  rfl

end Renames

end Smali
