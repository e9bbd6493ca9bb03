import Smali.Proofs.Method.Assignments
import Smali.Proofs.Method.PlainBody

/-! Building an array raises the first register count of a body, where nothing follows the count. -/

namespace Smali

namespace Text

/-- The number that a word says in decimal digits, or in hexadecimal digits behind their mark. -/
def number? (word : Text) : Option Nat :=
  -- Neither a sign nor a letter for the width may stand there.
  match Literal.afterHexMark? word with
  | some digits =>
    if !digits.isEmpty && digits.all isHexDigit then some (numberOf 16 digits) else none
  | none => if !word.isEmpty && word.all isDigit then some (numberOf 10 word) else none

/-- The first word of a text stands in front of nothing or of a blank and further words. -/
theorem exists_first_word {text word : Text} {others : List Text}
    (read : words text = word :: others) :
    ∃ behind, trim text = word ++ behind ∧ AfterWord behind ∧ (behind = [] ↔ others = []) := by
  -- The blanks at the ends hold no word, so the first word is the run at the start.
  obtain ⟨lead, tail, blankLead, blankTail, whole⟩ := exists_trim text
  rw [whole, words_append_tail blankTail, words_append_lead blankLead] at read
  have trimmed := trim_trim text
  generalize trim text = said at read trimmed
  have nonempty : said ≠ [] := by
    rintro rfl
    cases read
  obtain ⟨c, rest, rfl⟩ := List.exists_cons_of_ne_nil nonempty
  have solid := not_isBlank_of_trim_cons trimmed
  have run : Solid ((c :: rest).takeWhile fun c => !isBlank c) := fun d member => by
    simpa using List.mem_takeWhile_imp member
  have first : (c :: rest).takeWhile (fun c => !isBlank c) ≠ [] := by simp [solid]
  have parts := List.takeWhile_append_dropWhile (p := fun c => !isBlank c) (l := c :: rest)
  have stops := List.head?_dropWhile_not (fun c => !isBlank c) (c :: rest)
  generalize (c :: rest).takeWhile _ = front at run first parts
  generalize (c :: rest).dropWhile _ = back at parts stops
  rw [← parts] at read trimmed ⊢
  -- The run ends with the text or at a blank.
  cases back with
  | nil =>
    rw [List.append_nil, words_of_solid first run] at read
    obtain ⟨rfl, rfl⟩ := List.cons.inj read
    exact ⟨[], rfl, afterWord_nil, by simp⟩
  | cons d back =>
    have blank : isBlank d := by simpa using stops
    rw [words_append_cons blank, words_of_solid first run] at read
    obtain ⟨rfl, rfl⟩ := List.cons.inj read
    refine ⟨d :: back, rfl, afterWord_cons blank back, iff_of_false (by simp) fun nothing => ?_⟩
    -- Otherwise the text would end with a blank.
    obtain ⟨last, final⟩ := Option.isSome_iff_exists.1
      (List.getLast?_isSome.2 (List.cons_ne_nil d back))
    have ends : isBlank last = false := not_isBlank_of_trim trimmed (by
      rw [List.getLast?_append, final]
      rfl)
    have closes : isBlank last := by
      rcases List.mem_cons.1 (List.mem_of_getLast? final) with rfl | inside
      · exact blank
      · exact blank_of_words nothing last inside
    rw [ends] at closes
    cases closes

end Text

namespace Literal

/-- A blank is no letter for the width. -/
theorem skipWidth_afterWord {behind : Text} (after : Text.AfterWord behind) :
    skipWidth behind = behind := by
  -- The letters are not blank.
  cases behind with
  | nil => rfl
  | cons c rest =>
    have blank := after c rfl
    have other : isWidth c = false := by
      rw [← Bool.not_eq_true]
      intro width
      have known : c = 'L' ∨ c = 't' ∨ c = 's' := by
        simpa [isWidth, show "Lts".toList = ['L', 't', 's'] from rfl] using width
      rcases known with rfl | rfl | rfl <;> cases blank
    rw [skipWidth, other]
    rfl

/-- A magnitude without a sign is the whole number. -/
theorem splitInteger_of_unsigned {text behind : Text} {number : Nat}
    (taken : splitMagnitude text = some (number, behind)) (unsigned : ∀ rest, text ≠ '-' :: rest)
    (after : Text.AfterWord behind) :
    splitInteger text = some (Int64.ofNat number, behind) := by
  -- What stands behind it begins with no letter for the width.
  rw [splitInteger_unsigned unsigned, taken, Option.map_some]
  simp only [skipWidth_afterWord after]

/-- A word that says a number is read as it, and what stands behind the word is left. -/
theorem splitInteger_word {word behind : Text} {number : Nat}
    (said : Text.number? word = some number) (fits : number < 0x8000000000000000)
    (after : Text.AfterWord behind) :
    splitInteger (word ++ behind) = some (Int64.ofNat number, behind) := by
  -- No digit is blank, so the digits end with the word.
  unfold Text.number? at said
  cases marked : afterHexMark? word with
  -- The digits stand behind the mark, and a word of hexadecimal digits has the wider bound.
  | some digits =>
    simp only [marked, Option.ite_none_right_eq_some, Bool.and_eq_true, Bool.not_eq_true',
      List.isEmpty_eq_false_iff, List.all_eq_true, Option.some.injEq] at said
    obtain ⟨⟨nonempty, all⟩, rfl⟩ := said
    have wide : Text.numberOf 16 digits < 0x10000000000000000 := by omega
    have taken := splitNumber_append 16 0x10000000000000000 nonempty all
      fun c first => Text.isHexDigit_of_isBlank (after c first)
    rw [if_pos wide] at taken
    rcases afterHexMark?_eq_some.1 marked with rfl | rfl
    · exact splitInteger_of_unsigned (by simpa [splitMagnitude, afterHexMark?] using taken)
        (by simp) after
    · exact splitInteger_of_unsigned (by simpa [splitMagnitude, afterHexMark?] using taken)
        (by simp) after
  | none =>
    simp only [marked, Option.ite_none_right_eq_some, Bool.and_eq_true, Bool.not_eq_true',
      List.isEmpty_eq_false_iff, List.all_eq_true, Option.some.injEq] at said
    obtain ⟨⟨nonempty, all⟩, rfl⟩ := said
    have taken := splitNumber_append 10 0x8000000000000000 nonempty all
      fun c first => Text.isDigit_of_isBlank (after c first)
    rw [if_pos fits] at taken
    -- Without a mark the digits are not followed by one, since a blank follows them.
    have unmarked : ∀ c, behind.head? = some c → c ≠ 'x' ∧ c ≠ 'X' := by
      intro c first
      have blank := after c first
      constructor <;> rintro rfl <;> cases blank
    refine splitInteger_of_unsigned
      (by simpa only [splitMagnitude, afterHexMark?_of_digits nonempty all unmarked] using taken)
      (fun others same => ?_) after
    obtain ⟨c, rest, rfl⟩ := List.exists_cons_of_ne_nil nonempty
    have digit := all c (by simp)
    rw [(List.cons.inj same).1] at digit
    cases digit

end Literal

namespace ArrayBlock

/-- The directive for the number of registers that a line says. -/
def saidCount? (piece : Text) : Option Text :=
  -- The blanks around what the line says do not count.
  countDirectives.find? fun directive => Text.tells directive piece

/-- A line says a directive for the number of registers. -/
def counts (piece : Text) : Bool :=
  -- It does not have to give a number.
  (saidCount? piece).isSome

/-- The words that a line says behind a directive. -/
def wordsBehind (directive piece : Text) : List Text :=
  -- Comments are made of words, too.
  Text.words ((Text.trim piece).drop directive.length)

/-- The directive for the number of registers that a line says, and the number that the first word
behind it says. -/
def declared? (piece : Text) : Option (Text × Nat) := do
  -- Further words do not count.
  let directive ← saidCount? piece
  let word ← (wordsBehind directive piece).head?
  let number ← Text.number? word
  return (directive, number)

/-- A line says one word and no more behind a directive for the number of registers. -/
def countsAlone (piece : Text) : Bool :=
  -- A comment would be more.
  (saidCount? piece).any fun directive => (wordsBehind directive piece).length == 1

/-- A line as it is when its register count has been raised. -/
def raised (piece : Text) : Text :=
  -- The place of the line is left open.
  raiseCount registerCount (.ofPiece 0 0 piece)

/-- What a line opens with is what its piece says. -/
theorem countDirective?_ofPiece (number start : Nat) (piece : Text) :
    countDirective? (.ofPiece number start piece) = saidCount? piece := by
  -- Both directives end with a character that is not blank.
  refine List.find?_congr fun directive member => ?_
  rw [Line.opensWith_eq_opens _ (solid_countDirectives member), Line.trimmed_ofPiece]
  rfl

/-- A count is read where a number stands alone behind its directive. -/
theorem count?_of_declared {piece directive : Text} {number : Nat}
    (declared : declared? piece = some (directive, number)) (fits : number < 0x100000000) :
    saidCount? piece = some directive ∧ count? directive (.ofPiece 0 0 piece) =
      if countsAlone piece then some number else none := by
  -- The reader has to come to the end of the line.
  simp only [declared?, Option.bind_eq_bind, Option.bind_eq_some_iff, Option.pure_def,
    Option.some.injEq, Prod.mk.injEq] at declared
  obtain ⟨directive, said, word, first, number, value, rfl, rfl⟩ := declared
  refine ⟨said, ?_⟩
  obtain ⟨others, read⟩ := List.head?_eq_some_iff.1 first
  obtain ⟨behind, whole, after, alone⟩ := Text.exists_first_word read
  have taken := Literal.splitInteger_word value (by omega) after
  have exact' : (Int64.ofNat number).toInt = number := Int64.toInt_ofNat_of_lt (by omega)
  have least : ¬ ((number : Int) < 0) := by omega
  have most : ¬ (4294967296 ≤ (number : Int)) := by omega
  rw [count?, Line.trimmed_ofPiece, whole, taken]
  simp only [countsAlone, said, Option.any_some, read]
  cases others with
  | nil => simp [alone.2 rfl, exact', least, most]
  | cons other others =>
    have more : behind ≠ [] := fun nothing => by cases alone.1 nothing
    simp [more]

/-- Lines that say the same declare the same. -/
theorem declared?_congr {piece other : Text} (same : Text.trim piece = Text.trim other) :
    declared? piece = declared? other := by
  -- Only what a line says is looked at.
  simp only [declared?, saidCount?, wordsBehind, Text.tells, same]

/-- A directive with the least count behind it declares that. -/
theorem declared?_count {directive : Text} (member : directive ∈ countDirectives) :
    declared? (directive ++ ' ' :: Text.decimal registerCount) =
      some (directive, registerCount) := by
  -- There are two directives.
  rcases List.mem_cons.1 member with rfl | member
  · decide +kernel
  · rw [List.mem_singleton.1 member]
    decide +kernel

/-- A single line stays one when its register count is raised, and it is closed where it was. -/
theorem isPiece_raised {piece : Text} (single : Text.IsPiece piece) :
    Text.IsPiece (raised piece) ∧ (Text.Closed piece → Text.Closed (raised piece)) := by
  -- It is the only line of a text.
  have inside : Line.ofPiece 0 0 piece ∈ Text.lines piece := by
    rw [Text.lines, Text.pieces_of_isPiece single]
    exact List.mem_singleton_self _
  unfold raised
  rcases raiseCount_cases registerCount (.ofPiece 0 0 piece) with same | ⟨_, member, -, same⟩
  · rw [same, Line.piece_ofPiece]
    exact ⟨single, id⟩
  · obtain ⟨single', closed, -⟩ := raised_line inside member
    rw [Line.piece_ofPiece] at closed
    rw [same]
    exact ⟨single', closed⟩

/-- A line declares the least count or more exactly if there is enough. -/
theorem declared_kept {piece directive : Text} {number : Nat}
    (declared : declared? piece = some (directive, number)) :
    declared? piece = some (directive, max number registerCount) ↔ registerCount ≤ number := by
  -- The greater of the two numbers has to be the one that is declared.
  rw [declared, Option.some.injEq, Prod.mk.injEq]
  simp only [true_and]
  omega

/-- A raised line declares the least count or more exactly if there was enough or nothing stood
behind the count. -/
theorem declared_raised {piece directive : Text} {number : Nat} (single : Text.IsPiece piece)
    (declared : declared? piece = some (directive, number)) (fits : number < 0x100000000) :
    declared? (raised piece) = some (directive, max number registerCount) ↔
      registerCount ≤ number ∨ countsAlone piece := by
  -- A line that is left as it is declares what it declared.
  obtain ⟨said, count⟩ := count?_of_declared declared fits
  have kept := declared_kept declared
  rw [raised, raiseCount, countDirective?_ofPiece, said]
  simp only [count, Line.piece_ofPiece]
  -- A line on which more stands than the count is not raised.
  by_cases alone : countsAlone piece
  case neg =>
    simp only [alone, Bool.false_eq_true, if_false, or_false]
    exact kept
  case pos =>
    simp only [alone, if_true, or_true, iff_true]
    -- The count is raised only if it is too small.
    split
    · next few =>
      have inside : Line.ofPiece 0 0 piece ∈ Text.lines piece := by
        rw [Text.lines, Text.pieces_of_isPiece single]
        exact List.mem_singleton_self _
      have member := List.mem_of_find?_eq_some said
      obtain ⟨-, -, written⟩ := raised_line inside member
      rw [Nat.max_eq_right (Nat.le_of_lt few), ← declared?_count member]
      refine declared?_congr ?_
      rw [trim_count member]
      simpa using written
    · next enough => exact kept.2 (Nat.not_lt.1 enough)

/-- Only the first line that says a register count is raised. -/
theorem pieces_ensureRegisters_of_split {body piece : Text} {front back : List Text}
    (split : Text.pieces body = front ++ piece :: back)
    (before : ∀ other ∈ front, counts other = false) (here : counts piece) :
    Text.pieces (ensureRegisters registerCount body) = front ++ raised piece :: back := by
  -- The lines in front of it are passed over.
  obtain ⟨first, last, whole, rfl, rfl⟩ := Text.lines_of_pieces split
  have said {line : Line} (member : line ∈ Text.lines body) :
      countDirective? line = saidCount? line.piece := by
    obtain ⟨number, start, piece, -, rfl⟩ := Text.exists_ofPiece member
    rw [countDirective?_ofPiece, Line.piece_ofPiece]
  -- The lines before give no count, and the line at hand does.
  have pass : ∀ line ∈ first, (countDirective? line).isNone := fun line member => by
    have silent := before line.piece (List.mem_map_of_mem member)
    rw [said (by rw [whole]; simp [member])]
    simpa [counts] using silent
  have stops : ∀ line, (Line.ofPiece (first.map Line.piece).length
      (Text.byteLength (first.map Line.piece).flatten) piece :: last).head? = some line →
        (countDirective? line).isNone = false := by
    intro line begins
    cases begins
    rw [countDirective?_ofPiece]
    simpa [counts] using here
  obtain ⟨run, rest⟩ := Text.takeWhile_run pass stops
  have single : Text.IsPiece piece :=
    Text.isPiece_of_mem_pieces (show piece ∈ Text.pieces body by simp [split])
  -- The raised line is a line again, closed if the old one was.
  obtain ⟨single', closed⟩ := isPiece_raised single
  have changed := Text.pieces_replace split single' closed
  simp only [ensureRegisters, whole, run, rest, List.flatMap_def]
  exact changed

/-- Without a line that says a register count nothing is raised. -/
theorem ensureRegisters_of_silent {body : Text}
    (silent : ∀ piece ∈ Text.pieces body, counts piece = false) :
    ensureRegisters registerCount body = body := by
  -- All lines are passed over.
  have pass : ∀ line ∈ Text.lines body, (countDirective? line).isNone := by
    intro line member
    have none := silent line.piece (Text.piece_mem_pieces member)
    obtain ⟨number, start, piece, -, rfl⟩ := Text.exists_ofPiece member
    rw [Line.piece_ofPiece] at none
    rw [countDirective?_ofPiece]
    simpa [counts] using none
  have nothing := List.dropWhile_eq_nil_iff.2 pass
  simp only [ensureRegisters, nothing]

/-- The first entry that passes a test stands behind those that do not. -/
theorem findIdx_split {α : Type} {passes : α → Bool} {front back : List α} {entry : α}
    (before : ∀ other ∈ front, passes other = false) (here : passes entry) :
    (front ++ entry :: back).findIdx passes = front.length := by
  -- Each of them is passed over.
  induction front with
  | nil => simp [List.findIdx_cons, here]
  | cons first others ih =>
    rw [List.cons_append, List.findIdx_cons, before first (by simp),
      ih fun other member => before other (by simp [member])]
    rfl

/-- The first line that says a register count stands behind lines that say none. -/
theorem exists_split_of_find? {pieces : List Text} {piece : Text}
    (found : pieces.find? counts = some piece) :
    ∃ front back, pieces = front ++ piece :: back ∧ (∀ other ∈ front, counts other = false) ∧
      counts piece := by
  -- The search has passed over those in front.
  obtain ⟨here, front, back, split, early⟩ := List.find?_eq_some_iff_append.1 found
  exact ⟨front, back, split, fun other member => by simpa using early other member, here⟩

/-- Lines of which the first one that says a register count is raised. -/
def raiseFirst : List Text → List Text
  -- Behind it all lines stay.
  | [] => []
  | piece :: rest => if counts piece then raised piece :: rest else piece :: raiseFirst rest

/-- Lines in front of one that says a register count stay. -/
theorem raiseFirst_of_split {piece : Text} {front back : List Text}
    (before : ∀ other ∈ front, counts other = false) (here : counts piece) :
    raiseFirst (front ++ piece :: back) = front ++ raised piece :: back := by
  -- Each of them is passed over.
  induction front with
  | nil => simp [raiseFirst, here]
  | cons first front ih =>
    rw [List.cons_append, raiseFirst, before first (by simp), if_neg (by decide),
      ih fun other member => before other (by simp [member]), List.cons_append]

/-- Without a line that says a register count all lines stay. -/
theorem raiseFirst_of_silent {pieces : List Text}
    (silent : ∀ piece ∈ pieces, counts piece = false) : raiseFirst pieces = pieces := by
  -- Each of them is passed over.
  induction pieces with
  | nil => rfl
  | cons first rest ih =>
    rw [raiseFirst, silent first (by simp), if_neg (by decide),
      ih fun piece member => silent piece (by simp [member])]

/-- The line that is raised stands in the first of two parts if that has one. -/
theorem raiseFirst_append (front back : List Text) : raiseFirst (front ++ back) =
    if front.any counts then raiseFirst front ++ back else front ++ raiseFirst back := by
  -- The lines in front are looked at one by one.
  induction front with
  | nil => simp
  | cons first front ih =>
    rw [List.cons_append, raiseFirst, raiseFirst, List.any_cons, ih]
    cases counts first <;> cases front.any counts <;> rfl

/-- The line that is raised is the first one that says a register count. -/
theorem raiseFirst_of_find? {pieces : List Text} {piece : Text}
    (found : pieces.find? counts = some piece) :
    raiseFirst pieces = pieces.set (pieces.findIdx counts) (raised piece) := by
  -- It is found where the others have been passed over.
  obtain ⟨front, back, rfl, before, here⟩ := exists_split_of_find? found
  rw [raiseFirst_of_split before here, findIdx_split before here]
  simp

/-- Raising a register count raises the first line that says one. -/
theorem pieces_ensureRegisters_eq (body : Text) :
    Text.pieces (ensureRegisters registerCount body) = raiseFirst (Text.pieces body) := by
  -- There is such a line, or all are passed over.
  cases found : (Text.pieces body).find? counts with
  | some piece =>
    obtain ⟨front, back, split, before, here⟩ := exists_split_of_find? found
    rw [pieces_ensureRegisters_of_split split before here, split, raiseFirst_of_split before here]
  | none =>
    have silent : ∀ piece ∈ Text.pieces body, counts piece = false := by simpa using found
    rw [ensureRegisters_of_silent silent, raiseFirst_of_silent silent]

section Block

variable {indent : Text} (blank : ∀ c ∈ indent, Text.isBlank c) (open' : '\n' ∉ indent)

/-- Behind a line feed the lines are looked at anew. -/
theorem any_counts_append {front : Text} (closed : Text.Closed front) (back : Text) :
    (Text.pieces (front ++ back)).any counts =
      ((Text.pieces front).any counts || (Text.pieces back).any counts) := by
  -- The pieces are those of the two parts.
  rw [Text.pieces_append (.inr closed), List.any_append]

/-- An empty line says no register count. -/
theorem any_counts_feed (behind : Text) :
    (Text.pieces ('\n' :: behind)).any counts = (Text.pieces behind).any counts := by
  -- It says nothing.
  rw [← List.singleton_append, any_counts_append (show Text.Closed ['\n'] from rfl)]
  rfl

include blank in
/-- An instruction says no register count. -/
theorem counts_instruction {c : Char} (solid : Text.isBlank c = false) (other : '.' ≠ c)
    (rest : Text) : counts (indent ++ c :: rest) = false := by
  -- The directives begin with a dot.
  rw [counts, saidCount?, Option.isSome_eq_false_iff, Option.isNone_iff_eq_none, List.find?_eq_none]
  intro directive member
  rw [Bool.not_eq_true]
  rcases List.mem_cons.1 member with rfl | member
  · exact Text.tells_eq_false blank solid other _ rest
  · rw [List.mem_singleton.1 member]
    exact Text.tells_eq_false blank solid other _ rest

include blank open' in
/-- An instruction in front adds no register count. -/
theorem any_counts_instruction {c : Char} (solid : Text.isBlank c = false) (other : '.' ≠ c)
    {rest : Text} (single : '\n' ∉ rest) (behind : Text) :
    (Text.pieces (indent ++ c :: rest ++ '\n' :: behind)).any counts =
      (Text.pieces behind).any counts := by
  -- It is a line of its own.
  have clean : '\n' ∉ indent ++ c :: rest := by
    simp only [List.mem_append, List.mem_cons, not_or]
    refine ⟨open', ?_, single⟩
    rintro rfl
    exact absurd solid (by decide)
  rw [List.append_cons, any_counts_append (List.getLast?_concat ..),
    Text.pieces_of_isPiece (Text.isPiece_feed clean), List.any_cons, List.any_nil, Bool.or_false,
    List.append_assoc, List.cons_append, counts_instruction blank solid other, Bool.false_or]

include blank open' in
/-- A line that puts a number into a register adds no register count. -/
theorem any_counts_constLine {register : Text} (single : '\n' ∉ register) (number : Nat)
    (behind : Text) : (Text.pieces (constLine indent register number ++ behind)).any counts =
      (Text.pieces behind).any counts := by
  -- It is an instruction.
  obtain ⟨rest, clean, whole⟩ := exists_constLine indent single number
  rw [whole, List.append_assoc, List.singleton_append]
  exact any_counts_instruction blank open' (by decide) (by decide) clean behind

include blank open' in
/-- The lines that store elements add no register count. -/
theorem any_counts_elementLines (listed : List (Text × Nat)) (behind : Text) :
    (Text.pieces ((listed.flatMap fun (value, index) => elementLines indent index value) ++
      behind)).any counts = (Text.pieces behind).any counts := by
  -- Strings are escaped, so that none of them runs over a line.
  induction listed with
  | nil => rfl
  | cons entry others ih =>
    obtain ⟨value, index⟩ := entry
    have clean : '\n' ∉ Text.escape value := fun feed =>
      absurd (Text.printable_escape feed).1 (by decide)
    have split (behind : Text) : elementLines indent index value ++ behind = '\n' ::
        (constLine indent "v1".toList index ++
          (indent ++ 'c' :: ("onst-string v2, \"".toList ++ Text.escape value ++ ['"']) ++ '\n' ::
            (indent ++ 'a' :: "put-object v2, v0, v1".toList ++ '\n' :: behind))) := by
      simp [elementLines]
    rw [List.flatMap_cons, List.append_assoc, split, any_counts_feed,
      any_counts_constLine blank open' (by decide),
      any_counts_instruction blank open' (by decide) (by decide) (by simp [clean]),
      any_counts_instruction blank open' (by decide) (by decide) (by decide), ih]

/-- A text in front that holds no line feed joins the first piece. -/
theorem pieces_append_open {front : Text} (single : '\n' ∉ front) {text first : Text}
    {rest : List Text} (parts : Text.pieces text = first :: rest) :
    Text.pieces (front ++ text) = (front ++ first) :: rest := by
  -- Its characters are put in front one by one.
  induction front with
  | nil => exact parts
  | cons c front ih =>
    have other : c ≠ '\n' := fun same => single (by simp [same])
    rw [List.cons_append, Text.pieces_cons, ih fun feed => single (by simp [feed]),
      Text.consPiece, if_neg other, List.cons_append]

/-- Lines behind the first one of a text say a register count or not, whether the text is closed by
a line feed or not. -/
theorem any_counts_tail_feed (text : Text) :
    (Text.pieces (text ++ ['\n'])).tail.any counts = (Text.pieces text).tail.any counts := by
  -- The line feed is a line of its own or the end of the last one.
  have feed : counts ['\n'] = false := by decide
  rcases List.eq_nil_or_concat (Text.pieces text) with nothing | ⟨front, last, split⟩
  · have whole := Text.flatten_pieces text
    rw [nothing] at whole
    rw [← whole]
    rfl
  · rw [List.concat_eq_append] at split
    by_cases closed : Text.Closed text
    -- A closed text gets one more line, which gives no count.
    · have pieces : Text.pieces (text ++ ['\n']) = Text.pieces text ++ [['\n']] :=
        Text.pieces_append (.inr closed) _
      rw [pieces, split]
      cases front <;> simp [feed]
    -- The last line of an open text is closed by it, and says what it said.
    · have whole := Text.flatten_pieces text
      rw [split, List.flatten_append, List.flatten_singleton] at whole
      obtain ⟨before, c, rfl, single⟩ := Text.isPiece_of_mem_pieces
        (show last ∈ Text.pieces text by simp [split])
      have other : '\n' ≠ c := by
        rintro rfl
        exact closed (by rw [Text.Closed, ← whole, ← List.append_assoc, List.getLast?_concat])
      -- The last line has no line feed anywhere.
      have clean : '\n' ∉ before ++ [c] := by simp [single, other]
      have pieces := Text.pieces_replace split (Text.isPiece_feed clean)
        fun _ => List.getLast?_concat ..
      have same : counts (before ++ [c] ++ ['\n']) = counts (before ++ [c]) := by
        simp only [counts, saidCount?, Text.tells, Text.trim_tail
          (show ∀ c ∈ ['\n'], Text.isBlank c by decide)]
      rw [List.flatten_nil, List.append_nil, ← List.append_assoc, whole] at pieces
      rw [pieces, split]
      cases front with
      | nil => rfl
      | cons first others =>
        simp only [List.cons_append, List.tail_cons, List.any_append, List.any_cons, List.any_nil,
          same]

include blank open' in
/-- The block says a register count exactly if the reference runs over a line and says one on a
further line. -/
theorem any_counts_lines (values : List Text) (field : Text) :
    (Text.pieces (lines indent values field)).any counts =
      (Text.pieces field).tail.any counts := by
  -- Only the reference is written as it is.
  have split : lines indent values field = constLine indent "v0".toList values.length ++
      (indent ++ 'n' :: ("ew-array v0, v0, ".toList ++ stringArray) ++ '\n' ::
        ((values.zipIdx.flatMap fun (value, index) => elementLines indent index value) ++
          ('\n' :: (indent ++ 's' :: "put-object v0, ".toList ++
            (field ++ ['\n'] ++ ['\n']))))) := by
    simp [lines]
  have nonempty : Text.pieces (field ++ ['\n'] ++ ['\n']) ≠ [] := by
    intro nothing
    have whole := Text.flatten_pieces (field ++ ['\n'] ++ ['\n'])
    rw [nothing] at whole
    simp at whole
  -- The first line of the reference stands behind the opcode, where it gives no count.
  obtain ⟨first, rest, parts⟩ := List.exists_cons_of_ne_nil nonempty
  have clean : '\n' ∉ indent ++ 's' :: "put-object v0, ".toList := by
    simp only [List.mem_append, not_or]
    exact ⟨open', by decide⟩
  rw [split, any_counts_constLine blank open' (by decide),
    any_counts_instruction blank open' (by decide) (by decide) (by decide),
    any_counts_elementLines blank open', any_counts_feed, pieces_append_open clean parts,
    List.any_cons, List.append_assoc, List.cons_append, counts_instruction blank (by decide)
      (by decide), Bool.false_or, ← any_counts_tail_feed field, ← any_counts_tail_feed, parts,
    List.tail_cons]

end Block

/-- The position of the first line of a body that says a register count. -/
def countAt (body : Text) : Nat :=
  -- A body without one has none before its end.
  (Text.pieces body).findIdx counts

/-- The position of the first line of a body that returns. -/
def returnAt (body : Text) : Nat :=
  -- A body without one has none before its end.
  (Text.pieces body).findIdx fun piece => (Instruction.decode piece).isReturn

/-- The directive of the first line of a body that says a register count, and the number that the
first word behind it says. -/
def firstDeclared? (body : Text) : Option (Text × Nat) :=
  -- Later lines do not count, even if the first one declares nothing.
  ((Text.pieces body).find? counts).bind declared?

/-- The first line of a body that says a register count says nothing behind the count. -/
def firstAlone (body : Text) : Bool :=
  -- A comment would be more.
  ((Text.pieces body).find? counts).any countsAlone

/-- A block for a reference says a register count before the body does. -/
def preempts (field body : Text) : Bool :=
  -- The first line of the reference joins an instruction.
  returnAt body < countAt body && (Text.pieces field).tail.any counts

/-- The lines of a body with another line in place of the first that says a register count, and with
a block before the first that returns. -/
def injectedLines (body line block : Text) : List Text :=
  -- All other lines stay.
  let changed := (Text.pieces body).set (countAt body) line
  changed.take (returnAt body) ++ Text.pieces block ++ changed.drop (returnAt body)

/-- A line that says a register count does not return. -/
theorem isReturn_of_counts {piece : Text} (here : counts piece) :
    (Instruction.decode piece).isReturn = false := by
  -- It is decoded as a directive.
  obtain ⟨directive, said⟩ := Option.isSome_iff_exists.1 here
  obtain ⟨text, decoded⟩ := decode_count (List.mem_of_find?_eq_some said)
    (List.find?_some (p := fun directive => Text.tells directive piece) said)
  rw [decoded]
  rfl

section Injection

variable {body field injected : Text} {values : List Text}

/-- The block goes before the first line that returns, and then the first register count is
raised. -/
theorem exists_widened (done : inject body values field = .ok injected) :
    ∃ indent front line back widened, (∀ c ∈ indent, Text.isBlank c) ∧ '\n' ∉ indent ∧
      Text.pieces body = front ++ line :: back ∧ (Instruction.decode line).isReturn ∧
      (∀ other ∈ front, (Instruction.decode other).isReturn = false) ∧
      injected = ensureRegisters registerCount widened ∧
      Text.pieces widened =
        front ++ Text.pieces (lines indent values field) ++ line :: back := by
  -- Whether a line returns is told by its piece.
  obtain ⟨front, line, back, widened, split, returns, same, parts, passed⟩ := inject_ok done
  have inside : line ∈ Text.lines body := by rw [split]; simp
  refine ⟨line.indent, front.map Line.piece, line.piece, back.map Line.piece, widened,
    fun c => Text.isBlank_of_mem_takeWhile, fun feed =>
      Line.open_content inside ((List.takeWhile_sublist _).subset feed), ?_, ?_, ?_, same, parts⟩
  · exact Text.pieces_of_lines split
  · rw [← Instruction.decode_content inside]
    simpa [isNoReturn] using returns
  · intro piece member
    obtain ⟨other, early, rfl⟩ := List.mem_map.1 member
    rw [← Instruction.decode_content (show other ∈ Text.lines body by rw [split]; simp [early])]
    simpa [isNoReturn] using passed other early

/-- A line that is put in the place of the first one with a register count stands in the first of
two parts if that has one. -/
theorem set_findIdx_append (front back : List Text) (piece : Text) :
    (front ++ back).set ((front ++ back).findIdx counts) piece =
      if front.any counts then front.set (front.findIdx counts) piece ++ back
      else front ++ back.set (back.findIdx counts) piece := by
  -- The first part has one exactly if the search stops in it.
  have within : front.findIdx counts < front.length ↔ front.any counts := by
    rw [List.findIdx_lt_length, List.any_eq_true]
  rw [List.findIdx_append]
  by_cases inside : front.any counts
  · rw [if_pos (within.2 inside), if_pos inside, List.set_append_left _ _ (within.2 inside)]
  · rw [if_neg (mt within.1 inside), if_neg inside, List.set_append_right _ _ (by omega),
      Nat.add_sub_cancel]

/-- The first line that says a register count may be put where it stands. -/
theorem set_findIdx_of_find? {pieces : List Text} {piece : Text}
    (found : pieces.find? counts = some piece) :
    pieces.set (pieces.findIdx counts) piece = pieces := by
  -- That is the place where it is found.
  obtain ⟨front, back, rfl, before, here⟩ := exists_split_of_find? found
  rw [findIdx_split before here]
  simp

/-- The first line that returns cuts a body into the parts around the block. -/
theorem injectedLines_of_split {front back : List Text} {returning : Text}
    (split : Text.pieces body = front ++ returning :: back)
    (passed : ∀ other ∈ front, (Instruction.decode other).isReturn = false)
    (returns : (Instruction.decode returning).isReturn) (line block : Text) :
    injectedLines body line block =
      if front.any counts then
        front.set (front.findIdx counts) line ++ Text.pieces block ++ returning :: back
      else front ++ Text.pieces block ++
        (returning :: back).set ((returning :: back).findIdx counts) line := by
  -- The other line does not move the cut.
  have cut : returnAt body = front.length := by
    rw [returnAt, split]
    exact findIdx_split passed returns
  rw [injectedLines, cut, countAt, split, set_findIdx_append]
  split
  · rw [List.take_left' (List.length_set ..), List.drop_left' (List.length_set ..)]
  · rw [List.take_left' rfl, List.drop_left' rfl]

/-- A block comes before the count of a body if its own count is in front of it, and the count of
the body is not in front of the return. -/
theorem preempts_of_split {front back : List Text} {returning : Text}
    (split : Text.pieces body = front ++ returning :: back)
    (passed : ∀ other ∈ front, (Instruction.decode other).isReturn = false)
    (returns : (Instruction.decode returning).isReturn) :
    preempts field body = (!front.any counts && (Text.pieces field).tail.any counts) := by
  -- The line that returns says no count itself.
  -- The place of the return is the length of what stands before it.
  have cut : returnAt body = front.length := by
    rw [returnAt, split]
    exact findIdx_split passed returns
  have silent : counts returning = false := by
    rw [← Bool.not_eq_true]
    intro said
    rw [isReturn_of_counts said] at returns
    cases returns
  have within : front.findIdx counts < front.length ↔ front.any counts := by
    rw [List.findIdx_lt_length, List.any_eq_true]
  -- The count comes behind the return if none stands before it.
  have behind : decide (returnAt body < countAt body) = !front.any counts := by
    rw [cut, countAt, split, List.findIdx_append, List.findIdx_cons, silent, cond_false]
    cases inside : front.any counts with
    | true =>
      rw [if_pos (within.2 inside)]
      exact decide_eq_false (Nat.lt_asymm (within.2 inside))
    | false =>
      rw [if_neg (by rw [within, inside]; decide)]
      exact decide_eq_true (by omega)
  rw [preempts, behind]

/-- What a body is left with is the block and one line that may be raised. -/
theorem pieces_inject {piece : Text} (found : (Text.pieces body).find? counts = some piece)
    (done : inject body values field = .ok injected) :
    ∃ indent, (∀ c ∈ indent, Text.isBlank c) ∧
      Text.pieces injected = injectedLines body
        (if preempts field body then piece else raised piece)
        (if preempts field body then ensureRegisters registerCount (lines indent values field)
          else lines indent values field) := by
  -- The first count stands before the return, in the block, or behind the return.
  obtain ⟨indent, front, line, back, widened, blank, open', split, returns, passed, rfl, parts⟩ :=
    exists_widened done
  refine ⟨indent, blank, ?_⟩
  rw [pieces_ensureRegisters_eq, parts, injectedLines_of_split split passed returns,
    preempts_of_split split passed returns, ← any_counts_lines blank open' values field,
    List.append_assoc, raiseFirst_append, raiseFirst_append]
  rw [split, List.find?_append, Option.or_eq_some_iff] at found
  rcases found with found | ⟨silent, found⟩
  · have inside : front.any counts := List.any_eq_true.2
      ⟨piece, List.mem_of_find?_eq_some found, List.find?_some found⟩
    simp [inside, raiseFirst_of_find? found]
  · have outside : front.any counts = false := by simpa using silent
    cases (Text.pieces (lines indent values field)).any counts with
    | true => simp [outside, pieces_ensureRegisters_eq, set_findIdx_of_find? found]
    | false => simp [outside, raiseFirst_of_find? found]

/-- Building an array changes the body at most by a block in front of the first return and in the
first line that says a register count, and that line then declares enough registers for the block
exactly if it did before or if nothing stands behind its count, as long as the reference brings no
count of its own that comes first. -/
theorem declared_inject_iff {directive : Text} {number : Nat}
    (declared : firstDeclared? body = some (directive, number)) (fits : number < 0x100000000)
    (done : inject body values field = .ok injected) :
    ∃ indent line, (∀ c ∈ indent, Text.isBlank c) ∧
      Text.pieces injected = injectedLines body line
        (if preempts field body then ensureRegisters registerCount (lines indent values field)
          else lines indent values field) ∧
      (declared? line = some (directive, max number registerCount) ↔
        registerCount ≤ number ∨ firstAlone body ∧ preempts field body = false) := by
  -- The line is raised or, behind a count of the reference, left as it is.
  obtain ⟨piece, found, declares⟩ := Option.bind_eq_some_iff.1 declared
  obtain ⟨indent, blank, parts⟩ := pieces_inject found done
  refine ⟨indent, _, blank, parts, ?_⟩
  have single : Text.IsPiece piece :=
    Text.isPiece_of_mem_pieces (List.mem_of_find?_eq_some found)
  rw [firstAlone, found, Option.any_some]
  cases preempts field body with
  | false => simpa using declared_raised single declares fits
  | true => simpa using declared_kept declares

end Injection

/-- A hexadecimal count behind a tab is raised although it stands behind the return. -/
theorem declared_inject_sample :
    let body := "return-void\n  .registers\t0x2 \r\n".toList
    let field := "La;->z:[Ljava/lang/String;".toList
    firstDeclared? body = some (".registers".toList, 2) ∧
      ∃ indent line injected, inject body ["b".toList] field = .ok injected ∧
        Text.pieces injected = injectedLines body line (lines indent ["b".toList] field) ∧
        declared? line = some (".registers".toList, 3) := by
  -- Nothing but blanks stands behind the count.
  intro body field
  have declared : firstDeclared? body = some (".registers".toList, 2) := by decide +kernel
  have silent : preempts field body = false := by decide +kernel
  obtain ⟨injected, done⟩ : ∃ injected, inject body ["b".toList] field = .ok injected := ⟨_, rfl⟩
  obtain ⟨indent, line, -, parts, raises⟩ := declared_inject_iff declared (by decide) done
  rw [silent] at parts
  exact ⟨declared, indent, line, injected, done, parts,
    raises.2 (.inr ⟨by decide +kernel, silent⟩)⟩

/-- A count with a comment behind it is not raised. -/
theorem declared_inject_commentedSample :
    let body := ".locals 1 # one\nreturn-void\n".toList
    firstDeclared? body = some (".locals".toList, 1) ∧
      ∃ injected, inject body ["b".toList] "La;->z:[Ljava/lang/String;".toList = .ok injected ∧
        firstDeclared? injected ≠ some (".locals".toList, max 1 registerCount) :=
  -- The line is still the first one that says a register count.
  ⟨by decide +kernel, _, rfl, by decide +kernel⟩

end ArrayBlock

end Smali
