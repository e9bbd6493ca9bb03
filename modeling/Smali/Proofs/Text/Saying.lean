import Smali.Proofs.Text.Lines

/-! What a line says is its content between the blanks, and this alone decides what it opens. -/

namespace Smali

namespace Text

/-- A text opens with a directive, which ends there or at a blank. -/
def opens (directive text : Text) : Bool :=
  -- A longer word is another directive.
  match afterPrefix? directive text with
  | none => false
  | some [] => true
  | some (c :: _) => isBlank c

/-- What a text opens with is its beginning. -/
theorem prefix_of_opens {directive text : Text} (opened : opens directive text) :
    directive <+: text := by
  -- Without that beginning nothing is opened.
  unfold opens afterPrefix? at opened
  by_cases beginning : directive.isPrefixOf text
  · exact List.isPrefixOf_iff_prefix.1 beginning
  · simp [beginning] at opened

/-- A directive with nothing or a blank behind it is opened with. -/
theorem opens_append {directive rest : Text} (apart : ∀ c, rest.head? = some c → isBlank c) :
    opens directive (directive ++ rest) := by
  -- What follows the directive is the rest.
  have beginning : directive.isPrefixOf (directive ++ rest) :=
    List.isPrefixOf_iff_prefix.2 (List.prefix_append ..)
  simp only [opens, afterPrefix?, beginning, if_true, List.drop_left]
  cases rest with
  | nil => rfl
  | cons c rest => exact apart c rfl

/-- A text that opens with a directive is that directive with nothing or a blank behind it. -/
theorem exists_of_opens {directive text : Text} (opened : opens directive text) :
    ∃ rest, text = directive ++ rest ∧ ∀ c, rest.head? = some c → isBlank c := by
  -- The rest is what the directive leaves.
  obtain ⟨rest, rfl⟩ := prefix_of_opens opened
  refine ⟨rest, rfl, fun c first => ?_⟩
  have beginning : directive.isPrefixOf (directive ++ rest) :=
    List.isPrefixOf_iff_prefix.2 (List.prefix_append ..)
  simp only [opens, afterPrefix?, beginning, if_true, List.drop_left] at opened
  cases rest with
  | nil => simp at first
  | cons d rest => simp_all

/-- Two directives that open the same text are one beginning of the other. -/
theorem prefix_or_prefix_of_opens {directive other text : Text} (opened : opens directive text)
    (opened' : opens other text) : directive <+: other ∨ other <+: directive := by
  -- Beginnings of one text are comparable.
  exact List.prefix_or_prefix_of_prefix (prefix_of_opens opened) (prefix_of_opens opened')

/-- A text ends with a character that is not blank. -/
def endsSolid (text : Text) : Bool :=
  -- The empty text does not.
  text.getLast?.any fun c => !isBlank c

/-- Blanks behind a text do not change what it opens with. -/
theorem opens_append_blank {directive : Text} (solid : endsSolid directive) {tail : Text}
    (blank : ∀ c ∈ tail, isBlank c) (text : Text) :
    opens directive (text ++ tail) = opens directive text := by
  -- A directive that reached into the tail would end with a blank.
  rw [Bool.eq_iff_iff]
  constructor
  · intro opened
    obtain ⟨rest, whole, apart⟩ := exists_of_opens opened
    rcases List.append_eq_append_iff.1 whole with ⟨reached, rfl, rfl⟩ | ⟨left, rfl, rfl⟩
    · rcases List.eq_nil_or_concat reached with rfl | ⟨front, c, rfl⟩
      · have whole : opens text (text ++ []) := opens_append (by simp)
        rwa [List.append_nil] at whole ⊢
      · have reaches := blank c (by simp)
        rw [endsSolid, List.concat_eq_append, ← List.append_assoc, List.getLast?_concat] at solid
        simp [reaches] at solid
    · -- The directive stands in the text, which may go on behind it.
      refine opens_append fun c first => apart c ?_
      rw [List.head?_append, first]
      rfl
  · intro opened
    obtain ⟨rest, rfl, apart⟩ := exists_of_opens opened
    rw [List.append_assoc]
    refine opens_append fun c first => ?_
    -- Behind the directive there is what follows in the text, or the tail.
    cases rest with
    | nil => exact blank c (List.mem_of_mem_head? (by simpa using first))
    | cons d rest => exact apart c (by simpa using first)

/-- Removing a final blank takes away a blank or nothing. -/
theorem exists_dropFinal {last : Char} (blank : isBlank last) (text : Text) :
    ∃ tail, (∀ c ∈ tail, isBlank c) ∧ text = dropFinal last text ++ tail := by
  -- Only the character that is removed stands behind what is left.
  unfold dropFinal
  split
  · next ended =>
    have final : text.getLast? = some last := by simpa [endsWith] using ended
    obtain ⟨front, rfl⟩ := List.getLast?_eq_some_iff.1 final
    exact ⟨[last], by simp [blank], by simp⟩
  · exact ⟨[], by simp, by simp⟩

end Text

namespace Line

/-- The content of a line and its ending, which is blank, make up its piece. -/
theorem exists_content_ofPiece (number start : Nat) (piece : Text) :
    ∃ tail, (∀ c ∈ tail, Text.isBlank c) ∧
      piece = (ofPiece number start piece).content ++ tail := by
  -- The line feed goes first and the carriage return after it.
  have isFeed : Text.isBlank '\n' := by decide
  have isReturn : Text.isBlank '\r' := by decide
  obtain ⟨feed, blankFeed, whole⟩ := Text.exists_dropFinal isFeed piece
  obtain ⟨back, blankBack, whole'⟩ :=
    Text.exists_dropFinal isReturn (Text.dropFinal '\n' piece)
  refine ⟨back ++ feed, fun c member => ?_, ?_⟩
  · rcases List.mem_append.1 member with member | member
    · exact blankBack c member
    · exact blankFeed c member
  · rw [← List.append_assoc]
    exact whole.trans (congrArg (· ++ feed) whole')

/-- The ending of a line is blank. -/
theorem isBlank_of_mem_ending {number start : Nat} {piece : Text} {c : Char}
    (member : c ∈ (ofPiece number start piece).ending) : Text.isBlank c := by
  -- It is what the content leaves of the piece.
  obtain ⟨tail, blank, whole⟩ := exists_content_ofPiece number start piece
  have parts := piece_ofPiece number start piece
  rw [Line.piece] at parts
  have same : (ofPiece number start piece).ending = tail :=
    List.append_cancel_left (parts.trans whole)
  exact blank c (same ▸ member)

/-- What a line says is what its piece says. -/
@[simp] theorem trimmed_ofPiece (number start : Nat) (piece : Text) :
    (ofPiece number start piece).trimmed = Text.trim piece := by
  -- The ending is blank.
  obtain ⟨tail, blank, whole⟩ := exists_content_ofPiece number start piece
  have trimmed : Text.trim ([] ++ (ofPiece number start piece).content ++ tail) =
      Text.trim (ofPiece number start piece).content := Text.trim_append (by simp) blank _
  rw [List.nil_append, ← whole] at trimmed
  exact trimmed.symm

/-- The content is what the line says, with blanks before and behind it. -/
theorem content_eq (line : Line) :
    line.indent ++ line.trimmed ++ Text.trailing (Text.trimStart line.content) =
      line.content := by
  -- These are the parts that trimming tells apart.
  exact Text.takeWhile_append_trim line.content

/-- What a line opens with is decided by what it says. -/
theorem opensWith_eq_opens (directive : Text) (solid : Text.endsSolid directive) (line : Line) :
    line.opensWith directive = Text.opens directive line.trimmed := by
  -- Behind the start of the content only blanks are trimmed away.
  have whole := Text.trimEnd_append_trailing (Text.trimStart line.content)
  calc line.opensWith directive = Text.opens directive (Text.trimStart line.content) := rfl
    _ = Text.opens directive line.trimmed := by
      conv => lhs; rw [← whole]
      exact Text.opens_append_blank solid (fun c => Text.isBlank_of_mem_trailing) _

/-- What a line says stands behind its indentation. -/
theorem trimmedSpan_eq (line : Line) :
    line.trimmedSpan = ⟨line.start + Text.byteLength line.indent,
      line.start + Text.byteLength (line.indent ++ line.trimmed)⟩ := by
  -- The indentation is what trimming the start takes away.
  have whole : line.indent ++ Text.trimStart line.content = line.content :=
    List.takeWhile_append_dropWhile
  have length := congrArg Text.byteLength whole
  rw [Text.byteLength_append] at length
  have lead : Text.byteLength line.content - Text.byteLength (Text.trimStart line.content) =
      Text.byteLength line.indent := by omega
  simp only [trimmedSpan, lead, Text.byteLength_append, Nat.add_assoc]

/-- Trimming the end of a line that says something leaves that behind the indentation. -/
theorem trimEnd_content {line : Line} (spoken : line.trimmed ≠ []) :
    Text.trimEnd line.content = line.indent ++ line.trimmed := by
  -- The last character that is said is no blank.
  conv => lhs; rw [← line.content_eq]
  rw [Text.trimEnd_append fun c => Text.isBlank_of_mem_trailing]
  have whole := Text.trimEnd_append_trailing (line.indent ++ line.trimmed)
  obtain ⟨front, last, parts⟩ := (List.eq_nil_or_concat line.trimmed).resolve_left spoken
  rw [List.concat_eq_append] at parts
  have solid : Text.isBlank last = false :=
    Text.not_isBlank_of_getLast?_trimEnd
      (show (Text.trimEnd (Text.trimStart line.content)).getLast? = some last by
        rw [show Text.trimEnd (Text.trimStart line.content) = line.trimmed from rfl, parts,
          List.getLast?_concat])
  have nothing : Text.trailing (line.indent ++ line.trimmed) = [] := by
    rw [parts, ← List.append_assoc, Text.trailing, List.reverse_append]
    simp [solid]
  rwa [nothing, List.append_nil] at whole

end Line

end Smali
