/-! Text is a list of characters, and positions in it are counted in UTF-8 bytes. -/

namespace Smali

/-- A text is the list of its characters. -/
abbrev Text := List Char

/-- A half-open range of byte offsets in a text. -/
structure Span where
  /-- The offset of the first byte. -/
  start : Nat
  /-- The offset just past the last byte. -/
  stop : Nat
  deriving DecidableEq, Repr

namespace Text

/-- Whether all characters of a text pass a test is computed from the text alone. -/
instance (priority := 2000) (text : Text) (test : Char → Prop) [DecidablePred test] :
    Decidable (∀ c ∈ text, test c) :=
  -- A test of all characters that there are would take too long.
  List.decidableBAll test text

/-- The number of bytes that a text takes in UTF-8. -/
def byteLength (text : Text) : Nat :=
  -- Every character adds its own width.
  text.foldl (fun total c => total + c.utf8Size) 0

/-- A running byte count adds the length of what is still to be counted. -/
theorem foldl_utf8Size (text : Text) (total : Nat) :
    text.foldl (fun sum c => sum + c.utf8Size) total = total + byteLength text := by
  -- Both counts move by the same width at each character.
  induction text generalizing total with
  | nil => simp [byteLength]
  | cons c rest ih =>
    simp only [byteLength, List.foldl_cons]
    rw [ih, ih (0 + c.utf8Size)]
    omega

/-- The empty text takes no bytes. -/
@[simp] theorem byteLength_nil : byteLength [] = 0 := by
  -- Nothing is counted.
  rfl

/-- A first character adds its own width. -/
@[simp] theorem byteLength_cons (c : Char) (rest : Text) :
    byteLength (c :: rest) = c.utf8Size + byteLength rest := by
  -- The running count starts from the first character's width.
  simp only [byteLength, List.foldl_cons]
  rw [foldl_utf8Size]
  simp only [byteLength]
  omega

/-- Lengths add up when texts are joined. -/
@[simp] theorem byteLength_append (left right : Text) :
    byteLength (left ++ right) = byteLength left + byteLength right := by
  -- The characters of the left text are counted first.
  induction left with
  | nil => simp
  | cons c rest ih => simp [ih]; omega

/-- Moves characters to the reversed front until the given number of bytes has been taken. -/
def splitAtByteFrom (front : Text) : Nat → Text → Option (Text × Text)
  -- A character that is wider than what is left to take has no boundary inside it.
  | 0, text => some (front.reverse, text)
  | _ + 1, [] => none
  | wanted + 1, c :: rest =>
    if c.utf8Size ≤ wanted + 1 then splitAtByteFrom (c :: front) (wanted + 1 - c.utf8Size) rest
    else none

/-- Splits a text at a byte offset, where that is a boundary between characters inside the text. -/
def splitAtByte (offset : Nat) (text : Text) : Option (Text × Text) :=
  -- The walk starts with nothing taken.
  splitAtByteFrom [] offset text

/-- A text that is taken whole splits off what stands behind it. -/
theorem splitAtByteFrom_append (front taken rest : Text) :
    splitAtByteFrom front (byteLength taken) (taken ++ rest) =
      some (front.reverse ++ taken, rest) := by
  -- Every character that is taken moves to the front.
  induction taken generalizing front with
  | nil => cases rest <;> simp [splitAtByteFrom]
  | cons c taken ih =>
    have positive := c.utf8Size_pos
    obtain ⟨width, wide⟩ : ∃ width, byteLength (c :: taken) = width + 1 :=
      ⟨byteLength (c :: taken) - 1, by simp only [byteLength_cons]; omega⟩
    have total := wide
    rw [byteLength_cons] at total
    have left : width + 1 - c.utf8Size = byteLength taken := by omega
    rw [wide, List.cons_append, splitAtByteFrom, if_pos (by omega), left, ih]
    simp

/-- A text splits at the length of any of its beginnings. -/
theorem splitAtByte_append (before after : Text) :
    splitAtByte (byteLength before) (before ++ after) = some (before, after) := by
  -- Nothing has been taken at the start.
  simp [splitAtByte, splitAtByteFrom_append]

/-- The parts of a text that was split make it up, and the first has the length asked for. -/
theorem splitAtByteFrom_some {front text before after : Text} {offset : Nat}
    (split : splitAtByteFrom front offset text = some (before, after)) :
    ∃ taken, before = front.reverse ++ taken ∧ text = taken ++ after ∧
      byteLength taken = offset := by
  -- Each step takes one character and its width.
  induction text generalizing front offset with
  | nil =>
    cases offset with
    | zero =>
      simp only [splitAtByteFrom, Option.some.injEq, Prod.mk.injEq] at split
      exact ⟨[], by simp [split.1], by simp [← split.2], rfl⟩
    | succ offset => simp [splitAtByteFrom] at split
  | cons c rest ih =>
    cases offset with
    -- The offset has been reached before the next character.
    | zero =>
      simp only [splitAtByteFrom, Option.some.injEq, Prod.mk.injEq] at split
      exact ⟨[], by simp [split.1], by simp [← split.2], rfl⟩
    | succ offset =>
      simp only [splitAtByteFrom] at split
      split at split
      · next fits =>
        obtain ⟨taken, joined, whole, length⟩ := ih split
        refine ⟨c :: taken, by simp [joined], by simp [whole], ?_⟩
        rw [byteLength_cons, length]
        omega
      · simp at split

/-- A text splits at an offset exactly into two parts of which the first has that length. -/
theorem splitAtByte_eq_some {offset : Nat} {text before after : Text} :
    splitAtByte offset text = some (before, after) ↔
      text = before ++ after ∧ byteLength before = offset := by
  -- The parts determine the split, and the split the parts.
  constructor
  · intro split
    obtain ⟨taken, joined, whole, length⟩ := splitAtByteFrom_some split
    simp only [List.reverse_nil, List.nil_append] at joined
    exact ⟨joined ▸ whole, joined ▸ length⟩
  · rintro ⟨rfl, rfl⟩
    exact splitAtByte_append before after

/-- The part of a text in a span whose ends are boundaries between characters. -/
def slice (span : Span) (text : Text) : Option Text :=
  -- The text is cut behind the span first, and what is left is cut in front of it.
  match splitAtByte span.stop text with
  | none => none
  | some (before, _) => (splitAtByte span.start before).map Prod.snd

/-- A part of a text is in the span that begins and ends where the part does. -/
theorem slice_eq_some {span : Span} {text part : Text} :
    slice span text = some part ↔
      ∃ before after, text = before ++ part ++ after ∧ span.start = byteLength before ∧
        span.stop = byteLength (before ++ part) := by
  -- The two cuts leave three parts.
  unfold slice
  constructor
  · intro found
    split at found
    · cases found
    · next front after cut =>
      obtain ⟨⟨before, part'⟩, cut', rfl⟩ := Option.map_eq_some_iff.1 found
      obtain ⟨rfl, stop⟩ := splitAtByte_eq_some.1 cut
      obtain ⟨rfl, start⟩ := splitAtByte_eq_some.1 cut'
      exact ⟨before, after, rfl, start.symm, stop.symm⟩
  · rintro ⟨before, after, rfl, start, stop⟩
    simp only [stop, start, splitAtByte_append, Option.map_some]

/-- What follows a given beginning of a text. -/
def afterPrefix? (beginning text : Text) : Option Text :=
  -- A text without that beginning has nothing that follows it.
  if beginning.isPrefixOf text then some (text.drop beginning.length) else none

/-- One text comes before another in the order of their characters. -/
def before (left right : Text) : Bool :=
  -- The first characters that differ decide, and a text comes before what it begins.
  left.lex right fun c d => c < d

/-- A text ends with a given character. -/
def endsWith (last : Char) (text : Text) : Bool :=
  -- Only the final character counts.
  text.getLast? == some last

/-- A text holds another one somewhere. -/
def contains (needle : Text) : Text → Bool
  -- Each position is tried in turn, the end of the text included.
  | [] => needle.isEmpty
  | c :: rest => needle.isPrefixOf (c :: rest) || contains needle rest

/-- What stands before and after the first occurrence of a separator. -/
def splitOnce (separator : Text) : Text → Option (Text × Text)
  -- The first position where the separator fits decides.
  | [] => if separator.isEmpty then some ([], []) else none
  | c :: rest =>
    if separator.isPrefixOf (c :: rest) then some ([], (c :: rest).drop separator.length)
    else (splitOnce separator rest).map fun (before, after) => (c :: before, after)

/-- Replaces occurrences from left to right, holding the finished part reversed and counting down
the characters that a replaced occurrence still covers. -/
def replaceFrom (old new : Text) (done : Text) : Nat → Text → Text
  -- An occurrence is never looked for inside one that has just been replaced.
  | _, [] => done.reverse
  | covered + 1, _ :: rest => replaceFrom old new done covered rest
  | 0, c :: rest =>
    if old.isPrefixOf (c :: rest) then
      replaceFrom old new (new.reverse ++ done) (old.length - 1) rest
    else replaceFrom old new (c :: done) 0 rest

/-- Replaces every occurrence of a nonempty text, from left to right and without overlap. -/
def replace (old new text : Text) : Text :=
  -- Nothing is done and nothing is covered at the start.
  replaceFrom old new [] 0 text

/-- What has been finished stands in front of what is still to be replaced. -/
theorem replaceFrom_done (old new done text : Text) (covered : Nat) :
    replaceFrom old new done covered text =
      done.reverse ++ replaceFrom old new [] covered text := by
  -- Every step adds to the finished part at its end.
  induction text generalizing done covered with
  | nil => simp [replaceFrom]
  | cons c rest ih =>
    cases covered with
    | succ covered => rw [replaceFrom, replaceFrom, ih]
    | zero =>
      by_cases found : old.isPrefixOf (c :: rest)
      · simp only [replaceFrom, found, if_true]
        rw [ih (new.reverse ++ done), ih (new.reverse ++ [])]
        simp
      · simp only [replaceFrom, found]
        rw [ih (c :: done), ih [c]]
        simp

/-- Removes a given last character once, where it is there. -/
def dropFinal (last : Char) (text : Text) : Text :=
  -- Only one occurrence goes.
  if endsWith last text then text.dropLast else text

/-- Removing a last character takes away that character or nothing. -/
theorem dropFinal_prefix (last : Char) (text : Text) : dropFinal last text <+: text := by
  -- In both cases the beginning of the text is left.
  unfold dropFinal
  split
  · exact List.dropLast_prefix text
  · exact List.prefix_refl text

/-- Sets a text between two grave accents, as messages quote. -/
def quoted (text : Text) : Text :=
  -- The same mark stands on both sides.
  '\x60' :: text ++ ['\x60']

end Text

end Smali
