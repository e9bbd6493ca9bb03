import Smali.Text.Basic
import Smali.Error

/-! Descriptors name classes and types, and a run of types needs no separators. -/

namespace Smali.Descriptor

/-- A text has the form of a class descriptor, a nonempty name between its two marks. -/
def isClass (text : Text) : Bool :=
  -- Three bytes are the least that leave room for a name.
  2 < Text.byteLength text && ['L'].isPrefixOf text && Text.endsWith ';' text

/-- The name between the marks of a class descriptor. -/
def className (descriptor : Text) : Text :=
  -- The first and the last character are the marks.
  (descriptor.drop 1).dropLast

/-- A letter that stands for a primitive type. -/
def isPrimitive (c : Char) : Bool :=
  -- The letter for the absence of a value is not among them.
  "BCDFIJSZ".toList.contains c

/-- A character that may stand inside the name of a class type. -/
def isNameChar (c : Char) : Bool :=
  -- The name ends at its mark, and it never runs over a line.
  c != ';' && c != '\n'

/-- Takes one type from the start of a text. -/
def splitType : Text → Option (Text × Text)
  -- Brackets of arrays come before a primitive letter or a class.
  | [] => none
  | c :: rest =>
    if c = '[' then (splitType rest).map fun (element, behind) => (c :: element, behind)
    else if c = 'L' then
      match rest.dropWhile isNameChar with
      | ';' :: behind =>
        let name := rest.takeWhile isNameChar
        if name.isEmpty then none else some (c :: name ++ [';'], behind)
      | _ => none
    else if isPrimitive c then some ([c], rest)
    else none

/-- A type and what is behind it make up the text that it was taken from. -/
theorem splitType_append {text taken behind : Text}
    (split : splitType text = some (taken, behind)) : text = taken ++ behind := by
  -- Each case moves characters to the type in order.
  induction text generalizing taken with
  | nil => simp [splitType] at split
  | cons c rest ih =>
    simp only [splitType] at split
    by_cases bracket : c = '['
    -- The type behind a bracket is a type of its own.
    · simp only [bracket, if_true, Option.map_eq_some_iff, Prod.mk.injEq] at split
      obtain ⟨⟨element, others⟩, inner, rfl, rfl⟩ := split
      simp [bracket, ih inner]
    · simp only [bracket, if_false] at split
      by_cases mark : c = 'L'
      · simp only [mark, if_true] at split
        -- A class type goes up to its semicolon, which has to be there.
        have whole := List.takeWhile_append_dropWhile (p := isNameChar) (l := rest)
        split at split
        · next closed =>
          rw [closed] at whole
          split at split
          · simp at split
          · simp only [Option.some.injEq, Prod.mk.injEq] at split
            obtain ⟨rfl, rfl⟩ := split
            simp only [mark, List.cons_append, List.append_assoc, List.nil_append, whole]
        · simp at split
      · simp only [mark, if_false] at split
        by_cases letter : isPrimitive c
        · simp only [letter, if_true, Option.some.injEq, Prod.mk.injEq] at split
          obtain ⟨rfl, rfl⟩ := split
          rfl
        · simp [letter] at split

/-- A type is never empty. -/
theorem splitType_ne_nil {text taken behind : Text}
    (split : splitType text = some (taken, behind)) : taken ≠ [] := by
  -- Every case takes the first character at least.
  cases text with
  | nil => simp [splitType] at split
  | cons c rest =>
    intro empty
    subst empty
    simp only [splitType] at split
    repeat' split at split
    all_goals simp_all

/-- What is behind a type is shorter than the text. -/
theorem splitType_length {text taken behind : Text}
    (split : splitType text = some (taken, behind)) : behind.length < text.length := by
  -- The type takes at least one character away.
  have whole := congrArg List.length (splitType_append split)
  have positive := List.length_pos_iff.2 (splitType_ne_nil split)
  simp only [List.length_append] at whole
  omega

/-- Takes as many types as there are from the start of a text. -/
def splitTypes (text : Text) : List Text × Text :=
  -- Taking stops at the first place where no type stands.
  match _taken : splitType text with
  | none => ([], text)
  | some (first, behind) =>
    let (others, rest) := splitTypes behind
    (first :: others, rest)
termination_by text.length
decreasing_by exact splitType_length (by assumption)

/-- Takes a return type, which may be the absence of a value, from the start of a text. -/
def splitReturn : Text → Option (Text × Text)
  -- The letter for the absence of a value begins no other type.
  | 'V' :: rest => some (['V'], rest)
  | text => splitType text

/-- A text is one type and nothing more. -/
def isType (text : Text) : Bool :=
  -- Nothing may be left over.
  match splitType text with
  | some (_, []) => true
  | _ => false

/-- The types of a run of parameters, one for each. -/
def segment (run : Text) : Except Error (List Text) :=
  -- The types have to use the whole run.
  match splitTypes run with
  | (types, []) => .ok types
  | _ => refuse (.notParameters run)

/-- The dotted name of a class. -/
def toDotted (descriptor : Text) : Except Error Text :=
  -- Dots take the place of the separators between packages.
  if isClass descriptor then
    .ok ((className descriptor).map fun c => if c = '/' then '.' else c)
  else refuse (.noDottedName descriptor)

/-- The descriptor of the class with a dotted name. -/
def ofDotted (name : Text) : Text :=
  -- The name is not checked.
  'L' :: (name.map fun c => if c = '.' then '/' else c) ++ [';']

end Smali.Descriptor
