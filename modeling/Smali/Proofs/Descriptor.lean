import Smali.Descriptor
import Smali.Proofs.Text.Blank

/-! What is taken as a type from the start of a text is a type that stands there, whatever follows
it. -/

namespace Smali.Descriptor

/-- A class begins with its mark. -/
theorem exists_mark {descriptor : Text} (named : isClass descriptor) :
    ∃ rest, descriptor = 'L' :: rest := by
  -- The mark is asked for.
  simp only [isClass, Bool.and_eq_true] at named
  obtain ⟨rest, whole⟩ := List.isPrefixOf_iff_prefix.1 named.1.2
  exact ⟨rest, whole.symm⟩

/-- A class has no blank at its ends. -/
theorem trim_class {descriptor : Text} (named : isClass descriptor) :
    Text.trim descriptor = descriptor := by
  -- The two marks stand there.
  obtain ⟨rest, whole⟩ := exists_mark named
  simp only [isClass, Bool.and_eq_true, Text.endsWith, beq_iff_eq] at named
  refine Text.trim_eq_self (fun c begins => ?_) fun c ends => ?_
  · rw [whole] at begins
    cases begins
    decide
  · rw [named.2] at ends
    cases ends
    decide

/-- A class type is taken from the start of a text. -/
theorem splitType_class {name : Text} (solid : ∀ c ∈ name, isNameChar c) (behind : Text) :
    splitType ('L' :: name ++ ';' :: behind) =
      if name.isEmpty then none else some ('L' :: name ++ [';'], behind) := by
  -- The name runs up to its semicolon.
  have taken : (name ++ ';' :: behind).takeWhile isNameChar = name := by
    rw [List.takeWhile_append_of_pos solid]
    simp [isNameChar]
  have dropped : (name ++ ';' :: behind).dropWhile isNameChar = ';' :: behind := by
    rw [List.dropWhile_append_of_pos solid]
    simp [isNameChar]
  rw [List.cons_append, splitType]
  simp [taken, dropped]

/-- A class type that is not closed is none. -/
theorem splitType_open {name behind : Text} (solid : ∀ c ∈ name, isNameChar c)
    (open' : ∀ c, behind.head? = some c → c = '\n') :
    splitType ('L' :: name ++ behind) = none := by
  -- The name runs up to the end of the line.
  have dropped : (name ++ behind).dropWhile isNameChar = behind := by
    rw [List.dropWhile_append_of_pos solid]
    cases behind with
    | nil => rfl
    | cons c rest => simp [open' c rfl, isNameChar]
  rw [List.cons_append, splitType]
  simp only [dropped]
  cases behind with
  | nil => rfl
  | cons c rest =>
    have feed := open' c rfl
    subst feed
    rfl

/-- The texts that are types. -/
inductive Typed : Text → Prop where
  /-- A letter stands for a primitive type. -/
  | primitive {c : Char} (letter : isPrimitive c) : Typed [c]
  /-- A class is named between its two marks. -/
  | named {name : Text} (nonempty : name ≠ []) (solid : ∀ c ∈ name, isNameChar c) :
      Typed ('L' :: name ++ [';'])
  /-- A bracket stands before the type of the elements of an array. -/
  | array {element : Text} (typed : Typed element) : Typed ('[' :: element)

/-- A primitive letter is neither a bracket nor the mark of a class. -/
theorem isPrimitive_ne {c : Char} (letter : isPrimitive c) : c ≠ '[' ∧ c ≠ 'L' := by
  -- All the letters are looked at.
  have all : ∀ d ∈ "BCDFIJSZ".toList, d ≠ '[' ∧ d ≠ 'L' := by decide
  exact all c (List.contains_iff_mem.1 letter)

/-- What is taken from the start of a text as a type is one. -/
theorem typed_of_splitType {text type behind : Text}
    (split : splitType text = some (type, behind)) : Typed type := by
  -- The first character tells which form the type has.
  induction text generalizing type with
  | nil => cases split
  | cons c rest ih =>
    rw [splitType] at split
    by_cases bracket : c = '['
    · rw [if_pos bracket, Option.map_eq_some_iff] at split
      obtain ⟨⟨element, others⟩, inner, same⟩ := split
      obtain ⟨rfl, rfl⟩ := Prod.mk.inj same
      rw [bracket]
      exact .array (ih inner)
    · rw [if_neg bracket] at split
      by_cases mark : c = 'L'
      · rw [if_pos mark] at split
        split at split
        · next others closed =>
          dsimp only at split
          split at split
          · cases split
          · next named =>
            obtain ⟨rfl, rfl⟩ := Prod.mk.inj (Option.some.inj split)
            rw [mark]
            -- The name runs up to the semicolon.
            exact .named (by simpa using named) fun d => List.all_eq_true.1 List.all_takeWhile d
        · cases split
      · rw [if_neg mark] at split
        split at split
        · next letter =>
          obtain ⟨rfl, rfl⟩ := Prod.mk.inj (Option.some.inj split)
          exact .primitive letter
        · cases split

/-- A type is taken from the start of a text, whatever follows it. -/
theorem Typed.splitType {type : Text} (typed : Typed type) (behind : Text) :
    splitType (type ++ behind) = some (type, behind) := by
  -- Each form is told by its first character.
  induction typed with
  | @primitive c letter =>
    obtain ⟨bracket, mark⟩ := isPrimitive_ne letter
    rw [List.singleton_append, Descriptor.splitType, if_neg bracket, if_neg mark, if_pos letter]
  | @named name nonempty solid =>
    have taken := splitType_class solid behind
    rw [if_neg (by simpa using nonempty)] at taken
    rw [List.append_assoc]
    exact taken
  | array _ ih =>
    rw [List.cons_append, Descriptor.splitType, if_pos rfl, ih]
    rfl

/-- What is taken from the start of a text is exactly a type that stands there. -/
theorem splitType_eq_some {text type behind : Text} :
    splitType text = some (type, behind) ↔ Typed type ∧ text = type ++ behind := by
  -- Both directions are known.
  constructor
  · intro split
    exact ⟨typed_of_splitType split, splitType_append split⟩
  · intro stands
    obtain ⟨typed, rfl⟩ := stands
    exact typed.splitType behind

/-- A type is taken as a whole. -/
theorem isType_iff {text : Text} : isType text ↔ splitType text = some (text, []) := by
  -- What is taken makes up the text if nothing is left.
  unfold isType
  constructor
  · intro typed
    split at typed
    · next taken found =>
      have whole := splitType_append found
      rw [List.append_nil] at whole
      rw [found, whole]
    · cases typed
  · intro taken
    rw [taken]

/-- A character that a type or a return type may end with. -/
def endsType (c : Char) : Bool :=
  -- It is a letter of its own or the mark behind the name of a class.
  "BCDFIJSZV;".toList.contains c

/-- What ends a type is no hyphen and no blank. -/
theorem endsType_visible {c : Char} (ends : endsType c) : c ≠ '-' ∧ Text.isBlank c = false := by
  -- All the characters are looked at.
  have all : ∀ d ∈ "BCDFIJSZV;".toList, d ≠ '-' ∧ Text.isBlank d = false := by decide
  exact all c (List.contains_iff_mem.1 ends)

/-- A type ends with a primitive letter or a semicolon. -/
theorem Typed.getLast? {type : Text} (typed : Typed type) :
    ∃ c, type.getLast? = some c ∧ endsType c := by
  -- Brackets come before its last character.
  induction typed with
  | @primitive c letter =>
    refine ⟨c, rfl, List.contains_iff_mem.2 ?_⟩
    exact List.mem_append_left [_, _] (List.contains_iff_mem.1 letter)
  | named => exact ⟨';', List.getLast?_concat, by decide⟩
  | array _ ih =>
    obtain ⟨c, final, ends⟩ := ih
    exact ⟨c, by rw [List.getLast?_cons, final, Option.getD_some], ends⟩

/-- No type begins with the letter for the absence of a value. -/
theorem Typed.append_ne {type : Text} (typed : Typed type) (behind rest : Text) :
    type ++ behind ≠ 'V' :: rest := by
  -- The first character of each form is another one.
  intro same
  cases typed with
  | primitive letter =>
    cases same
    exact absurd letter (by decide)
  | named | array => cases same

/-- The types at the start of a text are the first one and those behind it. -/
theorem splitTypes_eq (text : Text) : splitTypes text = match splitType text with
    | none => ([], text)
    | some (first, behind) => (first :: (splitTypes behind).1, (splitTypes behind).2) := by
  -- Without a first type there is none.
  conv => lhs; unfold splitTypes
  split
  · next none' => simp [none']
  · next first behind taken => simp [taken]

/-- What is taken from the start of a text are types, and they make up the text together with what
is left, where no type begins. -/
theorem splitTypes_append {text behind : Text} {types : List Text}
    (split : splitTypes text = (types, behind)) :
    text = types.flatten ++ behind ∧ splitType behind = none ∧ ∀ type ∈ types, Typed type := by
  -- The types are taken one by one.
  rw [splitTypes_eq] at split
  cases taken : splitType text with
  | none =>
    rw [taken] at split
    obtain ⟨rfl, rfl⟩ := Prod.mk.inj split
    exact ⟨rfl, taken, by simp⟩
  | some parts =>
    obtain ⟨first, rest⟩ := parts
    rw [taken] at split
    obtain ⟨rfl, last⟩ := Prod.mk.inj split
    -- What is left is shorter, so that the induction is on the length.
    have shorter := splitType_length taken
    obtain ⟨whole, stops, typed⟩ := splitTypes_append (show splitTypes rest =
      ((splitTypes rest).1, behind) from Prod.ext rfl last)
    refine ⟨?_, stops, List.forall_mem_cons.2 ⟨typed_of_splitType taken, typed⟩⟩
    rw [splitType_append taken, List.flatten_cons, List.append_assoc, ← whole]
termination_by text.length

/-- Types one behind the other are all taken before anything else where no type begins. -/
theorem splitTypes_flatten {types : List Text} (typed : ∀ type ∈ types, Typed type) {behind : Text}
    (stops : splitType behind = none) : splitTypes (types.flatten ++ behind) = (types, behind) := by
  -- Each of them is taken whatever follows it.
  induction types with
  | nil => rw [List.flatten_nil, List.nil_append, splitTypes_eq, stops]
  | cons first rest ih =>
    obtain ⟨here, others⟩ := List.forall_mem_cons.1 typed
    rw [List.flatten_cons, List.append_assoc, splitTypes_eq, here.splitType]
    simp only [ih others]

/-- What is taken from the start of a text as types is exactly all the types that stand there. -/
theorem splitTypes_eq_iff {text behind : Text} {types : List Text} :
    splitTypes text = (types, behind) ↔
      (∀ type ∈ types, Typed type) ∧ splitType behind = none ∧ text = types.flatten ++ behind := by
  -- Both directions are known.
  constructor
  · intro split
    obtain ⟨whole, stops, typed⟩ := splitTypes_append split
    exact ⟨typed, stops, whole⟩
  · rintro ⟨typed, stops, rfl⟩
    exact splitTypes_flatten typed stops

/-- The types of a run are those that are taken from it if nothing is left over. -/
theorem segment_eq_ok {run : Text} {types : List Text} :
    segment run = .ok types ↔ splitTypes run = (types, []) := by
  -- Nothing may be left over.
  unfold segment
  split
  · next found => simp [found]
  · next left =>
    refine iff_of_false (by simp [refuse]) fun taken => left types taken

/-- The texts that are types or stand for the absence of a value. -/
def Returned (text : Text) : Prop :=
  -- The absence of a value has a letter of its own.
  text = ['V'] ∨ Typed text

/-- What is taken from the start of a text as a return type is exactly one that stands there. -/
theorem splitReturn_eq_some {text taken behind : Text} :
    splitReturn text = some (taken, behind) ↔ Returned taken ∧ text = taken ++ behind := by
  -- The letter for the absence of a value begins no other type.
  constructor
  · intro split
    unfold splitReturn at split
    split at split
    · cases split
      exact ⟨.inl rfl, rfl⟩
    · exact ⟨.inr (typed_of_splitType split), splitType_append split⟩
  · rintro ⟨rfl | typed, rfl⟩
    · rfl
    · unfold splitReturn
      split
      · next same => exact absurd same (typed.append_ne behind _)
      · exact typed.splitType behind

/-- A return type ends with a letter or a semicolon. -/
theorem Returned.getLast? {text : Text} (returned : Returned text) :
    ∃ c, text.getLast? = some c ∧ endsType c := by
  -- The letter for the absence of a value is one character.
  rcases returned with rfl | typed
  · exact ⟨'V', rfl, by decide⟩
  · exact typed.getLast?

end Smali.Descriptor
