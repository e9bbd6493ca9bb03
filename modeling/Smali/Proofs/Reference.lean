import Smali.Proofs.Attempt
import Smali.Proofs.Descriptor
import Smali.Proofs.Text.Rewording
import Smali.Reference

/-! A member reference is read where its class, an arrow and the whole member stand. -/

namespace Smali

/-- A text is split at an arrow behind a beginning that holds none. -/
theorem Text.splitOnce_arrow {front : Text} (noArrow : ¬ arrow <:+: front) (back : Text) :
    splitOnce arrow (front ++ arrow ++ back) = some (front, back) := by
  -- The arrow has two different characters, so none begins at the last one of the beginning.
  refine splitOnce_append (by decide) front back fun left right whole nonempty beginning => ?_
  obtain ⟨c, rest, rfl⟩ := List.exists_cons_of_ne_nil nonempty
  cases rest with
  | nil => simp [arrow] at beginning
  | cons d rest =>
    simp only [arrow, show "->".toList = ['-', '>'] from rfl, List.cons_append,
      List.cons_prefix_cons] at beginning
    obtain ⟨rfl, rfl, -⟩ := beginning
    exact noArrow ⟨left, rest, by simp [whole, arrow]⟩

namespace FieldRef

/-- Takes the colon and the type of a field from the start of a text. -/
def splitTyping : Text → Option (Text × Text)
  -- The type stands right behind the colon.
  | ':' :: rest => (Descriptor.splitType rest).map fun (type, behind) => (':' :: type, behind)
  | _ => none

end FieldRef

namespace Reference

variable {reference : Reference} {text taken behind : Text}

/-- The name of the member. -/
def name : Reference → Text
  -- A class is no member.
  | ofClass _ => []
  | ofField field => field.name
  | ofMethod method => method.name

/-- What says the types of the member, behind its name. -/
def typing : Reference → Text
  -- Fields have a colon and methods have parentheses.
  | ofClass _ => []
  | ofField field => ':' :: field.descriptor
  | ofMethod method => method.descriptor

/-- The member as it stands behind the arrow. -/
def token (reference : Reference) : Text :=
  -- The types follow the name.
  reference.name ++ reference.typing

/-- Takes what says the types of a member of the same sort from the start of a text. -/
def splitTyping : Reference → Text → Option (Text × Text)
  -- A class is no member.
  | ofClass _, _ => none
  | ofField _, text => FieldRef.splitTyping text
  | ofMethod _, text => MethodRef.splitPrototype text

/-- A member has its token behind the arrow. -/
theorem member?_eq (member : reference.isMember) : reference.member? = some reference.token := by
  -- The sorts of members are looked at one by one.
  cases reference with
  | ofClass descriptor => cases member
  | ofField field => rfl
  | ofMethod method => rfl

/-- A member is written as its class, the arrow and its token. -/
theorem display_eq (member : reference.isMember) :
    reference.display = reference.owner ++ arrow ++ reference.token := by
  -- The sorts of members are looked at one by one.
  cases reference with
  | ofClass descriptor => cases member
  | ofField field => rfl
  | ofMethod method => rfl

/-- References of the same sort have their types read alike. -/
theorem splitTyping_of_sameSort {other : Reference} (same : reference.sameSort other) :
    reference.splitTyping = other.splitTyping := by
  -- Only the sort counts.
  cases reference <;> cases other <;> first | rfl | cases same

/-- Being of the same sort goes both ways. -/
theorem sameSort_symm {other : Reference} (same : reference.sameSort other) :
    other.sameSort reference := by
  -- The sorts are looked at one by one.
  cases reference <;> cases other <;> first | rfl | cases same

/-- References of the same sort are members alike. -/
theorem isMember_of_sameSort {other : Reference} (same : reference.sameSort other) :
    reference.isMember = other.isMember := by
  -- The sorts are looked at one by one.
  cases reference <;> cases other <;> first | rfl | cases same

/-- The texts that say the types of a member of the same sort. -/
inductive SaysTypes : Reference → Text → Prop where
  /-- The type of a field stands behind a colon. -/
  | field (field : FieldRef) {type : Text} (typed : Descriptor.Typed type) :
      SaysTypes (ofField field) (':' :: type)
  /-- The parameters of a method stand between parentheses, and what it returns behind them. -/
  | method (method : MethodRef) {parameters : List Text} {returned : Text}
      (typed : ∀ type ∈ parameters, Descriptor.Typed type) (last : Descriptor.Returned returned) :
      SaysTypes (ofMethod method) ('(' :: parameters.flatten ++ ')' :: returned)

/-- What is taken from the start of a text is exactly what says the types there. -/
theorem splitTyping_eq_some : reference.splitTyping text = some (taken, behind) ↔
    reference.SaysTypes taken ∧ text = taken ++ behind := by
  -- Each part is taken exactly where it stands.
  constructor
  · intro split
    cases reference with
    | ofClass descriptor => cases split
    | ofField field =>
      simp only [splitTyping] at split
      unfold FieldRef.splitTyping at split
      split at split
      · obtain ⟨⟨type, others⟩, inner, same⟩ := Option.map_eq_some_iff.1 split
        cases same
        obtain ⟨typed, rfl⟩ := Descriptor.splitType_eq_some.1 inner
        exact ⟨.field field typed, rfl⟩
      · cases split
    | ofMethod method =>
      simp only [splitTyping] at split
      unfold MethodRef.splitPrototype at split
      split at split
      · split at split
        · next found =>
          obtain ⟨⟨returned, others⟩, inner, same⟩ := Option.map_eq_some_iff.1 split
          cases same
          obtain ⟨typed, -, rfl⟩ := Descriptor.splitTypes_eq_iff.1 found
          obtain ⟨last, rfl⟩ := Descriptor.splitReturn_eq_some.1 inner
          exact ⟨.method method typed last, by simp⟩
        · cases split
      · cases split
  · rintro ⟨said, rfl⟩
    cases said with
    | field field typed => simp [splitTyping, FieldRef.splitTyping, typed.splitType]
    | @method method parameters returned typed last =>
      -- The parameters end at the parenthesis, because no type begins with it.
      have types := Descriptor.splitTypes_flatten typed
        (show Descriptor.splitType (')' :: (returned ++ behind)) = none from rfl)
      have returns : Descriptor.splitReturn (returned ++ behind) = some (returned, behind) :=
        Descriptor.splitReturn_eq_some.2 ⟨last, rfl⟩
      have whole : '(' :: parameters.flatten ++ ')' :: returned ++ behind =
          '(' :: (parameters.flatten ++ ')' :: (returned ++ behind)) := by simp
      rw [whole]
      simp only [splitTyping, MethodRef.splitPrototype, types, returns, Option.map_some]

/-- What says the types begins with a sign that ends names. -/
theorem SaysTypes.exists_sign (said : reference.SaysTypes taken) :
    ∃ sign rest, taken = sign :: rest ∧ (sign = ':' ∨ sign = '(') := by
  -- It is the colon or the opening parenthesis.
  cases said with
  | field field typed => exact ⟨':', _, rfl, .inl rfl⟩
  | method method typed last => exact ⟨'(', _, rfl, .inr rfl⟩

/-- What says the types ends like a type. -/
theorem SaysTypes.getLast? (said : reference.SaysTypes taken) :
    ∃ c, taken.getLast? = some c ∧ Descriptor.endsType c := by
  -- What stands before the last type does not matter.
  have later {c : Char} {last : Text}
      (final : ∃ d, last.getLast? = some d ∧ Descriptor.endsType d) :
      ∃ d, (c :: last).getLast? = some d ∧ Descriptor.endsType d := by
    obtain ⟨d, final, ends⟩ := final
    exact ⟨d, by rw [List.getLast?_cons, final, Option.getD_some], ends⟩
  cases said with
  | field field typed => exact later typed.getLast?
  | method method typed last =>
    rw [List.getLast?_append_of_ne_nil _ (by simp)]
    exact later last.getLast?

/-- What says the types is taken whatever follows it. -/
theorem splitTyping_local (split : reference.splitTyping text = some (taken, behind))
    (other : Text) : reference.splitTyping (taken ++ other) = some (taken, other) :=
  splitTyping_eq_some.2 ⟨(splitTyping_eq_some.1 split).1, rfl⟩

/-- A member reference that can be read back. -/
structure WellFormed (reference : Reference) : Prop where
  /-- The name goes up to the types. -/
  name : ∀ c ∈ reference.name, isMemberChar c
  /-- The types are taken as a whole. -/
  typing : reference.splitTyping reference.typing = some (reference.typing, [])

/-- A name has no sign that ends it and no blank. -/
theorem forall_isMemberChar {name : Text} : (∀ c ∈ name, isMemberChar c) ↔
    ':' ∉ name ∧ '(' ∉ name ∧ Text.Solid name := by
  -- These are what ends names.
  simp only [isMemberChar, Bool.and_eq_true, bne_iff_ne, Bool.not_eq_true', forall_and]
  constructor
  · rintro ⟨⟨colon, paren⟩, solid⟩
    exact ⟨fun inside => colon _ inside rfl, fun inside => paren _ inside rfl, solid⟩
  · rintro ⟨colon, paren, solid⟩
    exact ⟨⟨fun c inside same => colon (same ▸ inside), fun c inside same => paren (same ▸ inside)⟩,
      solid⟩

/-- The token of a field is its name, a colon and its type. -/
theorem token_field (field : FieldRef) :
    (ofField field).token = field.name ++ ':' :: field.descriptor :=
  -- The colon belongs to what says the type.
  rfl

/-- A field with a proper name and a proper type is well formed. -/
theorem wellFormed_field {field : FieldRef} (named : ∀ c ∈ field.name, isMemberChar c)
    (typed : Descriptor.isType field.descriptor) : (ofField field).WellFormed := by
  -- The type is taken to its end.
  refine ⟨named, ?_⟩
  simp [splitTyping, typing, FieldRef.splitTyping, Descriptor.isType_iff.1 typed]

/-- A method with a proper name, proper parameters and a proper return type is well formed. -/
theorem wellFormed_method {method : MethodRef} {run returnType : Text} {parameters : List Text}
    (named : ∀ c ∈ method.name, isMemberChar c)
    (whole : method.descriptor = '(' :: run ++ ')' :: returnType)
    (segmented : Descriptor.segment run = .ok parameters)
    (returned : Descriptor.splitReturn returnType = some (returnType, [])) :
    (ofMethod method).WellFormed := by
  -- The run is made up of the parameters.
  obtain ⟨flat, -, typed⟩ := Descriptor.splitTypes_append (Descriptor.segment_eq_ok.1 segmented)
  rw [List.append_nil] at flat
  have last := (Descriptor.splitReturn_eq_some.1 returned).1
  refine ⟨named, splitTyping_eq_some.2 ⟨?_, (List.append_nil _).symm⟩⟩
  rw [typing, whole, flat]
  exact .method method typed last

namespace WellFormed

/-- Only members are well formed. -/
theorem isMember (formed : reference.WellFormed) : reference.isMember := by
  -- No types are taken for a class.
  cases reference with
  | ofClass descriptor => cases formed.typing
  | ofField field => rfl
  | ofMethod method => rfl

/-- The types begin with a sign that ends names. -/
theorem exists_sign (formed : reference.WellFormed) :
    ∃ sign rest, reference.typing = sign :: rest ∧ (sign = ':' ∨ sign = '(') :=
  -- It is taken first.
  (splitTyping_eq_some.1 formed.typing).1.exists_sign

/-- A token is not empty. -/
theorem token_ne_nil (formed : reference.WellFormed) : reference.token ≠ [] := by
  -- It holds a sign.
  obtain ⟨sign, rest, same, -⟩ := formed.exists_sign
  simp [token, same]

/-- A token ends like a type. -/
theorem exists_last (formed : reference.WellFormed) :
    ∃ c, reference.token.getLast? = some c ∧ Descriptor.endsType c := by
  -- The types stand at the end.
  obtain ⟨sign, rest, same, -⟩ := formed.exists_sign
  rw [token, List.getLast?_append_of_ne_nil _ (by simp [same])]
  exact (splitTyping_eq_some.1 formed.typing).1.getLast?

/-- A token does not end with a hyphen. -/
theorem getLast?_ne (formed : reference.WellFormed) : reference.token.getLast? ≠ some '-' := by
  -- No type ends so.
  obtain ⟨c, last, ends⟩ := formed.exists_last
  rw [last, ne_eq, Option.some.injEq]
  exact (Descriptor.endsType_visible ends).1

/-- What holds a token holds a sign. -/
theorem not_unsigned (formed : reference.WellFormed) (inside : reference.token <:+: text) :
    ¬ Text.Unsigned text := by
  -- The sign is in the token.
  obtain ⟨sign, rest, same, either⟩ := formed.exists_sign
  have member : sign ∈ text := inside.subset (by simp [token, same])
  rintro ⟨colon, bracket⟩
  rcases either with rfl | rfl
  · exact colon member
  · exact bracket member

/-- A member is read at the start of a text exactly if its token stands there. -/
theorem prefix_iff (formed : reference.WellFormed) : reference.token <+: text ↔
    text.takeWhile isMemberChar = reference.name ∧
      ∃ behind, reference.splitTyping (text.dropWhile isMemberChar) =
        some (reference.typing, behind) := by
  -- The name ends at the sign.
  constructor
  · rintro ⟨behind, rfl⟩
    obtain ⟨sign, rest, same, either⟩ := formed.exists_sign
    have stops : isMemberChar sign = false := by rcases either with rfl | rfl <;> decide
    have whole : reference.token ++ behind = reference.name ++ (reference.typing ++ behind) := by
      rw [token, List.append_assoc]
    have dropped : (reference.typing ++ behind).dropWhile isMemberChar =
        reference.typing ++ behind := by
      simp [same, stops]
    rw [whole, List.takeWhile_append_of_pos formed.name, List.dropWhile_append_of_pos formed.name,
      dropped]
    refine ⟨by simp [same, stops], behind, ?_⟩
    exact splitTyping_local formed.typing behind
  · rintro ⟨name, behind, taken⟩
    refine ⟨behind, ?_⟩
    have whole := List.takeWhile_append_dropWhile (p := isMemberChar) (l := text)
    rw [name, (splitTyping_eq_some.1 taken).2, ← List.append_assoc] at whole
    exact whole

/-- No token begins another one of its sort. -/
theorem token_eq_of_prefix {other : Reference} (formed : reference.WellFormed)
    (formed' : other.WellFormed) (same : reference.sameSort other)
    (beginning : reference.token <+: other.token) : reference.token = other.token := by
  -- The other token is read only once.
  obtain ⟨name, behind, taken⟩ := formed.prefix_iff.1 beginning
  obtain ⟨name', behind', taken'⟩ := formed'.prefix_iff.1 (List.prefix_refl other.token)
  rw [splitTyping_of_sameSort same, taken', Option.some.injEq, Prod.mk.injEq] at taken
  rw [token, token, ← name, ← name', ← taken.1]

end WellFormed

/-- A reference is taken from the start of a text, and something is left behind it. -/
def Splits (text behind : Text) : Reference → Prop
  -- Only members are taken.
  | ofClass _ => False
  | ofField field => FieldRef.split text = some (field, behind)
  | ofMethod method => MethodRef.split text = some (method, behind)

/-- A member reference is taken where its class stands before the first arrow, and its name and its
types behind it. -/
theorem splits_iff : reference.Splits text behind ↔
    ∃ front rest, Text.splitOnce arrow text = some (front, rest) ∧
      Text.trim front = reference.owner ∧ rest.takeWhile isMemberChar = reference.name ∧
      reference.splitTyping (rest.dropWhile isMemberChar) = some (reference.typing, behind) := by
  -- The sorts of members are looked at one by one.
  cases reference with
  | ofClass descriptor => simp [Splits, splitTyping]
  | ofField field =>
    obtain ⟨owner, name, descriptor⟩ := field
    simp only [Splits, FieldRef.split, Reference.owner, Reference.name, typing, splitTyping]
    cases Text.splitOnce arrow text with
    | none => simp
    | some parts =>
      obtain ⟨front, rest⟩ := parts
      -- Behind the name of a field stands a colon, or there is no field.
      unfold FieldRef.splitTyping
      cases dropped : rest.dropWhile isMemberChar with
      | nil => simp [dropped]
      | cons c others =>
        by_cases colon : c = ':'
        · subst colon
          cases taken : Descriptor.splitType others <;> simp [dropped, taken, and_assoc]
        · simp [dropped, colon]
  | ofMethod method =>
    obtain ⟨owner, name, descriptor⟩ := method
    simp only [Splits, MethodRef.split, Reference.owner, Reference.name, typing, splitTyping]
    cases Text.splitOnce arrow text with
    | none => simp
    | some parts =>
      obtain ⟨front, rest⟩ := parts
      cases taken : MethodRef.splitPrototype (rest.dropWhile isMemberChar) <;>
        simp [taken, and_assoc, Prod.ext_iff]

/-- A well-formed reference is taken from the start of a text exactly if its class stands before the
first arrow and its token behind it. -/
theorem WellFormed.exists_splits (formed : reference.WellFormed) :
    (∃ behind, reference.Splits text behind) ↔
      ∃ front rest, Text.splitOnce arrow text = some (front, rest) ∧
        Text.trim front = reference.owner ∧ reference.token <+: rest := by
  -- What stands behind the arrow is read as a name and types.
  simp only [splits_iff, formed.prefix_iff]
  constructor
  · rintro ⟨behind, front, rest, split, owner, name, typing⟩
    exact ⟨front, rest, split, owner, name, behind, typing⟩
  · rintro ⟨front, rest, split, owner, name, behind, typing⟩
    exact ⟨behind, front, rest, split, owner, name, typing⟩

/-- A reference that is read is a member that uses up the text between its blanks, or that text is a
class without an arrow. -/
theorem cases_of_parse (read : parse text = .ok reference) :
    reference.Splits (Text.trim text) [] ∨ reference = .ofClass (Text.trim text) ∧
      Text.contains arrow (Text.trim text) = false ∧ Descriptor.isClass (Text.trim text) := by
  -- A method is tried before a field.
  unfold parse at read
  dsimp only at read
  split at read
  · split at read
    · next method found =>
      cases read
      exact .inl found
    · split at read
      · next field found =>
        cases read
        exact .inl found
      · exact absurd read refuse_ne_ok
  · next noArrow =>
    split at read
    · next named =>
      cases read
      exact .inr ⟨rfl, by simpa using noArrow, named⟩
    · exact absurd read refuse_ne_ok

/-- A member reference that is read uses up the text. -/
theorem splits_of_parse (read : parse text = .ok reference) (member : reference.isMember) :
    reference.Splits (Text.trim text) [] := by
  -- A class is no member.
  rcases cases_of_parse read with taken | ⟨rfl, -⟩
  · exact taken
  · cases member

/-- A member reference that is taken from a text is well formed, and its class has neither blanks at
its ends nor an arrow inside. -/
theorem wellFormed_of_splits (taken : reference.Splits text behind) : reference.WellFormed ∧
    Text.trim reference.owner = reference.owner ∧ ¬ arrow <:+: reference.owner := by
  -- The class is what stands before the first arrow, without the blanks around it.
  obtain ⟨front, rest, split, owner, name, typing⟩ := splits_iff.1 taken
  have typing' := splitTyping_local typing []
  rw [List.append_nil] at typing'
  refine ⟨⟨fun c inside => ?_, typing'⟩, ?_, fun inside => ?_⟩
  · rw [← name] at inside
    exact List.mem_takeWhile_imp inside
  · rw [← owner, Text.trim_trim]
  · rw [← owner] at inside
    exact Text.not_infix_of_splitOnce (by decide) split (inside.trans (Text.trim_isInfix front))

namespace WellFormed

variable (formed : reference.WellFormed) (trimmed : Text.trim reference.owner = reference.owner)
  (noArrow : ¬ arrow <:+: reference.owner)

include formed trimmed

/-- A well-formed reference has no blank at its ends as it is written. -/
theorem trim_display : Text.trim reference.display = reference.display := by
  -- It begins with the class or the arrow, and ends like a type.
  rw [display_eq formed.isMember]
  refine Text.trim_eq_self (fun c begins => ?_) fun c ends => ?_
  · cases owner : reference.owner with
    | nil =>
      rw [owner] at begins
      cases begins
      decide
    | cons d rest =>
      rw [owner] at begins trimmed
      cases begins
      exact Text.not_isBlank_of_trim_cons trimmed
  · obtain ⟨d, last, visible⟩ := formed.exists_last
    rw [List.getLast?_append, last] at ends
    cases ends
    exact (Descriptor.endsType_visible visible).2

include noArrow

/-- A well-formed reference is taken from what is written for it. -/
theorem splits_display : reference.Splits reference.display [] := by
  -- The first arrow is the one behind the class, and the whole token is read.
  obtain ⟨name, behind, typing⟩ := formed.prefix_iff.1 (List.prefix_refl reference.token)
  have none' : behind = [] := by
    have parts := List.takeWhile_append_dropWhile (p := isMemberChar) (l := reference.token)
    rw [name, (splitTyping_eq_some.1 typing).2, token] at parts
    simpa using parts
  refine splits_iff.2 ⟨reference.owner, reference.token, ?_, trimmed, name, none' ▸ typing⟩
  rw [display_eq formed.isMember, Text.splitOnce_arrow noArrow]

/-- A well-formed reference is read back from what is written for it. -/
theorem parse_display : parse reference.display = .ok reference := by
  -- Only parentheses make a method of it, and only a colon makes a field of it.
  have taken := formed.splits_display trimmed noArrow
  -- The arrow of the text tells that the reference is no class.
  have held : Text.contains arrow reference.display := by
    rw [Text.contains_iff, display_eq formed.isMember, List.append_assoc]
    exact List.infix_append' reference.owner arrow reference.token
  unfold parse
  simp only [formed.trim_display trimmed, held, if_true]
  cases reference with
  | ofClass descriptor => cases taken
  | ofMethod method =>
    rw [show MethodRef.split (ofMethod method).display = some (method, []) from taken]
  | ofField field =>
    -- Behind the name stands a colon, where a method would have a parenthesis.
    have dropped : (ofField field).token.dropWhile isMemberChar = ':' :: field.descriptor := by
      rw [token, List.dropWhile_append_of_pos formed.name]
      rfl
    have noMethod : MethodRef.split (ofField field).display = none := by
      rw [MethodRef.split, display_eq rfl, Text.splitOnce_arrow noArrow]
      simp only [dropped]
      rfl
    rw [noMethod, show FieldRef.split (ofField field).display = some (field, []) from taken]

end WellFormed

/-- What is written for a reference that is read is read back as that reference. -/
theorem parse_display_of_parse (read : parse text = .ok reference) :
    parse reference.display = .ok reference := by
  -- A class is read from what stands between the blanks, and a member is written without them.
  rcases cases_of_parse read with taken | ⟨rfl, noArrow, named⟩
  · obtain ⟨formed, trimmed, noArrow⟩ := wellFormed_of_splits taken
    exact formed.parse_display trimmed noArrow
  · simp only [parse, display, Text.trim_trim, noArrow, named, if_true]
    rfl

/-- A member reference that is read from a text without blanks is well formed and written as that
text, which is split at its first arrow into the class and the token. -/
theorem wellFormed_of_parse (solid : Text.Solid text) (read : parse text = .ok reference)
    (member : reference.isMember) : reference.WellFormed ∧ text = reference.display ∧
      Text.splitOnce arrow text = some (reference.owner, reference.token) := by
  -- There are no blanks that could be trimmed away.
  have taken := splits_of_parse read member
  rw [solid.trim] at taken
  obtain ⟨front, rest, split, owner, name, typing⟩ := splits_iff.1 taken
  have whole := Text.eq_of_splitOnce split
  have front' : Text.Solid front := fun c inside => solid c (by simp [whole, inside])
  rw [front'.trim] at owner
  subst owner
  have token : rest = reference.token := by
    have parts := List.takeWhile_append_dropWhile (p := isMemberChar) (l := rest)
    rw [name, (splitTyping_eq_some.1 typing).2, List.append_nil] at parts
    exact parts.symm
  refine ⟨(wellFormed_of_splits taken).1, ?_, by rw [split, token]⟩
  rw [display_eq member, whole, token]

end Reference

end Smali
