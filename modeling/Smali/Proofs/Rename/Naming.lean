import Smali.Collection.Rename
import Smali.Proofs.Instruction
import Smali.Proofs.Text.Words

/-! Renaming a member leaves the instructions that name it only where a blank parts the class from
the arrow. -/

namespace Smali

namespace Text

/-- A front that holds no arrow and does not end like the beginning of one is passed over. -/
theorem passes_arrow {front : Text} (absent : ¬ arrow <:+: front)
    (final : front.getLast? ≠ some '-') : Passes arrow front := by
  -- An arrow would begin at one of its characters.
  intro text
  induction front with
  | nil => simp
  | cons c rest ih =>
    have here : ¬ arrow <+: c :: (rest ++ text) := by
      rintro ⟨behind, whole⟩
      rw [show arrow = ['-', '>'] from rfl, List.cons_append, List.cons.injEq] at whole
      obtain ⟨rfl, whole⟩ := whole
      cases rest with
      | nil => exact final rfl
      | cons d others =>
        rw [List.cons_append, List.cons_append, List.cons.injEq] at whole
        exact absent ⟨[], others, by rw [← whole.1]; rfl⟩
    -- The rest ends as the whole does, and holds no arrow either.
    have final' : rest.getLast? ≠ some '-' := fun last => final (by
      rw [List.getLast?_cons, last]
      rfl)
    rw [List.cons_append, splitOnce_other here,
      ih (fun inside => absent (inside.trans (List.suffix_cons c rest).isInfix)) final',
      Option.map_map]
    rfl

/-- The first word of a line and what follows it are changed for themselves. -/
theorem Rewording.exists_opcode {change : Bool → Text → Text} (rewording : Rewording change)
    (line : Text) : ∃ flag, (reword change false line).opcode = change flag line.opcode ∧
      (reword change false line).operands = reword change false line.operands := by
  -- The blanks before a line only count for its first word.
  obtain ⟨flag, trimmed⟩ := rewording.exists_trim_reword false line
  have solid : Solid line.opcode := fun c member => by
    simpa using List.mem_takeWhile_imp (show c ∈ (trim line).takeWhile _ from member)
  have after : AfterWord line.operands := fun c first => by
    have stopped := List.head?_dropWhile_not (fun c => !isBlank c) (trim line)
    rw [show (trim line).dropWhile (fun c => !isBlank c) = line.operands from rfl, first]
      at stopped
    simpa using stopped
  have whole : trim line = line.opcode ++ line.operands :=
    List.takeWhile_append_dropWhile.symm
  rw [whole, rewording.reword_append solid after] at trimmed
  obtain ⟨opcode, operands⟩ :=
    takeWhile_word (rewording.solid solid) (rewording.afterWord_reword.2 after)
  exact ⟨flag, by rw [opcode.symm, ← trimmed, Text.opcode],
    by rw [← operands, ← trimmed, Text.operands]⟩

end Text

open Text (Rewording Solid Unsigned Passes reword replace replaceSpaced)

/-- The opcodes for fields are without signs. -/
theorem Instruction.unsigned_fieldOpcodes : ∀ entry ∈ fieldOpcodes, Unsigned entry.1 := by
  -- All of them are looked at.
  decide +kernel

/-- An opcode takes members if and only if what it becomes does, as long as calls stay calls. -/
theorem Reference.takesOpcode_change {change : Bool → Text → Text} (rewording : Rewording change)
    (reference : Reference) (flag : Bool) {opcode : Text}
    (calls : "invoke-".toList <+: change flag opcode ↔ "invoke-".toList <+: opcode) :
    reference.takesOpcode (change flag opcode) = reference.takesOpcode opcode := by
  -- The opcodes for fields are without signs.
  cases reference with
  | ofClass descriptor => rfl
  | ofField field =>
    -- An opcode is found in the table if an entry has it.
    have found (opcode : Text) : (Instruction.fieldOpcodes.lookup opcode).isSome ↔
        ∃ entry ∈ Instruction.fieldOpcodes, entry.1 = opcode := by
      cases same : Instruction.fieldOpcodes.lookup opcode with
      | none =>
        have other := List.lookup_eq_none_iff.1 same
        refine iff_of_false (by simp) ?_
        rintro ⟨entry, member, rfl⟩
        simpa using other entry member
      | some access =>
        exact iff_of_true rfl ⟨(opcode, access), List.mem_of_lookup same, rfl⟩
    rw [takesOpcode, takesOpcode, Bool.eq_iff_iff, found, found]
    refine exists_congr fun entry => and_congr_right fun member => ?_
    rw [eq_comm, rewording.eq_iff (Instruction.unsigned_fieldOpcodes entry member), eq_comm]
  -- An opcode for calls is told by its beginning, as the hypothesis says.
  | ofMethod method =>
    rw [takesOpcode, takesOpcode, Bool.eq_iff_iff, List.isPrefixOf_iff_prefix,
      List.isPrefixOf_iff_prefix, calls]

/-- What begins with a member is taken for an opcode if and only if the member itself is. -/
theorem Reference.takesOpcode_append {reference other : Reference} (formed : other.WellFormed)
    (rest : Text) :
    reference.takesOpcode (other.token ++ rest) = reference.takesOpcode other.token := by
  -- The member has signs, and no opcode for fields has any.
  cases reference with
  | ofClass descriptor => rfl
  | ofField field =>
    have missing {opcode : Text} (signed : ¬ Unsigned opcode) :
        Instruction.fieldOpcodes.lookup opcode = none := by
      refine List.lookup_eq_none_iff.2 fun entry member => bne_iff_ne.2 ?_
      rintro rfl
      exact signed (Instruction.unsigned_fieldOpcodes entry member)
    rw [takesOpcode, takesOpcode,
      missing (formed.not_unsigned (List.prefix_append other.token rest).isInfix),
      missing (formed.not_unsigned List.infix_rfl)]
  -- The beginning of a call is without signs, so that it is not longer than the member.
  | ofMethod method =>
    rw [takesOpcode, takesOpcode, Bool.eq_iff_iff, List.isPrefixOf_iff_prefix,
      List.isPrefixOf_iff_prefix]
    constructor
    · intro beginning
      rcases List.prefix_or_prefix_of_prefix beginning (List.prefix_append other.token rest) with
        longer | shorter
      · exact longer
      · exact absurd (by decide) (formed.not_unsigned shorter.isInfix)
    · intro beginning
      exact beginning.trans (List.prefix_append other.token rest)

/-- What stands between the opcode and the arrow is without signs if the class is. -/
theorem Instruction.unsigned_front {reference : Reference} {front operand : Text}
    (skipped : reference.skipRegisters (Text.trimStart front) = some operand)
    (owner : Unsigned (Text.trim operand)) : Unsigned front := by
  -- There are only blanks and registers besides.
  obtain ⟨passed, unsigned, same⟩ := Reference.reaches_skipRegisters skipped
  obtain ⟨lead, tail, blankLead, blankTail, whole⟩ := Text.exists_trim operand
  have front' : front = front.takeWhile Text.isBlank ++ Text.trimStart front :=
    List.takeWhile_append_dropWhile.symm
  rw [front', same, whole]
  exact (Text.unsigned_of_blank fun c => Text.isBlank_of_mem_takeWhile).append
    (unsigned.append (((Text.unsigned_of_blank blankLead).append owner).append
      (Text.unsigned_of_blank blankTail)))

/-- In a reference to a member, the class and the member hold nothing that could be taken for a part
of the other one. -/
structure Reference.Usual (reference : Reference) : Prop where
  /-- The class holds none of the signs that part names from types. -/
  owner : Unsigned reference.owner
  /-- The member holds no arrow. -/
  arrow : ¬ arrow <:+: reference.token

/-- A member of a class gets the name and the types of another one. -/
structure RenamesMember (old new : Reference) : Prop where
  /-- The old member can be read back. -/
  formed : old.WellFormed
  /-- The new member can be read back. -/
  formed' : new.WellFormed
  /-- The old member is usual. -/
  usual : old.Usual
  /-- The new member is usual. -/
  usual' : new.Usual
  /-- Both are fields or both are methods. -/
  sort : old.sameSort new
  /-- Both belong to the same class. -/
  owner : new.owner = old.owner
  /-- They are not the same. -/
  distinct : old.token ≠ new.token
  /-- The old reference has no blank. -/
  solid : Solid old.display
  /-- The new reference has no blank. -/
  solid' : Solid new.display
  /-- The class has the form of a class. -/
  isClass : Descriptor.isClass old.owner
  /-- The class holds no arrow. -/
  noArrow : ¬ arrow <:+: old.owner

/-- What a word becomes when a member is renamed, in the text of its own class or in another one. -/
def Reference.respell (old new : Reference) (here spaced : Bool) (word : Text) : Text :=
  -- Only its own class declares a member, which is done behind a space.
  replace old.display new.display
    (if here then replaceSpaced old.token new.token spaced word else word)

/-- The reference names a method. -/
def Reference.isMethod : Reference → Bool
  -- Classes and fields are other sorts.
  | ofMethod _ => true
  | _ => false

/-- Where a line begins with the old member, the new one is taken for an opcode exactly if the old
one is. -/
def Reference.KeepsOpcode (old new : Reference) (line : Text) : Prop :=
  -- Only a method can begin like the opcode of a call.
  old.token <+: Text.opcode line → old.takesOpcode new.token = old.takesOpcode old.token

/-- Where a line has the sign of comments, or gets it with the new reference, neither reference has
to do with comments or strings. -/
def Reference.KeepsComment (old new : Reference) (line : Text) : Prop :=
  -- Without that sign nothing is cut off.
  '#' ∈ line ∨ '#' ∈ new.display →
    ∀ c ∈ old.display ++ new.display, c ≠ '#' ∧ c ≠ '"' ∧ c ≠ '\\'

/-- A blank stands before the first arrow behind the opcode of a line. -/
def Instruction.spacesArrow (line : Text) : Bool :=
  -- Without an arrow there is none.
  (Text.splitOnce arrow line.operands).any fun (front, _) => front.getLast?.any Text.isBlank

open Instruction (NamesBehind unsigned_front)

namespace RenamesMember

variable {old new : Reference}

/-- The old reference is the class, an arrow and the old member. -/
theorem display (renames : RenamesMember old new) :
    old.display = old.owner ++ (arrow ++ old.token) := by
  -- It is a member reference.
  rw [Reference.display_eq renames.formed.isMember, List.append_assoc]

/-- The new reference is the class, an arrow and the new member. -/
theorem display' (renames : RenamesMember old new) :
    new.display = old.owner ++ (arrow ++ new.token) := by
  -- It is a member reference of the same class.
  rw [Reference.display_eq renames.formed'.isMember, renames.owner, List.append_assoc]

/-- Both references are of methods, or neither is. -/
theorem isMethod_eq (renames : RenamesMember old new) : old.isMethod = new.isMethod := by
  -- They are of the same sort.
  have sort := renames.sort
  cases old <;> cases new <;> first | rfl | cases sort

/-- The class begins with its mark. -/
theorem exists_owner (renames : RenamesMember old new) : ∃ name, old.owner = 'L' :: name := by
  -- Class descriptors do.
  have isClass := renames.isClass
  simp only [Descriptor.isClass, Bool.and_eq_true, List.isPrefixOf_iff_prefix] at isClass
  obtain ⟨⟨-, name, same⟩, -⟩ := isClass
  exact ⟨name, same.symm⟩

/-- The references begin with the mark of the class. -/
theorem head?_display (renames : RenamesMember old new) :
    old.display.head? = some 'L' ∧ new.display.head? = some 'L' := by
  -- The class stands first.
  obtain ⟨name, mark⟩ := renames.exists_owner
  rw [renames.display, renames.display', mark]
  exact ⟨rfl, rfl⟩

/-- Neither the class nor the members have a blank. -/
theorem solid_parts (renames : RenamesMember old new) :
    Solid old.owner ∧ Solid old.token ∧ Solid new.token := by
  -- They are parts of the references.
  have whole := renames.solid
  have whole' := renames.solid'
  rw [renames.display] at whole
  rw [renames.display'] at whole'
  exact ⟨fun c member => whole c (by simp [member]), fun c member => whole c (by simp [member]),
    fun c member => whole' c (by simp [member])⟩

/-- What holds one of the references has signs. -/
theorem signed (renames : RenamesMember old new) (text : Text) :
    (old.display <:+: text → ¬ Unsigned text) ∧ (new.display <:+: text → ¬ Unsigned text) := by
  -- The members have.
  refine ⟨fun held => renames.formed.not_unsigned (List.IsInfix.trans ?_ held),
    fun held => renames.formed'.not_unsigned (List.IsInfix.trans ?_ held)⟩
  · rw [renames.display, ← List.append_assoc]
    exact (List.suffix_append _ _).isInfix
  · rw [renames.display', ← List.append_assoc]
    exact (List.suffix_append _ _).isInfix

/-- The references are not empty. -/
theorem display_ne_nil (renames : RenamesMember old new) :
    old.display ≠ [] ∧ new.display ≠ [] := by
  -- The members are not.
  rw [renames.display, renames.display']
  simp [renames.formed.token_ne_nil, renames.formed'.token_ne_nil]

/-- Replacing the old reference leaves words without signs alone. -/
theorem rewording_replace (renames : RenamesMember old new) :
    Rewording fun _ => replace old.display new.display := by
  -- Both references have signs.
  exact Text.rewording_replace renames.display_ne_nil.1 renames.display_ne_nil.2 renames.solid'
    (fun text => (renames.signed text).1) fun text => (renames.signed text).2

/-- Replacing the old member behind spaces leaves words without signs alone. -/
theorem rewording_replaceSpaced (renames : RenamesMember old new) :
    Rewording (replaceSpaced old.token new.token) :=
  -- Both members have signs.
  Text.rewording_replaceSpaced renames.formed.token_ne_nil renames.formed'.token_ne_nil
    renames.solid_parts.2.2 (fun _ => renames.formed.not_unsigned)
    fun _ => renames.formed'.not_unsigned

/-- Arrows are looked for only behind the class and behind the members. -/
theorem passes (renames : RenamesMember old new) :
    Passes arrow old.owner ∧ Passes arrow (' ' :: old.token) ∧
      Passes arrow (' ' :: new.token) := by
  -- None of them ends like the beginning of an arrow.
  have final : old.owner.getLast? ≠ some '-' := by
    have isClass := renames.isClass
    simp only [Descriptor.isClass, Bool.and_eq_true, Text.endsWith, beq_iff_eq] at isClass
    rw [isClass.2]
    decide
  have behind {reference : Reference} (formed : reference.WellFormed) (usual : reference.Usual) :
      Passes arrow (' ' :: reference.token) := by
    refine Text.passes_arrow (fun held => ?_) ?_
    · rcases List.infix_cons_iff.1 held with beginning | later
      · rw [show arrow = '-' :: ['>'] from rfl, List.cons_prefix_cons] at beginning
        exact absurd beginning.1 (by decide)
      · exact usual.arrow later
    · obtain ⟨c, rest, same⟩ := List.exists_cons_of_ne_nil formed.token_ne_nil
      rw [same, List.getLast?_cons_cons, ← same]
      exact formed.getLast?_ne
  exact ⟨Text.passes_arrow renames.noArrow final, behind renames.formed renames.usual,
    behind renames.formed' renames.usual'⟩

/-- An opcode that begins with the old member takes members if and only if it does so with the new
member in its place. -/
theorem takesOpcode_replaceSpaced (renames : RenamesMember old new) (flag : Bool) {line : Text}
    (kept : old.KeepsOpcode new line) :
    old.takesOpcode (replaceSpaced old.token new.token flag line.opcode) =
      old.takesOpcode line.opcode := by
  -- Only the members count, and what follows them does not.
  by_cases both : flag ∧ old.token <+: line.opcode
  · obtain ⟨rest, whole⟩ := both.2
    rw [both.1, ← whole, Text.replaceSpaced_append,
      Reference.takesOpcode_append renames.formed', Reference.takesOpcode_append renames.formed,
      kept both.2]
  · rw [Text.replaceSpaced_other both]

/-- Replacing the old member behind spaces does not touch the names of instructions, because members
stand right behind their arrows. -/
theorem namesBehind_spaced (renames : RenamesMember old new) {line : Text}
    (kept : old.KeepsOpcode new line) (front : Text) :
    NamesBehind old (reword (replaceSpaced old.token new.token) false line) front ↔
      NamesBehind old line front := by
  -- Up to the arrow there are no signs, so that nothing is replaced there.
  have rewording := renames.rewording_replaceSpaced
  obtain ⟨flag, opcode, operands⟩ := rewording.exists_opcode line
  have taken := renames.takesOpcode_replaceSpaced flag kept
  have whole (text : Text) : replace (' ' :: old.token) (' ' :: new.token) text =
      reword (replaceSpaced old.token new.token) false text :=
    (Text.replace_space renames.solid_parts.2.1 text).1
  have head (token : Text) : (' ' :: token).head? = some ' ' := rfl
  -- The space that is replaced is no part of an arrow.
  have split := Text.splitOnce_replace (head old.token) (head new.token)
    (show ' ' ∉ arrow by decide) renames.passes.2.1 renames.passes.2.2 line.operands
  have token (rest : Text) : old.token <+: replace (' ' :: old.token) (' ' :: new.token) rest ↔
      old.token <+: rest := Text.prefix_replace (head _) (head _)
    (fun member => absurd (renames.solid_parts.2.1 ' ' member) (by decide)) rest
  rw [whole, ← operands] at split
  constructor
  · -- The front has no sign, so that it is what it was before.
    rintro ⟨taken', operand, rest, split', skipped, owner, beginning⟩
    have unsigned := unsigned_front skipped (owner ▸ renames.usual.owner)
    rw [split, Option.map_eq_some_iff] at split'
    obtain ⟨⟨front', rest'⟩, split', same⟩ := split'
    obtain ⟨rfl, rfl⟩ := Prod.mk.inj same
    have kept : replace (' ' :: old.token) (' ' :: new.token) front' = front' := by
      rw [whole] at unsigned ⊢
      exact rewording.reword_back unsigned
    rw [kept] at skipped ⊢
    exact ⟨by rw [← taken, ← opcode, taken'], operand, rest', split', skipped, owner,
      (token rest').1 beginning⟩
  · -- The front has no sign, so that it stays as it is.
    rintro ⟨taken', operand, rest, split', skipped, owner, beginning⟩
    have unsigned := unsigned_front skipped (owner ▸ renames.usual.owner)
    have kept : replace (' ' :: old.token) (' ' :: new.token) front = front := by
      rw [whole, rewording.reword_kept unsigned]
    rw [split', Option.map_some, Prod.map_apply, kept] at split
    exact ⟨by rw [opcode, taken, taken'], operand, _, split, skipped, owner,
      (token rest).2 beginning⟩

/-- The first arrow stays where it is when references are replaced, and the member behind it changes
if it is the old one behind its class. -/
theorem splitOnce_replace (renames : RenamesMember old new) (text : Text) :
    Text.splitOnce arrow (replace old.display new.display text) =
      (Text.splitOnce arrow text).map fun (front, rest) =>
        (front, if old.owner <:+ front ∧ old.token <+: rest then
          new.token ++ replace old.display new.display (rest.drop old.token.length)
        else replace old.display new.display rest) := by
  -- Each reference has its only arrow behind the class, so that no other one comes to stand first.
  obtain ⟨name, mark⟩ := renames.exists_owner
  obtain ⟨head, head'⟩ := renames.head?_display
  have nonempty := renames.display_ne_nil.1
  -- The class of the reference holds no arrow.
  have here (rest : Text) : Text.splitOnce arrow (old.owner ++ (arrow ++ rest)) =
      some (old.owner, rest) := by
    have first : Text.splitOnce arrow (arrow ++ rest) = some ([], rest) := rfl
    simp only [renames.passes.1 (arrow ++ rest), first, Option.map_some, List.append_nil]
  induction text using Text.replace_induct nonempty with
  | nil => rfl
  | found rest ih =>
    rw [Text.replace_found nonempty, renames.display', renames.display]
    simp only [List.append_assoc, here, Option.map_some, List.suffix_refl, List.prefix_append,
      and_self, if_true, List.drop_left]
  -- The character stays, and with it whether an arrow begins there.
  | other c rest absent ih =>
    have kept := Text.afterPrefix?_replace head head' (show 'L' ∉ arrow by decide)
      (c :: rest)
    rw [Text.replace_other absent] at kept ⊢
    rw [Text.splitOnce_cons, Text.splitOnce_cons, kept, ih]
    cases Text.afterPrefix? arrow (c :: rest) with
    | some behind => simp [mark]
    | none =>
      cases split : Text.splitOnce arrow rest with
      | none => rfl
      | some parts =>
        obtain ⟨front, behind⟩ := parts
        -- The class does not begin at the character, because no reference does.
        have same : old.owner <:+ c :: front ∧ old.token <+: behind ↔
            old.owner <:+ front ∧ old.token <+: behind := by
          refine and_congr_left fun ⟨back, token⟩ => ?_
          rw [List.suffix_cons_iff, or_iff_right_iff_imp]
          intro owner
          refine absurd ⟨back, ?_⟩ absent
          rw [Text.eq_of_splitOnce split, ← token, renames.display, owner]
          simp
        simp [same]

/-- A member begins what stands behind an arrow if and only if it did before references were
replaced. -/
theorem prefix_replace (renames : RenamesMember old new) (text : Text) :
    old.token <+: replace old.display new.display text ↔ old.token <+: text := by
  -- It ends before the first arrow, up to which the text stays.
  -- A token without an arrow ends before the arrow or at its hyphen.
  have upTo {text front rest : Text} (split : Text.splitOnce arrow text = some (front, rest)) :
      old.token <+: text ↔ old.token <+: front ++ ['-'] := by
    have whole : text = (front ++ ['-']) ++ '>' :: rest := by
      rw [Text.eq_of_splitOnce split, show arrow = ['-', '>'] from rfl]
      simp
    rw [whole]
    refine ⟨fun ⟨back, same⟩ => ?_, fun short => short.trans (List.prefix_append ..)⟩
    rcases List.append_eq_append_iff.1 same with ⟨more, short, -⟩ | ⟨more, long, behind⟩
    · exact ⟨more, short.symm⟩
    · cases more with
      | nil => exact ⟨[], by simpa using long⟩
      | cons c others =>
        rw [List.cons_append, List.cons.injEq] at behind
        refine absurd ⟨front, others, ?_⟩ renames.usual.arrow
        rw [long, ← behind.1, show arrow = ['-', '>'] from rfl]
        simp
  have split := renames.splitOnce_replace text
  cases first : Text.splitOnce arrow text with
  -- Without an arrow there is no reference, so that the text stays.
  | none =>
    have absent : ¬ old.display <:+: text := fun held => by
      have inside : arrow <:+: old.display :=
        ⟨old.owner, old.token, by rw [renames.display, List.append_assoc]⟩
      obtain ⟨before, after, found⟩ := Text.exists_splitOnce (inside.trans held)
      rw [first] at found
      cases found
    rw [Text.replace_absent renames.display_ne_nil.1 absent]
  | some parts =>
    rw [first, Option.map_some] at split
    rw [upTo split, upTo first]

/-- No token begins behind a different one of the same sort. -/
theorem not_prefix (renames : RenamesMember old new) (rest : Text) :
    ¬ old.token <+: new.token ++ rest := by
  -- One of the tokens would begin the other one.
  intro beginning
  rcases List.prefix_or_prefix_of_prefix beginning (List.prefix_append new.token rest) with
    inside | inside
  · exact renames.distinct (renames.formed.token_eq_of_prefix renames.formed' renames.sort inside)
  · exact renames.distinct (renames.formed'.token_eq_of_prefix renames.formed
      (Reference.sameSort_symm renames.sort) inside).symm

/-- An opcode is that of a call if and only if it is so when references are replaced. -/
theorem calls_replace (renames : RenamesMember old new) (word : Text) :
    "invoke-".toList <+: replace old.display new.display word ↔ "invoke-".toList <+: word := by
  -- The references begin with another letter than those of the opcode.
  obtain ⟨head, head'⟩ := renames.head?_display
  exact Text.prefix_replace head head' (by decide) word

/-- Replacing the references leaves those names of the old member that a blank parts from the
arrow. -/
theorem namesBehind_replace (renames : RenamesMember old new) (line front : Text) :
    NamesBehind old (reword (fun _ => replace old.display new.display) false line) front ↔
      NamesBehind old line front ∧ ¬ old.owner <:+ front := by
  -- The first arrow stays, and the member behind it changes only behind the class.
  have rewording := renames.rewording_replace
  obtain ⟨flag, opcode, operands⟩ := rewording.exists_opcode line
  have taken := old.takesOpcode_change rewording flag (renames.calls_replace line.opcode)
  have split := renames.splitOnce_replace line.operands
  rw [Text.replace_eq_reword renames.display_ne_nil.1 renames.solid false, ← operands] at split
  constructor
  · rintro ⟨taken', operand, rest, split', skipped, owner, beginning⟩
    rw [split, Option.map_eq_some_iff] at split'
    obtain ⟨⟨front', rest'⟩, split', same⟩ := split'
    obtain ⟨rfl, rfl⟩ := Prod.mk.inj same
    -- Where the reference stood, the new token stands now.
    split at beginning
    · exact absurd beginning (renames.not_prefix _)
    · next apart =>
      have token := (renames.prefix_replace rest').1 beginning
      exact ⟨⟨by rw [← taken, ← opcode, taken'], operand, rest', split', skipped, owner, token⟩,
        fun behind => apart ⟨behind, token⟩⟩
  · rintro ⟨⟨taken', operand, rest, split', skipped, owner, beginning⟩, apart⟩
    -- The reference did not stand here, so that the token is still there.
    simp only [split', Option.map_some, apart, false_and, if_false] at split
    exact ⟨by rw [opcode, taken, taken'], operand, _, split, skipped, owner,
      (renames.prefix_replace rest).2 beginning⟩

/-- A blank parts the class from the arrow if and only if the class does not stand right before
it. -/
theorem spacesArrow_iff (renames : RenamesMember old new) {line front : Text}
    (named : NamesBehind old line front) :
    Instruction.spacesArrow line ↔ ¬ old.owner <:+ front := by
  -- Behind the class there can only be blanks.
  obtain ⟨-, operand, rest, split, skipped, owner, -⟩ := named
  obtain ⟨passed, -, same⟩ := Reference.reaches_skipRegisters skipped
  obtain ⟨lead, tail, -, blank, whole⟩ := Text.exists_trim operand
  have nonempty : old.owner ≠ [] := by
    obtain ⟨name, mark⟩ := renames.exists_owner
    simp [mark]
  -- Between the class and the arrow there is what has been trimmed off.
  have parts : front = (front.takeWhile Text.isBlank ++ passed ++ lead) ++ old.owner ++ tail := by
    have front' := List.takeWhile_append_dropWhile (p := Text.isBlank) (l := front)
    rw [show front.dropWhile Text.isBlank = Text.trimStart front from rfl, same, whole,
      owner] at front'
    simpa using front'.symm
  have last {c : Char} (final : old.owner.getLast? = some c) : Text.isBlank c = false :=
    renames.solid_parts.1 c (List.mem_of_getLast? final)
  simp only [Instruction.spacesArrow, split, Option.any_some]
  -- The class ends with no blank.
  constructor
  · rintro spaced ⟨before, ends⟩
    rw [← ends, List.getLast?_append_of_ne_nil before nonempty,
      List.getLast?_eq_some_getLast nonempty, Option.any_some,
      last (List.getLast?_eq_some_getLast nonempty)] at spaced
    cases spaced
  · intro apart
    -- If nothing had been trimmed off, the class would stand right before the arrow.
    have some' : tail ≠ [] := by
      rintro rfl
      rw [List.append_nil] at parts
      exact apart ⟨_, parts.symm⟩
    rw [parts, List.getLast?_append_of_ne_nil _ some', List.getLast?_eq_some_getLast some',
      Option.any_some]
    exact blank _ (List.getLast_mem some')

/-- What words become leaves words without signs alone. -/
theorem rewording (renames : RenamesMember old new) (here : Bool) :
    Rewording (old.respell new here) := by
  -- Both steps do.
  cases here with
  | false => exact renames.rewording_replace
  | true => exact renames.rewording_replaceSpaced.comp renames.rewording_replace

/-- Changing the words is replacing the member behind spaces, in its own class, and then the
references. -/
theorem reword_respell (renames : RenamesMember old new) (here : Bool) (text : Text) :
    reword (old.respell new here) false text = replace old.display new.display
      (if here then replace (' ' :: old.token) (' ' :: new.token) text else text) := by
  -- Neither the members nor the references have blanks.
  rw [Text.replace_eq_reword renames.display_ne_nil.1 renames.solid false]
  cases here with
  | false => rfl
  | true =>
    rw [if_pos rfl, (Text.replace_space renames.solid_parts.2.1 text).1,
      Text.reword_reword renames.rewording_replaceSpaced]
    rfl

/-- A renaming of the member changes the text of a class word by word. -/
theorem rewrite_eq (renames : RenamesMember old new) {task : Renaming} (fromOld : task.old = old)
    (toNew : task.new = new) (owner text : Text) : task.rewrite owner text =
      reword (old.respell new (owner = old.owner)) false text := by
  -- The member is replaced behind spaces before the references are.
  rw [renames.reword_respell]
  simp only [Renaming.rewrite, fromOld, toNew, Reference.anchored?,
    Reference.member?_eq renames.formed.isMember, Reference.member?_eq renames.formed'.isMember,
    Option.map_some, decide_eq_true_eq]

/-- After the renaming, a line names the old member if and only if it did before and a blank parted
the class from the arrow. -/
theorem names_reword (renames : RenamesMember old new) {here : Bool} {line : Text}
    (kept : here → old.KeepsOpcode new line) :
    (Instruction.decode (reword (old.respell new here) false line)).names old ↔
      (Instruction.decode line).names old ∧ Instruction.spacesArrow line := by
  -- The two steps are looked at one after the other.
  have step (front : Text) : NamesBehind old (reword (old.respell new here) false line) front ↔
      NamesBehind old line front ∧ ¬ old.owner <:+ front := by
    cases here with
    | false => exact renames.namesBehind_replace line front
    | true =>
      have both : reword (fun _ => replace old.display new.display) false
          (reword (replaceSpaced old.token new.token) false line) =
            reword (old.respell new true) false line :=
        Text.reword_reword renames.rewording_replaceSpaced false line
      rw [← both, renames.namesBehind_replace, renames.namesBehind_spaced (kept rfl)]
  rw [Instruction.names_decode_iff renames.formed, Instruction.names_decode_iff renames.formed]
  simp only [step]
  constructor
  · rintro ⟨front, named, apart⟩
    exact ⟨⟨front, named⟩, (renames.spacesArrow_iff named).2 apart⟩
  · rintro ⟨⟨front, named⟩, spaced⟩
    exact ⟨front, named, (renames.spacesArrow_iff named).1 spaced⟩

end RenamesMember

end Smali
