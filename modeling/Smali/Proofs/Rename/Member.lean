import Smali.Proofs.ClassText.Lookup
import Smali.Proofs.Rename.Collection
import Smali.Proofs.Rename.Declarations

/-! A member that is renamed is found under its new name alone exactly if its declaration and all
instructions that name it are written as the renaming expects. -/

namespace Smali

open Text (reword)

/-- A reference holds the characters of its member. -/
theorem Reference.WellFormed.mem_display {reference : Reference} (formed : reference.WellFormed)
    {c : Char} (inside : c ∈ reference.token) : c ∈ reference.display := by
  -- The member ends the reference.
  rw [Reference.display_eq formed.isMember]
  exact List.mem_append_right _ inside

/-- Where a member of a class is renamed, the lines of the class stay what they are. -/
structure ClassText.KeepsLines (old new : Reference) (source : ClassText) : Prop where
  /-- The headers of methods keep their comments, if a method is renamed. -/
  comments : old.isMethod → ∀ line ∈ Text.lines source.text, line.opensWith ".method".toList →
    old.KeepsComment new line.content
  /-- The lines of bodies keep their opcodes. -/
  opcodes : ∀ method ∈ source.methods, ∀ line ∈ Text.lines method.body,
    old.KeepsOpcode new line.content

namespace RenamesMember

variable {old new : Reference}

/-- Apart from spaces, all characters come from the text or from the new reference. -/
theorem mem_of_mem_reword (renames : RenamesMember old new) {here : Bool} {text : Text} {c : Char}
    (visible : c ≠ ' ') (member : c ∈ reword (old.respell new here) false text) :
    c ∈ text ∨ c ∈ new.display := by
  -- The new member is a part of the new reference.
  rw [renames.reword_respell] at member
  rcases Text.mem_of_mem_replace renames.display_ne_nil.1 member with before | inside
  · cases here with
    | false => exact .inl before
    | true =>
      rw [if_pos rfl] at before
      refine (Text.mem_of_mem_replace (by simp) before).imp_right fun inside => ?_
      exact renames.formed'.mem_display (List.mem_of_ne_of_mem visible inside)
  · exact .inr inside

/-- Cutting off a comment and renaming do not interfere where the comment is kept. -/
theorem beforeComment_reword (renames : RenamesMember old new) (here : Bool) {line : Text}
    (kept : old.KeepsComment new line) :
    Text.beforeComment .outside (reword (old.respell new here) false line) =
      reword (old.respell new here) false (Text.beforeComment .outside line) := by
  -- Neither reference has to do with comments, or there are none before and afterwards.
  by_cases mark : '#' ∈ line ∨ '#' ∈ new.display
  · have plain := List.forall_mem_append.1 (kept mark)
    have spaced {reference : Reference} (formed : reference.WellFormed)
        (plain : ∀ c ∈ reference.display, c ≠ '#' ∧ c ≠ '"' ∧ c ≠ '\\') :
        ∀ c ∈ ' ' :: reference.token, c ≠ '#' ∧ c ≠ '"' ∧ c ≠ '\\' :=
      List.forall_mem_cons.2 ⟨by decide, fun c inside => plain c (formed.mem_display inside)⟩
    obtain ⟨nonempty, nonempty'⟩ := renames.display_ne_nil
    rw [renames.reword_respell, renames.reword_respell,
      Text.beforeComment_replace nonempty nonempty' plain.1 plain.2]
    cases here with
    | false => rfl
    | true =>
      rw [if_pos rfl, if_pos rfl, Text.beforeComment_replace (by simp) (by simp)
        (spaced renames.formed plain.1) (spaced renames.formed' plain.2)]
  · have whole {text : Text} (absent : '#' ∉ text) : Text.beforeComment .outside text = text :=
      Text.uncommented_of_not_mem absent .outside
    rw [whole (not_or.1 mark).1,
      whole fun member => mark (renames.mem_of_mem_reword (by decide) member)]

/-- A text without an arrow holds neither of the references. -/
theorem replace_token (renames : RenamesMember old new) {text : Text}
    (absent : ¬ arrow <:+: text) : Text.replace old.display new.display text = text := by
  -- There is an arrow in the old one.
  have inside : arrow <:+: old.display :=
    ⟨old.owner, old.token, by rw [renames.display, List.append_assoc]⟩
  exact Text.replace_absent renames.display_ne_nil.1 fun held => absent (inside.trans held)

/-- Behind a space, in its own class, the old member becomes the new one. -/
theorem respell_token (renames : RenamesMember old new) :
    old.respell new true true old.token = new.token := by
  -- The new member holds no arrow.
  have replaced := Text.replaceSpaced_append old.token new.token []
  rw [List.append_nil, List.append_nil] at replaced
  rw [Reference.respell, if_pos rfl, replaced, renames.replace_token renames.usual'.arrow]

/-- In its own class, only the old member becomes the old member, and only where it does not stand
behind a space. -/
theorem eq_respell_iff (renames : RenamesMember old new) {spaced : Bool} {word : Text} :
    old.token = old.respell new true spaced word ↔ word = old.token ∧ spaced = false := by
  -- What becomes something without an arrow has no reference to be replaced.
  have back {word : Text} (same : old.token = Text.replace old.display new.display word) :
      word = old.token := by
    rw [same, Text.replace_absent renames.display_ne_nil.1]
    intro held
    refine renames.usual.arrow (List.IsInfix.trans ?_
      (same ▸ Text.infix_replace renames.display_ne_nil.1 held))
    exact ⟨old.owner, new.token, by rw [renames.display', List.append_assoc]⟩
  rw [Reference.respell, if_pos rfl]
  constructor
  · intro same
    -- Behind a space the token gives way to the new one, which it does not begin.
    by_cases both : spaced ∧ old.token <+: word
    · obtain ⟨rfl, rest, rfl⟩ := both
      rw [Text.replaceSpaced_append] at same
      exact absurd (back same ▸ List.prefix_refl _) (renames.not_prefix rest)
    · rw [Text.replaceSpaced_other both] at same
      obtain rfl := back same
      exact ⟨rfl, by simpa using both⟩
  · rintro ⟨rfl, rfl⟩
    rw [Text.replaceSpaced_other (by simp), renames.replace_token renames.usual.arrow]

variable {text : Text} {source after : ClassText}

/-- A class that declares the old member declares the new one instead of it after the renaming
exactly if the new one has a name and the old one stood behind spaces. -/
theorem declares_iff (renames : RenamesMember old new) (done : ClassText.parse text = .ok source)
    (done' : ClassText.parse (reword (old.respell new true) false text) = .ok after)
    (kept : source.KeepsLines old new) (declared : source.Declares old) :
    after.Declares new ∧ ¬ after.Declares old ↔ new.name ≠ [] ∧ source.DeclaresSpaced old := by
  -- The old member only stays where it does not stand behind a space.
  obtain ⟨outside, blocks, accounts⟩ := ClassText.exists_accounts done
  obtain ⟨outside', blocks', accounts'⟩ := ClassText.exists_accounts done'
  obtain ⟨named, line, member, front, shown⟩ := (accounts.declares_iff renames.formed).1 declared
  have own : source.text = text := ClassText.text_of_parse done
  subst own
  have comments : old.isMethod → ∀ line ∈ Text.lines source.text,
      line.opensWith ".method".toList → _ := fun isMethod line inside opened =>
    renames.beforeComment_reword true (kept.comments isMethod line inside opened)
  -- What is declared afterwards is what some declaration has become.
  have stays := accounts.declares_reword (renames.rewording true) accounts' renames.formed comments
  have comes := accounts.declares_reword (renames.rewording true) accounts' renames.formed'
    (renames.isMethod_eq ▸ comments)
  obtain ⟨lines, shows'⟩ := Reference.declaring_of_sameSort renames.sort
  have gone : ¬ after.Declares old ↔ source.DeclaresSpaced old := by
    rw [stays, accounts.declaresSpaced_iff renames.formed named]
    simp only [renames.eq_respell_iff]
    constructor
    · intro none' line member front shown
      by_contra apart
      exact none' ⟨named, line, member, front, _, shown, rfl, by simpa using apart⟩
    · rintro all ⟨-, line, member, front, _, shown, rfl, apart⟩
      simp [all line member front shown] at apart
  -- The new member is declared on the line of the old one.
  rw [gone]
  refine and_congr_left fun spaced => ?_
  have final := (accounts.declaresSpaced_iff renames.formed named).1 spaced line member front shown
  rw [comes, and_iff_left_iff_imp]
  refine fun _ => ⟨line, ?_, front, old.token, ?_, ?_⟩
  · rwa [← lines]
  · rwa [← shows']
  · rw [final, beq_self_eq_true, renames.respell_token]

/-- The bodies of a class name the old member after the renaming exactly if they did so before with
a blank between the class and the arrow. -/
theorem names_iff (renames : RenamesMember old new) {here : Bool}
    (done : ClassText.parse text = .ok source)
    (done' : ClassText.parse (reword (old.respell new here) false text) = .ok after)
    (kept : here → source.KeepsLines old new) :
    (∃ method ∈ after.methods, ∃ line ∈ Text.lines method.body,
        (Instruction.decode line.content).names old) ↔
      ∃ method ∈ source.methods, ∃ line ∈ Text.lines method.body,
        (Instruction.decode line.content).names old ∧ Instruction.spacesArrow line.content := by
  -- The instructions are looked at line by line.
  obtain ⟨outside, blocks, accounts⟩ := ClassText.exists_accounts done
  obtain ⟨outside', blocks', accounts'⟩ := ClassText.exists_accounts done'
  rw [accounts.exists_line_reword (renames.rewording here) accounts' fun content =>
    (Instruction.decode content).names old]
  refine exists_congr fun method => and_congr_right fun member => exists_congr fun line =>
    and_congr_right fun inside => ?_
  exact renames.names_reword fun own => (kept own).opcodes method member line inside

end RenamesMember

namespace ClassText

/-- A member is found in the class with a full reference. -/
def finds (reference : Reference) (source : ClassText) : Bool :=
  -- Fields and methods are looked up apart.
  match reference with
  | .ofClass _ => false
  | .ofField field => (source.field? field.display).isSome
  | .ofMethod method => (source.method? method.display).isSome

/-- A member is found exactly if the class declares it. -/
theorem finds_iff {source : ClassText} {reference : Reference}
    (split : Text.splitOnce arrow reference.display = some (reference.owner, reference.token))
    (own : source.descriptor = reference.owner) :
    source.finds reference ↔ source.Declares reference := by
  -- The first declaration counts, if there is one.
  have part : memberPart? source.descriptor reference.display = some reference.token := by
    rw [memberPart?, split]
    simp [own]
  -- Looking for an index and looking at it is looking for a member.
  have first {α : Type} (members : List α) (test : α → Bool) :
      ((members.findIdx? test).bind fun index => members[index]?).isSome ↔
        ∃ member ∈ members, test member := by
    rw [← List.any_eq_true, ← List.findIdx?_isSome]
    cases found : members.findIdx? test with
    | none => simp
    | some index =>
      obtain ⟨inside, -⟩ := List.findIdx?_eq_some_iff_getElem.1 found
      simp [inside]
  cases reference with
  | ofClass descriptor => simp [finds, Declares]
  | ofField field =>
    have part' : memberPart? source.descriptor field.display = some field.member := part
    simp only [finds, field?, fieldIndex?, part', Option.bind_some, first, Declares, beq_iff_eq]
  | ofMethod method =>
    have part' : memberPart? source.descriptor method.display = some method.member := part
    simp only [finds, method?, methodIndex?, part', Option.bind_some, first, Declares, beq_iff_eq]

/-- Two members of the same sort that are written alike are declared by the same classes. -/
theorem Declares.of_token {source : ClassText} {reference other : Reference}
    (declared : source.Declares reference) (same : reference.sameSort other)
    (token : reference.token = other.token) : source.Declares other := by
  -- Only what stands behind the arrow is compared.
  cases reference <;> cases other <;> cases same
  · exact declared
  · obtain ⟨member, inside, here⟩ := declared
    exact ⟨member, inside, here.trans token⟩
  · obtain ⟨member, inside, here⟩ := declared
    exact ⟨member, inside, here.trans token⟩

end ClassText

namespace Collection

variable {collection : Collection}

/-- The lookup of a collection finds a class or a member. -/
def finds (reference : Reference) (collection : Collection) : Bool :=
  -- Each sort has a lookup of its own.
  match reference with
  | .ofClass descriptor => (collection.document? descriptor).isSome
  | .ofField field => (collection.field? field.display).isSome
  | .ofMethod method => (collection.method? method.owner method.display).isSome

/-- A member is found exactly if the document of its class declares it. -/
theorem finds_iff {reference : Reference} (member : reference.isMember)
    (split : Text.splitOnce arrow reference.display = some (reference.owner, reference.token)) :
    collection.finds reference ↔
      ∃ document, collection.document? reference.owner = some document ∧
        document.Declares reference := by
  -- The class tells where to look.
  have there (lookup : Document → Bool)
      (same : ∀ document, collection.document? reference.owner = some document →
        (lookup document ↔ document.Declares reference)) :
      (collection.document? reference.owner).any lookup ↔
        ∃ document, collection.document? reference.owner = some document ∧
          document.Declares reference := by
    cases found : collection.document? reference.owner with
    | none => simp
    | some document => simp [same document found]
  -- The document found is the one that defines the class of the reference.
  have own {document : Document}
      (found : collection.document? reference.owner = some document) :
      document.finds reference ↔ document.Declares reference :=
    ClassText.finds_iff split (by simpa using List.find?_some found)
  rw [← there (fun document => document.finds reference) fun document => own]
  cases reference with
  | ofClass descriptor => cases member
  | ofField field =>
    have part : ownerPart? field.display = some field.owner := by
      rw [ownerPart?, show Text.splitOnce arrow field.display = _ from split]
      rfl
    rw [finds, field?, part, Option.bind_some]
    cases found : collection.document? field.owner <;>
      simp [Reference.owner, found, ClassText.finds]
  | ofMethod method =>
    rw [finds, method?]
    cases found : collection.document? method.owner <;>
      simp [Reference.owner, found, ClassText.finds]

/-- An instruction of a document names a reference. -/
def Names (reference : Reference) (collection : Collection) : Prop :=
  -- The instructions are decoded line by line.
  ∃ document ∈ collection.documents, ∃ method ∈ document.methods,
    ∃ instruction ∈ method.instructions, instruction.names reference

/-- The instructions are looked at line by line. -/
theorem names_iff {reference : Reference} : collection.Names reference ↔
    ∃ document ∈ collection.documents, ∃ method ∈ document.methods,
      ∃ line ∈ Text.lines method.body, (Instruction.decode line.content).names reference := by
  -- Each line holds one instruction.
  simp only [Names, Method.instructions, List.mem_map, exists_exists_and_eq_and]

/-- The renaming of a member is planned if the new member is of the same sort and the same class,
which does not declare it yet. -/
theorem planRenaming_member {old new : Text} {before after : Reference}
    (read : Reference.parse old = .ok before) (read' : Reference.parse new = .ok after)
    (member : before.isMember) {task : Renaming}
    (planned : collection.planRenaming old new = .ok task) :
    before.sameSort after ∧ before.owner = after.owner ∧ task.old = before ∧ task.new = after ∧
      (collection.document? after.owner).any (fun document => document.finds after) = false := by
  -- A member cannot become a class.
  simp only [planRenaming, read, read', bind_eq_ok, Except.ok.injEq, exists_eq_left'] at planned
  split at planned
  · exact absurd planned refuse_ne_ok
  · next same =>
    have sort : before.sameSort after := by simpa using same
    simp only [bind_eq_ok] at planned
    obtain ⟨_, free, planned⟩ := planned
    cases after with
    | ofClass descriptor =>
      cases before with
      | ofClass descriptor' => cases member
      -- Two members may differ in their names alone.
      | ofField field | ofMethod method => cases sort
    | ofField field | ofMethod method =>
      obtain rfl := pure_eq_ok.1 planned
      simp only [checkTarget] at free
      split at free
      · next owner =>
        refine ⟨sort, owner, rfl, rfl, ?_⟩
        split at free
        · exact absurd free refuse_ne_ok
        -- The name is not taken yet.
        · next vacant => exact Bool.eq_false_iff.2 vacant
      · exact absurd free refuse_ne_ok

end Collection

/-- A document that is renamed without a failure holds what is read from the new text. -/
theorem Renaming.parse_rewrite {task : Renaming} {document : Document}
    (settled : document.Settled) (success : (task.applyTo document).2.failures = []) :
    ClassText.parse (task.rewrite document.descriptor document.text) =
      .ok (task.applyTo document).1.toClassText := by
  -- A text that stays is read as before.
  have applied := task.applied settled
  generalize task.applyTo document = outcome at applied success ⊢
  cases applied with
  | kept same => rw [same]; exact settled
  | refused unread => cases success
  | rewritten changed read => rw [read, Document.toClassText_moveTo]; rfl

namespace ClassText

/-- A class text is what is read from its text, and another one is what is read from it when a
member is renamed. -/
structure Respelled (old new : Reference) (before after : ClassText) : Prop where
  /-- The text itself is read. -/
  read : parse before.text = .ok before
  /-- The new text is read. -/
  respelled : parse (reword (old.respell new (before.descriptor = old.owner)) false before.text) =
    .ok after

/-- The bodies name a member only without a blank between the class and the arrow. -/
def NamesTightly (reference : Reference) (source : ClassText) : Prop :=
  -- The lines that name other members are not looked at.
  ∀ method ∈ source.methods, ∀ line ∈ Text.lines method.body,
    (Instruction.decode line.content).names reference → Instruction.spacesArrow line.content = false

end ClassText

namespace RenamesMember

variable {old new : Reference} {collection renamed : Collection}

/-- The document of the class stays the first one of it. -/
theorem exists_document? (renames : RenamesMember old new)
    (related : List.Forall₂ (fun before after : Document =>
      before.Respelled old new after.toClassText) collection.documents renamed.documents)
    {document : Document} (own : collection.document? old.owner = some document) :
    ∃ document', renamed.document? old.owner = some document' ∧
      document.Respelled old new document'.toClassText := by
  -- No other document comes to be one of the class.
  have first := related.find? (fun document => document.descriptor == old.owner)
    (fun document => document.descriptor == old.owner) fun before after here => by
      rw [Bool.eq_iff_iff, beq_iff_eq, beq_iff_eq]
      exact (ClassText.descriptor_reword (renames.rewording _) here.read here.respelled
        renames.usual.owner).symm
  rw [show collection.documents.find? _ = some document from own] at first
  cases found : renamed.document? old.owner with
  | none =>
    rw [show renamed.documents.find? _ = none from found] at first
    cases first
  | some document' =>
    rw [show renamed.documents.find? _ = some document' from found] at first
    cases first with
    | some here => exact ⟨document', rfl, here⟩

/-- No instruction names the old member after the renaming exactly if no blank stood between its
class and the arrow before. -/
theorem not_names_iff (renames : RenamesMember old new)
    (related : List.Forall₂ (fun before after : Document =>
      before.Respelled old new after.toClassText) collection.documents renamed.documents)
    (kept : ∀ document ∈ collection.documents, document.descriptor = old.owner →
      document.KeepsLines old new) :
    ¬ renamed.Names old ↔ ∀ document ∈ collection.documents, document.NamesTightly old := by
  -- Each document is looked at for itself, and only the members of its own class are respelled.
  have same := ((List.forall₂_and_left _ _).2 ⟨kept, related⟩).exists_iff
    fun before after ⟨kept, here⟩ =>
      (renames.names_iff here.read here.respelled fun own => kept (of_decide_eq_true own)).symm
  rw [Collection.names_iff, ← same]
  simp only [ClassText.NamesTightly, not_exists, not_and, Bool.not_eq_true]

/-- A member that is there and can be renamed to a new one gets its name and its types in the same
class. -/
theorem of_planned (settled : collection.Settled) {before after : Text}
    (read : Reference.parse before = .ok old) (read' : Reference.parse after = .ok new)
    (member : old.isMember) (solid : Text.Solid before) (solid' : Text.Solid after)
    (usual : old.Usual) (usual' : new.Usual) {task : Renaming}
    (planned : collection.planRenaming before after = .ok task)
    (found : collection.finds old) : RenamesMember old new := by
  -- The class of the document that declares the member has the form of a class.
  obtain ⟨sort, owner, -, -, vacant⟩ := Collection.planRenaming_member read read' member planned
  obtain ⟨formed, rfl, split⟩ := Reference.wellFormed_of_parse solid read member
  obtain ⟨formed', rfl, split'⟩ :=
    Reference.wellFormed_of_parse solid' read' (Reference.isMember_of_sameSort sort ▸ member)
  obtain ⟨document, own, declared⟩ := (Collection.finds_iff member split).1 found
  have here : document.descriptor = old.owner := by simpa using List.find?_some own
  have distinct : old.token ≠ new.token := fun same => by
    have declared' := declared.of_token sort same
    rw [← ClassText.finds_iff split' (here.trans owner)] at declared'
    simp [← owner, own, declared'] at vacant
  have isClass : Descriptor.isClass old.owner :=
    here ▸ ClassText.isClass_of_parse (settled document (List.mem_of_find?_eq_some own))
  exact { formed, formed', usual, usual', sort, distinct, solid, solid', isClass
          owner := owner.symm
          noArrow := Text.not_infix_of_splitOnce (by decide) split }

/-- Without failures, each document holds what is read from the new text. -/
theorem forall₂_respelled (renames : RenamesMember old new) {task : Renaming}
    (fromOld : task.old = old) (toNew : task.new = new) (settled : collection.Settled)
    (success : collection.documents.flatMap (fun document =>
      (task.applyTo document).2.failures) = []) :
    List.Forall₂ (fun before after : Document => before.Respelled old new after.toClassText)
      collection.documents (collection.documents.map fun document =>
        (task.applyTo document).1) := by
  -- The documents are renamed one by one.
  rw [List.forall₂_map_right_iff]
  refine List.forall₂_same.2 fun document member => ⟨settled document member, ?_⟩
  rw [← renames.rewrite_eq fromOld toNew]
  exact Renaming.parse_rewrite (settled document member)
    (List.flatMap_eq_nil_iff.1 success document member)

end RenamesMember

namespace Collection

/-- When a member of texts that were just read is renamed without a failure, and the lines of its
class keep their comments and opcodes, it is found under its new name alone, and no instruction
names it by the old one, exactly if the new one has a name, the old one was declared behind spaces,
and no blank stood between the class and the arrow. -/
theorem rename_member_iff {config : Config} {sources : List (Path × Text)} {old new : Text}
    {before after : Reference} (read : Reference.parse old = .ok before)
    (read' : Reference.parse new = .ok after) (member : before.isMember)
    (solid : Text.Solid old) (solid' : Text.Solid new) (usual : before.Usual) (usual' : after.Usual)
    (kept : ∀ document ∈ (ofSources config sources).documents,
      document.descriptor = before.owner → document.KeepsLines before after)
    {renamed : Collection} {report : RenameReport}
    (done : (ofSources config sources).rename old new = .ok (renamed, report))
    (success : report.failures = []) (found : (ofSources config sources).finds before) :
    renamed.finds after ∧ ¬ renamed.finds before ∧ ¬ renamed.Names before ↔
      after.name ≠ [] ∧
        (∀ document, (ofSources config sources).document? before.owner = some document →
          document.DeclaresSpaced before) ∧
        ∀ document ∈ (ofSources config sources).documents, document.NamesTightly before := by
  -- The document of the class decides on the lookups, and all documents on the instructions.
  have settled := settled_ofSources config sources
  generalize ofSources config sources = collection at settled kept done found ⊢
  -- The report tells that both references can be parsed and have one class.
  obtain ⟨task, planned, -, documents, failures⟩ := exists_of_rename done
  obtain ⟨sort, owner, fromOld, toNew, -⟩ := planRenaming_member read read' member planned
  have member' : after.isMember := Reference.isMember_of_sameSort sort ▸ member
  have renames := RenamesMember.of_planned settled read read' member solid solid' usual usual'
    planned found
  have related := renames.forall₂_respelled fromOld toNew settled (failures.symm.trans success)
  rw [← documents] at related
  obtain ⟨-, rfl, split⟩ := Reference.wellFormed_of_parse solid read member
  obtain ⟨-, rfl, split'⟩ := Reference.wellFormed_of_parse solid' read' member'
  -- The document found before and the one found afterwards correspond to each other.
  obtain ⟨document, own, declared⟩ := (finds_iff member split).1 found
  obtain ⟨document', own', respelled⟩ := renames.exists_document? related own
  have here : document.descriptor = before.owner := by simpa using List.find?_some own
  have respelled' := respelled.respelled
  rw [decide_eq_true here] at respelled'
  have declares := renames.declares_iff respelled.read respelled'
    (kept document (List.mem_of_find?_eq_some own) here) declared
  rw [finds_iff member' split', finds_iff member split, renames.not_names_iff related kept, ← owner,
    own', own]
  simp only [Option.some.injEq, exists_eq_left', forall_eq']
  rw [← and_assoc, declares, and_assoc]

/-- A class with a method and one that calls it, where the method begins like the opcode of a call
and a comment follows its header. -/
def calledSample : Collection :=
  -- The method stands behind a space, and its class right before the arrow.
  ofSources {} [(⟨"A.smali".toList⟩,
      (".class LA;\n.super Lo;\n.method invoke-impl()V # \"invoke-impl()V\n" ++
        "return-void\n.end method\n").toList),
    (⟨"B.smali".toList⟩, (".class LB;\n.super LA;\n.method n()V\n" ++
      "invoke-static \x7b\x7d, LA;->invoke-impl()V\n.end method\n").toList)]

/-- In the sample the method is called by its new name after the renaming. -/
theorem rename_calledSample : ∃ renamed report,
    calledSample.rename "LA;->invoke-impl()V".toList "LA;->k()V".toList = .ok (renamed, report) ∧
      renamed.finds (.ofMethod ⟨"LA;".toList, "k".toList, "()V".toList⟩) ∧
      ¬ renamed.finds (.ofMethod ⟨"LA;".toList, "invoke-impl".toList, "()V".toList⟩) ∧
      ¬ renamed.Names (.ofMethod ⟨"LA;".toList, "invoke-impl".toList, "()V".toList⟩) := by
  -- The header and the call are written as they have to be.
  have spaced : ∀ document ∈ calledSample.document? "LA;".toList,
      ∀ line ∈ Text.lines document.text, ClassText.isHeaderOf "invoke-impl()V".toList line →
        ' ' :: "invoke-impl()V".toList <:+ Text.codePart line.content := by
    decide +kernel
  have tight : ∀ document ∈ calledSample.documents, ∀ method ∈ document.methods,
      ∀ line ∈ Text.lines method.body, (Instruction.decode line.content).names
        (.ofMethod ⟨"LA;".toList, "invoke-impl".toList, "()V".toList⟩) →
          Instruction.spacesArrow line.content = false := by
    decide +kernel
  -- Neither method has to do with comments, and no line of the body begins with the old one.
  have plain : ∀ c ∈ "LA;->invoke-impl()V".toList ++ "LA;->k()V".toList,
      c ≠ '#' ∧ c ≠ '"' ∧ c ≠ '\\' := by
    decide +kernel
  have others : ∀ document ∈ calledSample.documents, document.descriptor = "LA;".toList →
      ∀ method ∈ document.methods, ∀ line ∈ Text.lines method.body,
        ¬ "invoke-impl()V".toList <+: Text.opcode line.content := by
    decide +kernel
  have kept : ∀ document ∈ calledSample.documents, document.descriptor = "LA;".toList →
      document.KeepsLines (.ofMethod ⟨"LA;".toList, "invoke-impl".toList, "()V".toList⟩)
        (.ofMethod ⟨"LA;".toList, "k".toList, "()V".toList⟩) := by
    intro document member own
    exact ⟨fun _ line _ _ _ => plain, fun method inside line inside' beginning =>
      absurd beginning (others document member own method inside line inside')⟩
  have read : Reference.parse "LA;->invoke-impl()V".toList =
      .ok (.ofMethod ⟨"LA;".toList, "invoke-impl".toList, "()V".toList⟩) := by
    decide +kernel
  have read' : Reference.parse "LA;->k()V".toList =
      .ok (.ofMethod ⟨"LA;".toList, "k".toList, "()V".toList⟩) := by
    decide +kernel
  have run : (calledSample.rename "LA;->invoke-impl()V".toList "LA;->k()V".toList).map
      (fun outcome => outcome.2.failures) = .ok [] := by
    decide +kernel
  cases done : calledSample.rename "LA;->invoke-impl()V".toList "LA;->k()V".toList with
  | error error =>
    rw [done] at run
    cases run
  | ok outcome =>
    obtain ⟨renamed, report⟩ := outcome
    rw [done] at run
    exact ⟨renamed, report, rfl, (rename_member_iff read read' rfl (by decide +kernel)
      (by decide +kernel) ⟨by decide +kernel, by decide +kernel⟩ ⟨by decide, by decide⟩ kept done
      (Except.ok.inj run) (by decide +kernel)).2 ⟨by decide, spaced, tight⟩⟩

/-- A class with a field that stands behind a tab, and a method that reads it. -/
def tabbedSample : Collection :=
  -- Tabs keep words apart as well as spaces do.
  ofSources {} [(⟨"A.smali".toList⟩, (".class LA;\n.super Lo;\n.field public\ta:I\n" ++
    ".method m()V\nsget v0, LA;->a:I\n.end method\n").toList)]

/-- In that sample the method reads a field after the renaming that the class does not declare, and
nothing fails. -/
theorem rename_tabbedSample : ∃ renamed report,
    tabbedSample.rename "LA;->a:I".toList "LA;->c:I".toList = .ok (renamed, report) ∧
      report.failures = [] ∧
      tabbedSample.finds (.ofField ⟨"LA;".toList, "a".toList, "I".toList⟩) ∧
      renamed.finds (.ofField ⟨"LA;".toList, "a".toList, "I".toList⟩) ∧
      ¬ renamed.finds (.ofField ⟨"LA;".toList, "c".toList, "I".toList⟩) ∧
      renamed.documents.map (fun document => document.methods.map Method.body) =
        [["sget v0, LA;->c:I\n".toList]] := by
  -- The whole renaming is evaluated.
  have found : tabbedSample.finds (.ofField ⟨"LA;".toList, "a".toList, "I".toList⟩) := by
    decide +kernel
  have run : (tabbedSample.rename "LA;->a:I".toList "LA;->c:I".toList).map (fun outcome =>
      (outcome.2.failures,
        ["a".toList, "c".toList].map fun name =>
          outcome.1.finds (.ofField ⟨"LA;".toList, name, "I".toList⟩),
        outcome.1.documents.map fun document => document.methods.map Method.body)) =
      .ok ([], [true, false], [["sget v0, LA;->c:I\n".toList]]) := by
    decide +kernel
  cases done : tabbedSample.rename "LA;->a:I".toList "LA;->c:I".toList with
  | error error =>
    rw [done] at run
    cases run
  | ok outcome =>
    obtain ⟨renamed, report⟩ := outcome
    rw [done] at run
    obtain ⟨failures, others⟩ := Prod.mk.inj (Except.ok.inj run)
    obtain ⟨lookups, bodies⟩ := Prod.mk.inj others
    obtain ⟨stays, missing⟩ := List.cons.inj lookups
    exact ⟨renamed, report, rfl, failures, found, stays,
      Bool.eq_false_iff.1 (List.cons.inj missing).1, bodies⟩

end Collection

end Smali
