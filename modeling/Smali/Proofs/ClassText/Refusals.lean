import Smali.Proofs.ClassText.Layout
import Smali.Proofs.ClassText.Success
import Smali.Proofs.Rename.Collection

/-! A flush of what was read is refused only for want of a place to build a list. -/

namespace Smali

/-- A return writes no field. -/
theorem Instruction.spares_of_isReturn {instruction : Instruction} (stops : instruction.isReturn)
    (references : List Text) : spares references instruction = true := by
  -- Only accesses to fields do.
  cases instruction with
  | returns => simp [spares, assigns]
  | _ => cases stops

namespace Method

/-- A body has an instruction that returns. -/
def returns (body : Text) : Bool :=
  -- Each line is decoded on its own.
  (Text.pieces body).any fun piece => (Instruction.decode piece).isReturn

/-- The instructions of a method return if its body does. -/
theorem any_isReturn (method : Method) :
    method.instructions.any Instruction.isReturn = returns method.body := by
  -- Each piece holds one instruction.
  rw [instructions_eq, List.any_map]
  rfl

/-- A body returns where a block can stand before one of its lines. -/
theorem returns_eq_true {body : Text} :
    returns body = true ↔ ∃ line ∈ Text.lines body, ArrayBlock.isNoReturn line = false := by
  -- The ending of a line does not count.
  have each : ∀ line ∈ Text.lines body, (Instruction.decode line.piece).isReturn =
      !ArrayBlock.isNoReturn line := by
    intro line member
    rw [ArrayBlock.isNoReturn, Instruction.decode_content member, Bool.not_not]
  rw [returns, ← Text.map_piece_lines, List.any_map, List.any_eq_true]
  refine exists_congr fun line => and_congr_right fun member => ?_
  rw [Function.comp_apply, each line member, Bool.not_eq_true']

/-- Building a list is refused exactly for a body that does not return. -/
theorem cause?_inject (body : Text) (values : List Text) (field : Text) :
    cause? (ArrayBlock.inject body values field) =
      if returns body then none else some (.noReturn field) := by
  -- The first return is where the block goes.
  by_cases here : returns body
  · obtain ⟨line, inside, stops⟩ := returns_eq_true.1 here
    obtain ⟨injected, done⟩ := ArrayBlock.exists_inject inside stops values field
    rw [done, if_pos here]
    rfl
  · have silent : ∀ line ∈ Text.lines body, ArrayBlock.isNoReturn line := by
      intro line inside
      by_contra stops
      exact here (returns_eq_true.2 ⟨line, inside, by simpa using stops⟩)
    rw [ArrayBlock.inject_refused silent, if_neg here, cause?_refuse]

/-- A body in which a list is built returns before and after. -/
theorem returns_inject {body injected field : Text} {values : List Text}
    (done : ArrayBlock.inject body values field = .ok injected) :
    returns injected = returns body := by
  -- The line with the return stays, because the one with the count is a directive.
  obtain ⟨front, line, back, widened, split, stops, rfl, parts, -⟩ := ArrayBlock.inject_ok done
  have inside : line ∈ Text.lines body := by rw [split]; simp
  have before : returns body = true := returns_eq_true.2 ⟨line, inside, stops⟩
  have ends : (Instruction.decode line.piece).isReturn = true := by
    simpa [ArrayBlock.isNoReturn, Instruction.decode_content inside] using stops
  have middle : line.piece ∈ Text.pieces widened := by rw [parts]; simp
  -- Raising the count replaces a line with a directive, which is no return.
  have after : line.piece ∈
      Text.pieces (ArrayBlock.ensureRegisters ArrayBlock.registerCount widened) := by
    rcases ArrayBlock.pieces_ensureRegisters widened with same |
      ⟨start, piece, raised, rest, directive, old, new, -, member, opened, -⟩
    · rw [same]
      exact middle
    · have other : line.piece ≠ piece := by
        rintro same
        obtain ⟨text, counts⟩ := ArrayBlock.decode_count member (same ▸ opened)
        rw [counts] at ends
        cases ends
      rw [old] at middle
      rw [new]
      simpa [other] using Or.imp_right (Or.imp_left fun same => absurd same other)
        (by simpa using middle)
  rw [before]
  exact List.any_eq_true.2 ⟨line.piece, after, ends⟩

/-- A body from which assignments are removed returns as before. -/
theorem returns_cleared (references : List Text) (body : Text) :
    returns (cleared references body) = returns body := by
  -- No line with a return goes.
  rw [returns, pieces_cleared, List.any_filter]
  refine List.any_congr rfl fun piece => ?_
  cases stops : (Instruction.decode piece).isReturn with
  | false => rw [Bool.and_false]
  | true => rw [Instruction.spares_of_isReturn stops, Bool.and_true]

end Method

/-- A list is still to be built for the field. -/
def Field.awaitsList (field : Field) : Bool :=
  -- The other values stand in the declaration.
  match field.pending with
  | .composite _ => true
  | _ => false

/-- A field waits for a list if that is its pending value. -/
theorem Field.awaitsList_iff {field : Field} :
    field.awaitsList ↔ ∃ values, field.pending = .composite values := by
  -- There are three kinds of pending values.
  unfold awaitsList
  cases field.pending <;> simp

namespace ClassText

/-- Why no list can be built for a field, if there is a reason. -/
def refusal? (field : Field) (methods : List Method) : Option Cause :=
  -- Only the first static initializer is looked at.
  match (methods.find? Method.isStaticInitializer).map fun method => Method.returns method.body with
  | none => some (.noInitializer field.reference staticInitializer)
  | some false => some (.noReturn field.reference)
  | some true => none

/-- Methods that are alike to those who build lists. -/
def SamePlaces (methods methods' : List Method) : Prop :=
  -- Names and returns are what counts.
  List.Forall₂ (fun method method' => method'.isStaticInitializer = method.isStaticInitializer ∧
    Method.returns method'.body = Method.returns method.body) methods methods'

/-- Lists are refused alike for methods that are alike. -/
theorem refusal?_congr {methods methods' : List Method} (same : SamePlaces methods methods')
    (field : Field) : refusal? field methods' = refusal? field methods := by
  -- The first static initializer stands in the same position.
  have first : (methods'.find? Method.isStaticInitializer).map
      (fun method => Method.returns method.body) =
      (methods.find? Method.isStaticInitializer).map fun method => Method.returns method.body := by
    induction same with
    | nil => rfl
    | cons here _ ih => 
      rw [List.find?_cons, List.find?_cons, here.1]
      split
      · exact congrArg some here.2
      · exact ih
  rw [refusal?, refusal?, first]

/-- Where one field has a place for its list, every field has. -/
theorem refusal?_eq_none {field : Field} {methods : List Method}
    (placed : refusal? field methods = none) (other : Field) : refusal? other methods = none := by
  -- The field is only named in the refusal.
  unfold refusal? at placed ⊢
  split at placed <;> simp_all

/-- A list is refused for the reason that there is. -/
theorem cause?_buildArray (field : Field) (values : List Text) (drafts : List Draft) :
    cause? (buildArray field values drafts) = refusal? field (drafts.map Draft.settled) := by
  -- The first static initializer is looked for.
  induction drafts with
  | nil => rfl
  | cons draft rest ih =>
    have named : draft.settled.isStaticInitializer = draft.method.isStaticInitializer := rfl
    have body : draft.settled.body = draft.body := rfl
    rw [List.map_cons, buildArray, refusal?, List.find?_cons, named]
    by_cases initializer : draft.method.isStaticInitializer
    · rw [if_pos initializer, initializer, cause?_handed, cause?_concerning, Method.cause?_inject,
        Option.map_some, body]
      cases Method.returns draft.body <;> rfl
    · have other : draft.method.isStaticInitializer = false := by simpa using initializer
      rw [if_neg initializer, other, cause?_handed, ih]
      rfl

/-- A step leaves the place for lists. -/
theorem Draft.Step.samePlace {field : Field} {draft next : Draft} (step : Step field draft next) :
    next.settled.isStaticInitializer = draft.settled.isStaticInitializer ∧
      Method.returns next.settled.body = Method.returns draft.settled.body := by
  -- Neither a block nor the removal of assignments takes a return away.
  cases step with
  | same => exact ⟨rfl, rfl⟩
  | built pending initializer injected => exact ⟨rfl, Method.returns_inject injected⟩
  | @stripped _ body _ removed =>
    have left : body = Method.cleared [field.declaredReference] draft.body := by
      rw [← Method.withoutAssignments_getD, removed, Option.getD_some]
    refine ⟨rfl, ?_⟩
    show Method.returns body = Method.returns draft.body
    rw [left, Method.returns_cleared]

/-- The changes of a field leave the places for lists. -/
theorem samePlaces_draftField {field : Field} {drafts drafts' : List Draft}
    (done : draftField field drafts = .ok drafts') :
    SamePlaces (drafts.map Draft.settled) (drafts'.map Draft.settled) := by
  -- Each step does.
  rw [SamePlaces, List.forall₂_map_left_iff, List.forall₂_map_right_iff]
  exact (draftField_ok done).imp fun _ _ step => step.samePlace

/-- The changes of a field are refused if it waits for a list and there is no place for one. -/
theorem cause?_draftField {field : Field} (dirty : field.awaitsList → field.dirty)
    (drafts : List Draft) : cause? (draftField field drafts) =
      if field.awaitsList then refusal? field (drafts.map Draft.settled) else none := by
  -- Nothing else is refused.
  unfold draftField
  unfold Field.awaitsList at dirty ⊢
  cases pending : field.pending with
  | composite values =>
    rw [pending] at dirty
    rw [if_pos (dirty rfl)]
    exact cause?_buildArray field values drafts
  | scalar value => split <;> rfl
  | unchanged => split <;> rfl

/-- The changes of several fields are refused for the first one that waits for a list, if there is
no place for one. -/
theorem cause?_draftFields {fields : List Field}
    (dirty : ∀ field ∈ fields, field.awaitsList → field.dirty) (drafts : List Draft) :
    cause? (draftFields fields drafts) = (fields.find? Field.awaitsList).bind fun field =>
      refusal? field (drafts.map Draft.settled) := by
  -- The place for one list is the place for all of them, and no field takes it away.
  induction fields generalizing drafts with
  | nil => rfl
  | cons field rest ih =>
    rw [List.forall_mem_cons] at dirty
    have first := cause?_draftField dirty.1 drafts
    rw [draftFields, List.find?_cons]
    cases drafted : draftField field drafts with
    | error error =>
      -- A refusal comes from a field that awaits a list, which is then the first one.
      rw [drafted] at first
      cases waits : field.awaitsList with
      | false =>
        rw [waits] at first
        cases first
      | true =>
        rw [waits] at first
        exact first
    | ok drafts' =>
      -- The drafts that this field leaves have their places where they were.
      have others : cause? (draftFields rest drafts') =
          (rest.find? Field.awaitsList).bind fun field =>
            refusal? field (drafts.map Draft.settled) := by
        rw [ih dirty.2]
        congr 1
        funext other
        exact refusal?_congr (samePlaces_draftField drafted) other
      rw [drafted] at first
      refine others.trans ?_
      cases waits : field.awaitsList with
      | false => rfl
      | true =>
        rw [waits] at first
        -- A list that found its place shows that the others find theirs.
        rw [Option.bind_some, ← first.trans (if_pos rfl)]
        cases rest.find? Field.awaitsList with
        | none => rfl
        | some other => exact refusal?_eq_none (first.trans (if_pos rfl)).symm other

/-- Each member of a class text has its one place in the text, whatever is still to be written. -/
structure Placed (source : ClassText) : Prop where
  /-- The declarations are where the fields say, and headers are in the order of the methods. -/
  laid : ∃ layout bodies,
    filled layout (source.fields.map Field.declaration) bodies = Text.pieces source.text ∧
    Fits layout (source.fields.map Field.declaration) (source.methods.map Method.signature) bodies
  /-- No other line says what a declaration says. -/
  once : ∀ declaration ∈ source.fields.map Field.declaration,
    (Text.lines source.text).countP (fun line => line.trimmed == declaration) = 1
  /-- No two methods have the same signature. -/
  distinct : (source.methods.map Method.signature).Nodup
  /-- A field that waits for a list has something to be written. -/
  dirty : ∀ field ∈ source.fields, field.awaitsList → field.dirty

namespace Placed

variable {source : ClassText} (placed : Placed source)

include placed

/-- A flush is refused exactly if a field waits for a list for which there is no place. -/
theorem cause?_flush : cause? source.flush =
    (source.fields.find? Field.awaitsList).bind fun field => refusal? field source.methods := by
  -- The lines can be cut whatever the drafts are.
  obtain ⟨layout, bodies, split, fits⟩ := placed.laid
  have spoken : ∀ field ∈ source.fields, field.declaration ≠ [] := fun field member =>
    (fits.declarable _ (List.mem_map_of_mem member)).ne_nil
  have cutting {drafts : List Draft} (signed : drafts.map (fun draft => draft.method.signature) =
      source.methods.map Method.signature) :=
    fits.exists_cutting rfl signed (show Text.pieces source.text = [] ++ _ from split.symm)
      (fun field member _ => placed.once _ (List.mem_map_of_mem member)) placed.distinct (by simp)
  have signed : source.drafts.map (fun draft => draft.method.signature) =
      source.methods.map Method.signature := by
    rw [drafts, List.map_map]
    rfl
  -- The drafts start as the methods themselves.
  have start : SamePlaces source.methods (source.drafts.map Draft.settled) := by
    rw [SamePlaces, drafts, List.map_map, List.forall₂_map_right_iff]
    exact List.forall₂_same.2 fun _ _ => ⟨rfl, rfl⟩
  have drafted : cause? (draftFields source.fields source.drafts) =
      (source.fields.find? Field.awaitsList).bind fun field => refusal? field source.methods := by
    rw [cause?_draftFields placed.dirty]
    congr 1
    funext field
    exact refusal?_congr start field
  rw [split] at cutting
  rw [flush_eq, cause?_concerning, ← drafted]
  cases made : draftFields source.fields source.drafts with
  | error error =>
    -- A list without a place ends the flush before anything is looked for.
    obtain ⟨here⟩ := cutting signed
    rw [applyChanges_error spoken here made]
    rfl
  | ok drafts =>
    -- Once the lists are in place, every line that has to be written is found.
    obtain ⟨here⟩ := cutting ((signatures_draftFields made).trans signed)
    obtain ⟨flushed, done, -⟩ := exists_flushing spoken here made
    rw [done]
    rfl

end Placed

end ClassText

/-- A call on a member of a class. -/
inductive MemberCall where
  /-- A change is asked for. -/
  | change (change : MemberChange)
  /-- The body of the method at a position is not to be written. -/
  | leave (index : Nat)
  deriving DecidableEq, Repr

/-- A change marks the field if it is to hold a list. -/
theorem FieldChange.dirty_apply (change : FieldChange) {field : Field}
    (marked : field.awaitsList → field.dirty) :
    (change.apply field).awaitsList → (change.apply field).dirty := by
  -- Each change that is not refused marks the field.
  cases change with
  | setStatic wanted | setFinal wanted =>
    simp only [apply, Field.setStatic, Field.setFinal, Field.setModifier]
    split
    · exact fun _ => rfl
    · split
      · exact fun _ => rfl
      · exact marked
  | setStringArray values =>
    by_cases holds : field.type = stringArray
    · rw [apply_setStringArray holds]
      exact fun _ => rfl
    · rw [apply_setStringArray_other holds]
      exact marked
  | _ => exact fun _ => rfl

namespace ClassText

/-- The class text after a call on a member. -/
def call (source : ClassText) : MemberCall → ClassText
  -- A position without a member is passed over.
  | .change change => source.change change
  | .leave index =>
    { source with methods := source.methods.modify index (Method.setDirty false) }

/-- The class text after several calls, one after the other. -/
def calls (source : ClassText) (calls : List MemberCall) : ClassText :=
  -- Each call finds what the calls before it have left.
  calls.foldl call source

/-- A call leaves each member its place. -/
theorem Placed.call {source : ClassText} (placed : Placed source) (call : MemberCall) :
    Placed (source.call call) := by
  -- Neither the text nor what is looked for in it changes.
  -- A method is looked for by its signature alone.
  have methods (change : Method → Method)
      (kept : ∀ method, (change method).signature = method.signature) (index : Nat) :
      Placed { source with methods := source.methods.modify index change } := by
    obtain ⟨laid, once, distinct, dirty⟩ := placed
    have same := List.map_modify kept source.methods index
    refine ⟨?_, once, ?_, dirty⟩ <;> rw [same]
    · exact laid
    · exact distinct
  match call with
  | .change (.field index change) =>
    obtain ⟨laid, once, distinct, dirty⟩ := placed
    -- A declaration is looked for as it stands in the text, whatever the field becomes.
    have same : (source.call (.change (.field index change))).fields.map Field.declaration =
        source.fields.map Field.declaration := source.declarations_changes [.field index change]
    refine ⟨?_, ?_, distinct,
      List.forall_mem_modify (fun field => change.dirty_apply) dirty index⟩
    · rw [same]
      exact laid
    · rw [same]
      exact once
  | .change (.method index change) =>
    exact methods (fun method => change.apply method) (fun method => by cases change <;> rfl) index
  | .leave index => exact methods (Method.setDirty false) (fun _ => rfl) index

/-- Several calls leave each member its place. -/
theorem Placed.calls {source : ClassText} (placed : Placed source) (calls : List MemberCall) :
    Placed (source.calls calls) := by
  -- No single call takes it away.
  induction calls generalizing source with
  | nil => exact placed
  | cons call rest ih => exact ih (placed.call call)

/-- What has been read has the members in their places. -/
theorem placed_of_reads {source : ClassText} {owner : Text}
    (reads : Reads owner (Text.pieces source.text) source.fields source.methods)
    (distinct : (source.methods.map Method.signature).Nodup)
    (once : ∀ field ∈ source.fields,
      (Text.lines source.text).countP (fun line => line.trimmed == field.declaration) = 1) :
    Placed source := by
  -- The lines that were read are a layout with the declarations and the bodies.
  obtain ⟨layout, split, fits⟩ := reads.exists_layout (fun _ => Text.isPiece_of_mem_pieces)
    (Text.pieces_pairwise source.text)
  refine ⟨⟨layout, _, split, fits⟩, List.forall_mem_map.2 once, distinct,
    fun field member waits => ?_⟩
  obtain ⟨piece, -, parsed⟩ := reads.exists_field member
  rw [Field.awaitsList, (Field.reading_of_parse parsed).fresh] at waits
  cases waits

/-- A list is still to be built for a field. -/
def AwaitsList (source : ClassText) : Prop :=
  -- A string that is given later takes the place of a list.
  ∃ field ∈ source.fields, ∃ values, field.pending = .composite values

/-- There is no method in which lists could be built. -/
def LacksInitializer (source : ClassText) : Prop :=
  -- Lists are built where the class is initialized.
  ∀ method ∈ source.methods, method.isStaticInitializer = false

/-- The method in which lists would be built does not return. -/
def LacksReturn (source : ClassText) : Prop :=
  -- Its present body counts, whether or not it stands in the text.
  ∃ method, source.methods.find? Method.isStaticInitializer = some method ∧
    ∀ instruction ∈ method.instructions, instruction.isReturn = false

/-- A list is refused for want of the method or of its return. -/
theorem refusal?_eq_some {source : ClassText} {field : Field} {cause : Cause} :
    refusal? field source.methods = some cause ↔
      source.LacksInitializer ∧ cause = .noInitializer field.reference staticInitializer ∨
        source.LacksReturn ∧ cause = .noReturn field.reference := by
  -- The first static initializer decides.
  have absent : source.LacksInitializer ↔
      source.methods.find? Method.isStaticInitializer = none := by
    simp [LacksInitializer]
  rw [refusal?, LacksReturn, absent]
  cases source.methods.find? Method.isStaticInitializer with
  | none =>
    constructor
    · exact fun same => .inl ⟨rfl, (Option.some.inj same).symm⟩
    · rintro (⟨-, rfl⟩ | ⟨⟨method, nothing, -⟩, -⟩)
      · rfl
      · cases nothing
  | some method =>
    have ends : Method.returns method.body = false ↔
        ∀ instruction ∈ method.instructions, instruction.isReturn = false := by
      rw [← method.any_isReturn, List.any_eq_false]
      simp only [Bool.not_eq_true]
    constructor
    · intro same
      cases stops : Method.returns method.body with
      | true =>
        rw [Option.map_some, stops] at same
        cases same
      | false =>
        rw [Option.map_some, stops] at same
        exact .inr ⟨⟨method, rfl, ends.1 stops⟩, (Option.some.inj same).symm⟩
    · rintro (⟨nothing, -⟩ | ⟨⟨first, same, silent⟩, rfl⟩)
      · cases nothing
      · cases same
        rw [Option.map_some, ends.2 silent]

/-- A flush that is refused is refused for a list. -/
theorem Placed.exists_refused {source : ClassText} (placed : Placed source) {error : Error}
    (failed : source.flush = .error error) :
    ∃ field ∈ source.fields, field.awaitsList ∧
      (source.LacksInitializer ∧ error.cause = .noInitializer field.reference staticInitializer ∨
        source.LacksReturn ∧ error.cause = .noReturn field.reference) := by
  -- It is the first field that waits for one.
  have cause := placed.cause?_flush
  rw [failed] at cause
  obtain ⟨field, found, reason⟩ := Option.bind_eq_some_iff.1 cause.symm
  exact ⟨field, List.mem_of_find?_eq_some found, List.find?_some found,
    refusal?_eq_some.1 reason⟩

/-- A flush is refused where a list has no place. -/
theorem Placed.exists_error {source : ClassText} (placed : Placed source)
    (awaits : source.AwaitsList) (lacks : source.LacksInitializer ∨ source.LacksReturn) :
    ∃ error, source.flush = .error error := by
  -- The first field that waits for one is refused.
  obtain ⟨field, member, pending⟩ := awaits
  obtain ⟨first, found⟩ := Option.isSome_iff_exists.1
    (List.find?_isSome.2 ⟨field, member, Field.awaitsList_iff.2 pending⟩)
  obtain ⟨reason, refused⟩ : ∃ reason, refusal? first source.methods = some reason := by
    rcases lacks with absent | silent
    · exact ⟨_, refusal?_eq_some.2 (.inl ⟨absent, rfl⟩)⟩
    · exact ⟨_, refusal?_eq_some.2 (.inr ⟨silent, rfl⟩)⟩
  have cause := placed.cause?_flush
  rw [found, Option.bind_some, refused] at cause
  obtain ⟨error, failed, -⟩ := cause?_eq_some.1 cause
  exact ⟨error, failed⟩

end ClassText

/-- A flush of a document fails as that of its class text does. -/
theorem Document.flush_eq_error {document : Document} {error : Error} :
    document.flush = .error error ↔ document.toClassText.flush = .error error := by
  -- Nothing else can fail.
  unfold Document.flush
  cases document.toClassText.flush <;> simp [bind, Except.bind, pure, Except.pure]

/-- Nothing that callers may do to the members of a document that has been read makes a flush fail,
except that a list is to be built where there is no method for it, or none that returns. -/
theorem Document.flush_refused_iff {options : ParseOptions} {text : Text} {document : Document}
    (read : parse options text = .ok document)
    (distinct : (document.methods.map Method.signature).Nodup)
    (once : ∀ field ∈ document.fields,
      (Text.lines document.text).countP (fun line => line.trimmed == field.declaration) = 1)
    (calls : List MemberCall) :
    let called := document.withSource (document.calls calls)
    ((∃ error, called.flush = .error error) ↔
      called.AwaitsList ∧ (called.LacksInitializer ∨ called.LacksReturn)) ∧
    ∀ error, called.flush = .error error → ∃ field ∈ called.fields,
      called.LacksInitializer ∧ error.kind = .noStaticInitializer ∧
          error.cause = .noInitializer field.reference staticInitializer ∨
        called.LacksReturn ∧ error.kind = .anchorNotFound ∧
          error.cause = .noReturn field.reference := by
  -- The calls leave each member its place, so that only lists can be refused.
  intro called
  have settled : document.Settled := settled_of_parse read
  have placed := (ClassText.placed_of_reads settled.reads distinct once).calls calls
  refine ⟨⟨?_, ?_⟩, fun error failed => ?_⟩
  · rintro ⟨error, failed⟩
    obtain ⟨field, member, waits, reason⟩ := placed.exists_refused (flush_eq_error.1 failed)
    exact ⟨⟨field, member, Field.awaitsList_iff.1 waits⟩, reason.imp And.left And.left⟩
  · rintro ⟨awaits, lacks⟩
    obtain ⟨error, failed⟩ := placed.exists_error awaits lacks
    exact ⟨error, flush_eq_error.2 failed⟩
  · obtain ⟨field, member, -, reason⟩ := placed.exists_refused (flush_eq_error.1 failed)
    refine ⟨field, member, reason.imp ?_ ?_⟩
    · rintro ⟨absent, same⟩
      exact ⟨absent, congrArg Cause.kind same, same⟩
    · rintro ⟨silent, same⟩
      exact ⟨silent, congrArg Cause.kind same, same⟩

/-- The calls that give the field of the sample a list, and the method a body without a return that
is not written. -/
def Document.sampleCalls : List MemberCall :=
  -- The type is changed first, because only a field of that type can hold a list.
  [.change (.field 0 (.setType stringArray)), .change (.field 0 (.setStringArray [['a']])),
    .change (.method 0 (.setBody "nop".toList)), .leave 0]

/-- The sample has no static initializer for the list. -/
theorem Document.flush_refused_sample : ∃ error,
    (sampleRead.withSource (sampleRead.calls sampleCalls)).flush = .error error ∧
      error.kind = .noStaticInitializer := by
  -- The only method has another name.
  have source : ClassText.parse sampleRead.text = .ok sampleRead.toClassText := by decide +kernel
  have read : parse {} sampleRead.text = .ok sampleRead := bind_eq_ok.2 ⟨_, source, rfl⟩
  obtain ⟨refused, reasons⟩ := Document.flush_refused_iff read (by decide +kernel)
    (by decide +kernel) sampleCalls
  have waits : (sampleRead.withSource (sampleRead.calls sampleCalls)).AwaitsList :=
    ⟨_, List.mem_cons_self .., [['a']], by decide +kernel⟩
  have absent : (sampleRead.withSource (sampleRead.calls sampleCalls)).LacksInitializer := by
    unfold ClassText.LacksInitializer
    decide +kernel
  obtain ⟨error, failed⟩ := refused.2 ⟨waits, .inl absent⟩
  obtain ⟨field, -, ⟨-, kind, -⟩ | ⟨⟨method, first, -⟩, -⟩⟩ := reasons error failed
  · exact ⟨error, failed, kind⟩
  · have other := absent method (List.mem_of_find?_eq_some first)
    rw [List.find?_some first] at other
    cases other

end Smali
