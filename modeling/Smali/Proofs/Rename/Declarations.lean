import Smali.Proofs.ClassText.Showing
import Smali.Proofs.Header
import Smali.Proofs.Rename.Naming
import Smali.Proofs.Rename.Parts

/-! A class declares another member after words have been changed exactly where a line shows a word
that becomes that member. -/

namespace Smali

open Text (LastWord Rewording reword)

variable {change : Bool → Text → Text} {flag : Bool}

/-- A line opens with the same directives as what it becomes. -/
theorem Line.Becomes.opensWith {line line' : Line}
    (becomes : Line.Becomes (reword change false) line line') (rewording : Rewording change)
    {directive : Text} (solid : Text.endsSolid directive) (unsigned : Text.Unsigned directive) :
    line.opensWith directive = line'.opensWith directive := by
  -- What the line says is trimmed before or after it is changed.
  obtain ⟨flag, trimmed⟩ := rewording.exists_trim_reword false line.content
  have said : line'.trimmed = reword change flag line.trimmed := by
    rw [Line.trimmed, becomes.content, trimmed]
    rfl
  rw [Line.opensWith_eq_opens directive solid, Line.opensWith_eq_opens directive solid, said,
    rewording.opens_reword unsigned]

namespace Field

/-- A declaration keeps its directive and the spaces behind it when words are changed. -/
theorem Directed.reword (rewording : Rewording change) {declaration gap body : Text}
    (directed : Directed declaration gap body) : Directed (Text.reword change flag declaration) gap
      (Text.reword change (gap.getLast? == some ' ') body) := by
  -- The directive is without signs.
  have blank : ∀ c ∈ gap, Text.isBlank c := fun c member =>
    Text.isBlank_of_isSpace (directed.spaces c member)
  have after : Text.AfterWord (gap ++ body) := fun c first => by
    obtain ⟨d, rest, same⟩ := List.exists_cons_of_ne_nil directed.nonempty
    rw [same, List.cons_append, List.head?_cons, Option.some.injEq] at first
    exact blank c (by simp [same, first])
  refine ⟨?_, directed.nonempty, directed.spaces, fun c first => ?_⟩
  · rw [directed.whole, rewording.reword_unsigned (by decide) after,
      rewording.reword_lead directed.nonempty blank]
  · rw [← Bool.not_eq_true]
    intro space
    rw [rewording.head?_reword (Text.isBlank_of_isSpace space)] at first
    rw [directed.stops c first] at space
    cases space

/-- A body comes from a body behind the same spaces. -/
theorem Directed.back (rewording : Rewording change) {declaration gap body : Text}
    (directed : Directed (Text.reword change flag declaration) gap body) : ∃ body',
      Directed declaration gap body' ∧
        body = Text.reword change (gap.getLast? == some ' ') body' := by
  -- The directive comes from itself, and so does the first space behind it.
  obtain ⟨c, rest, same⟩ := List.exists_cons_of_ne_nil directed.nonempty
  have space : Text.isSpace c := directed.spaces c (by simp [same])
  have after : Text.AfterWord (gap ++ body) := by
    rw [same]
    exact Text.afterWord_cons (Text.isBlank_of_isSpace space) _
  have unsigned : Text.Unsigned ".field".toList := by decide
  obtain ⟨behind, whole, -, changed⟩ := rewording.exists_of_reword unsigned after directed.whole
  have first : (Text.reword change false behind).head? = some c := by rw [changed, same]; rfl
  rw [rewording.head?_reword (Text.isBlank_of_isSpace space)] at first
  obtain ⟨others, rfl⟩ := List.head?_eq_some_iff.1 first
  have found : afterDirective? declaration = some (Text.skipSpaces others) := by
    rw [afterDirective?, Text.afterPrefix?_eq_some.2 whole]
    simp [space]
  obtain ⟨gap', directed'⟩ := afterDirective?_eq_some.1 found
  obtain ⟨rfl, rfl⟩ := directed.unique (directed'.reword rewording)
  exact ⟨_, directed', rfl⟩

/-- What stands before the value stays there when words are changed. -/
theorem leftSide_reword (rewording : Rewording change) (body : Text) :
    leftSide (reword change flag body) = reword change flag (leftSide body) := by
  -- The same equals sign parts both.
  unfold leftSide
  rw [rewording.splitOnce_reword]
  cases Text.splitOnce " = ".toList body <;> rfl

/-- A declaration shows what the member that it showed before becomes. -/
theorem exists_shows_reword (rewording : Rewording change) {declaration member : Text} :
    (∃ front, Shows (reword change flag declaration) front member) ↔
      ∃ front word, Shows declaration front word ∧
        member = change (front.getLast? == some ' ') word := by
  -- The last blank before the member stands before the left side or at its end.
  have final {gap left : Text} (nonempty : gap ≠ []) :
      ((".field".toList ++ (gap ++ left)).getLast? == some ' ') =
        left.getLast?.elim (gap.getLast? == some ' ') (· == ' ') := by
    rw [List.getLast?_append_of_ne_nil _ (by simp [nonempty]), List.getLast?_append]
    cases left.getLast? <;> rfl
  constructor
  · rintro ⟨_, gap, body, left, tail, directed, last, -⟩
    obtain ⟨body, directed', rfl⟩ := directed.back rewording
    rw [leftSide_reword rewording] at last
    obtain ⟨left', word, last', -, rfl⟩ := rewording.lastWord_back last
    exact ⟨_, word, ⟨gap, body, left', tail, directed', last', rfl⟩,
      by rw [final directed.nonempty]⟩
  · rintro ⟨_, word, ⟨gap, body, left, tail, directed, last, rfl⟩, rfl⟩
    have last' := last.reword rewording (gap.getLast? == some ' ')
    rw [← leftSide_reword rewording, ← final directed.nonempty] at last'
    exact ⟨_, gap, _, _, tail, directed.reword rewording, last', rfl⟩

end Field

/-- A line shows what the member that it showed before becomes, as long as its comment stays, which
only counts for methods. -/
theorem Reference.exists_shows_reword (rewording : Rewording change) (reference : Reference)
    {content member : Text} (comment : reference.isMethod →
      Text.beforeComment .outside (reword change false content) =
        reword change false (Text.beforeComment .outside content)) :
    (∃ front, reference.Shows (reword change false content) front member) ↔
      ∃ front word, reference.Shows content front word ∧
        member = change (front.getLast? == some ' ') word := by
  -- A declaration of a field is trimmed first, and a header loses its comment.
  cases reference with
  | ofClass descriptor => simp [Shows]
  | ofField field =>
    obtain ⟨flag, trimmed⟩ := rewording.exists_trim_reword false content
    simp only [Shows, trimmed]
    exact Field.exists_shows_reword rewording
  | ofMethod method =>
    -- The text ends with a space or it does not, in whichever way this is asked.
    have final (front : Text) : front.getLast?.elim false (· == ' ') =
        (front.getLast? == some ' ') := by
      cases front.getLast? <;> rfl
    simp only [Shows, comment rfl]
    constructor
    · rintro ⟨_, tail, last⟩
      obtain ⟨front, word, last', -, rfl⟩ := rewording.lastWord_back last
      exact ⟨front, word, ⟨tail, last'⟩, by rw [final]⟩
    · rintro ⟨front, word, ⟨tail, last⟩, rfl⟩
      have last' := last.reword rewording false
      rw [final] at last'
      exact ⟨_, tail, last'⟩

/-- Members of the same sort are declared in the same lines, which show them alike. -/
theorem Reference.declaring_of_sameSort {reference other : Reference}
    (same : reference.sameSort other) :
    (∀ outside blocks, reference.declaring outside blocks = other.declaring outside blocks) ∧
      ∀ content front member, reference.Shows content front member =
        other.Shows content front member := by
  -- Only the sort counts.
  cases reference <;> cases other <;>
    first | exact ⟨fun _ _ => rfl, fun _ _ _ => rfl⟩ | cases same

namespace ClassText

variable {source after : ClassText} {text : Text} {outside outside' : List Line}
  {blocks blocks' : List Block}

/-- The lines of a text that is read after words have been changed are parted as before. -/
theorem Accounts.related_reword (rewording : Rewording change)
    (accounts : source.Accounts text outside blocks)
    (accounts' : after.Accounts (reword change false text) outside' blocks') :
    List.Forall₂ (Line.Becomes (reword change false)) outside outside' ∧
      List.Forall₂ (Block.Related (Line.Becomes (reword change false))) blocks blocks' := by
  -- Brackets stay brackets of the same kind.
  refine accounts.parted.forall₂ (fun line line' becomes => ?_) (rewording.linewise.lines text)
    accounts'.parted
  rw [Line.isBracket, Line.isBracket, becomes.opensWith rewording (by decide) (by decide),
    becomes.opensWith rewording (by decide) (by decide)]

/-- The lines that declare members are those that did so before words were changed. -/
theorem Accounts.declaring_reword (rewording : Rewording change)
    (accounts : source.Accounts text outside blocks)
    (accounts' : after.Accounts (reword change false text) outside' blocks')
    (reference : Reference) : List.Forall₂ (Line.Becomes (reword change false))
      (reference.declaring outside blocks) (reference.declaring outside' blocks') := by
  -- A directive is kept, and headers become headers.
  obtain ⟨related, related'⟩ := accounts.related_reword rewording accounts'
  cases reference with
  | ofClass descriptor => exact .nil
  | ofField field =>
    refine List.rel_filter (fun line line' becomes => ?_) related
    exact Bool.eq_iff_iff.1 (becomes.opensWith rewording (by decide) (by decide))
  | ofMethod method =>
    rw [Reference.declaring, Reference.declaring, List.forall₂_map_left_iff,
      List.forall₂_map_right_iff]
    exact related'.imp fun _ _ here => here.header

/-- After words have been changed, a class declares a member exactly if it has a name and a line
showed a word that becomes it, as long as the headers of methods keep their comments. -/
theorem Accounts.declares_reword (rewording : Rewording change)
    (accounts : source.Accounts text outside blocks)
    (accounts' : after.Accounts (reword change false text) outside' blocks')
    {reference : Reference} (formed : reference.WellFormed)
    (comments : reference.isMethod →
      ∀ line ∈ Text.lines text, line.opensWith ".method".toList →
        Text.beforeComment .outside (reword change false line.content) =
          reword change false (Text.beforeComment .outside line.content)) :
    after.Declares reference ↔
      reference.name ≠ [] ∧ ∃ line ∈ reference.declaring outside blocks, ∃ front word,
        reference.Shows line.content front word ∧
          reference.token = change (front.getLast? == some ' ') word := by
  -- Only headers declare methods.
  have headers : ∀ line ∈ reference.declaring outside blocks, reference.isMethod →
      Text.beforeComment .outside (reword change false line.content) =
        reword change false (Text.beforeComment .outside line.content) := by
    intro line member isMethod
    cases reference with
    | ofClass | ofField => cases isMethod
    | ofMethod method =>
      obtain ⟨block, inside, rfl⟩ := List.mem_map.1 member
      exact comments rfl _ (accounts.header inside).1 (accounts.parted.exists_lines inside).1
  -- The lines that show the member come from lines of the text before.
  rw [accounts'.declares_iff formed]
  refine and_congr_right fun _ => ?_
  have related := (List.forall₂_and_left _ _).2
    ⟨headers, accounts.declaring_reword rewording accounts' reference⟩
  refine (related.exists_iff ?_).symm
  rintro line line' ⟨comment, becomes⟩
  rw [becomes.content, reference.exists_shows_reword rewording comment]

/-- After words have been changed, the bodies say something exactly if they said before what becomes
it. -/
theorem Accounts.exists_line_reword (rewording : Rewording change)
    (accounts : source.Accounts text outside blocks)
    (accounts' : after.Accounts (reword change false text) outside' blocks')
    (Says : Text → Prop) :
    (∃ method ∈ after.methods, ∃ line ∈ Text.lines method.body, Says line.content) ↔
      ∃ method ∈ source.methods, ∃ line ∈ Text.lines method.body,
        Says (reword change false line.content) := by
  -- The lines of the blocks are changed one by one.
  obtain ⟨-, related⟩ := accounts.related_reword rewording accounts'
  rw [accounts'.exists_line_iff Says,
    accounts.exists_line_iff fun content => Says (reword change false content)]
  refine (related.exists_iff fun block block' here => here.inside.exists_iff ?_).symm
  rintro line line' becomes
  rw [becomes.content]

/-- A class has a name without signs exactly if it had that name before words were changed. -/
theorem descriptor_reword (rewording : Rewording change) (done : parse text = .ok source)
    (done' : parse (reword change false text) = .ok after) {owner : Text}
    (unsigned : Text.Unsigned owner) : after.descriptor = owner ↔ source.descriptor = owner := by
  -- The header comes from the header, and its last word is changed for itself.
  obtain ⟨header, superclass, reading, named, -, -, rfl⟩ := parse_eq_ok.1 done
  obtain ⟨header', superclass', reading', named', -, -, rfl⟩ := parse_eq_ok.1 done'
  obtain ⟨line, found, read⟩ := readHeader_eq_ok.1 named
  obtain ⟨line', found', read'⟩ := readHeader_eq_ok.1 named'
  -- Both headers are read from the same line.
  have first := (rewording.linewise.lines text).find?
    (fun line => line.opensWith ".class".toList) (fun line => line.opensWith ".class".toList)
    fun line line' becomes => becomes.opensWith rewording (by decide) (by decide)
  rw [found, found'] at first
  obtain ⟨becomes⟩ := first
  obtain ⟨-, -, front, c, whole, space, solid⟩ := Header.exists_front read
  obtain ⟨-, -, front', c', whole', space', solid'⟩ := Header.exists_front read'
  obtain ⟨flag, trimmed⟩ := rewording.exists_trim_reword false line.content
  rw [becomes.content, trimmed, whole, Text.reword_append_blank change flag front
    (Text.isBlank_of_isSpace space)] at whole'
  -- The changed descriptor is one word, because no space gets into a word.
  have apart : ∀ d ∈ reword change (c == ' ') header.descriptor, Text.isSpace d = false :=
    fun d member => by
      rw [← Bool.not_eq_true]
      intro space
      refine rewording.not_mem_reword (Text.isBlank_of_isSpace space) (fun inside => ?_) member
      rw [solid d inside] at space
      cases space
  -- Nothing else stands behind the last space.
  have pieces := congrArg (List.splitOnP Text.isSpace) whole'
  rw [List.splitOnP_append_cons _ _ space, List.splitOnP_append_cons _ _ space',
    List.splitOnP_eq_singleton apart, List.splitOnP_eq_singleton solid'] at pieces
  rw [← List.singleton_inj.1 (List.append_inj' pieces rfl).2]
  constructor
  · rintro rfl
    exact (rewording.reword_back unsigned).symm
  · rintro rfl
    exact rewording.reword_kept unsigned

end ClassText

end Smali
