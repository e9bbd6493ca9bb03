import Smali.ClassText.Flush
import Smali.Proofs.Text.Saying

/-! Declarations and methods are found at the first lines that say them, and nowhere else. -/

namespace Smali.ClassText

/-- What a line says after its indentation is followed by the rest of the text. -/
theorem said_prefix {text : Text} {front back : List Line} {line : Line}
    (split : Text.lines text = front ++ line :: back) :
    front.flatMap Line.piece ++ line.indent ++ line.trimmed <+: text := by
  -- Only blanks and the ending are left of the line.
  have whole := Text.flatMap_piece_lines text
  rw [split] at whole
  refine ⟨Text.trailing (Text.trimStart line.content) ++ line.ending ++ back.flatMap Line.piece, ?_⟩
  have content := line.content_eq
  calc _ = front.flatMap Line.piece ++ ((line.indent ++ line.trimmed ++
        Text.trailing (Text.trimStart line.content)) ++ line.ending ++
        back.flatMap Line.piece) := by simp only [List.append_assoc]
    _ = text := by
      rw [content, ← whole, List.flatMap_append, List.flatMap_cons, Line.piece]

/-- The line is the first that says a declaration, between the lines before and behind it. -/
structure SaidAt (text declaration : Text) (front : List Line) (line : Line)
    (back : List Line) : Prop where
  /-- The lines make up the text. -/
  split : Text.lines text = front ++ line :: back
  /-- The line says the declaration. -/
  said : line.trimmed = declaration
  /-- No earlier line does. -/
  first : ∀ earlier ∈ front, earlier.trimmed ≠ declaration

/-- A declaration is found on the first line that says it. -/
theorem locateDeclaration_eq_some {text declaration : Text} {span : Span} :
    locateDeclaration text declaration = some span ↔
      ∃ front line back, SaidAt text declaration front line back ∧
        span = ⟨Text.byteLength (front.flatMap Line.piece ++ line.indent),
          Text.byteLength (front.flatMap Line.piece ++ line.indent ++ line.trimmed)⟩ := by
  -- The span is counted from the start of that line.
  have place : ∀ {front line back}, SaidAt text declaration front line back →
      line.trimmedSpan = ⟨Text.byteLength (front.flatMap Line.piece ++ line.indent),
        Text.byteLength (front.flatMap Line.piece ++ line.indent ++ line.trimmed)⟩ := by
    intro front line back found
    rw [Line.trimmedSpan_eq, Text.start_of_lines found.split]
    simp only [Text.byteLength_append, Nat.add_assoc]
  constructor
  · intro located
    obtain ⟨line, found, rfl⟩ := Option.map_eq_some_iff.1 located
    obtain ⟨spoken, front, back, split, earlier⟩ := List.find?_eq_some_iff_append.1 found
    have here : SaidAt text declaration front line back :=
      ⟨split, by simpa using spoken, fun other member => by simpa using earlier other member⟩
    exact ⟨front, line, back, here, place here⟩
  · rintro ⟨front, line, back, here, rfl⟩
    refine Option.map_eq_some_iff.2 ⟨line, ?_, place here⟩
    refine List.find?_eq_some_iff_append.2 ⟨by simp [here.said], front, back, here.split, ?_⟩
    exact fun other member => by simpa using here.first other member

/-- The lines of the first method with a signature, between the lines before and behind it. -/
structure MethodAt (text signature : Text) (front : List Line) (header : Line)
    (inside : List Line) (terminator : Line) (back : List Line) : Prop where
  /-- The lines make up the text. -/
  split : Text.lines text = front ++ header :: (inside ++ terminator :: back)
  /-- The header has the signature. -/
  header : isHeaderOf signature header
  /-- No earlier line is a header with that signature. -/
  first : ∀ earlier ∈ front, isHeaderOf signature earlier = false
  /-- The terminator closes the method. -/
  closes : terminator.opensWith ".end method".toList
  /-- No line before it does. -/
  between : ∀ line ∈ inside, line.opensWith ".end method".toList = false

/-- The terminator of a method says something. -/
theorem MethodAt.spoken {text signature : Text} {front inside back : List Line}
    {header terminator : Line}
    (found : MethodAt text signature front header inside terminator back) :
    terminator.trimmed ≠ [] := by
  -- It says its directive.
  intro nothing
  have closes := found.closes
  rw [Line.opensWith_eq_opens _ (by decide), nothing] at closes
  exact absurd closes (by decide)

/-- The place of a method runs from the end of its header to the end of what its terminator says. -/
theorem MethodAt.place {text signature : Text} {front inside back : List Line}
    {header terminator : Line}
    (found : MethodAt text signature front header inside terminator back) :
    (⟨⟨header.next, terminator.trimmedSpan.stop⟩, Text.trimEnd terminator.content⟩ :
      MethodPlace) = ⟨⟨Text.byteLength ((front ++ [header]).flatMap Line.piece),
        Text.byteLength ((front ++ [header]).flatMap Line.piece ++ inside.flatMap Line.piece ++
          (terminator.indent ++ terminator.trimmed))⟩,
        terminator.indent ++ terminator.trimmed⟩ := by
  -- Both offsets count the lines before.
  have split : Text.lines text = (front ++ header :: inside) ++ terminator :: back := by
    rw [found.split]; simp
  have before : (front ++ header :: inside).flatMap Line.piece =
      (front ++ [header]).flatMap Line.piece ++ inside.flatMap Line.piece := by
    simp
  rw [Text.next_of_lines found.split, Line.trimEnd_content found.spoken, Line.trimmedSpan_eq,
    Text.start_of_lines split, before]
  simp only [Text.byteLength_append]

/-- A method is found between its first header and the next terminator. -/
theorem locateMethod_eq_some {text signature : Text} {place : MethodPlace} :
    locateMethod text signature = some place ↔
      ∃ front header inside terminator back,
        MethodAt text signature front header inside terminator back ∧
        place = ⟨⟨Text.byteLength ((front ++ [header]).flatMap Line.piece),
          Text.byteLength ((front ++ [header]).flatMap Line.piece ++ inside.flatMap Line.piece ++
            (terminator.indent ++ terminator.trimmed))⟩,
          terminator.indent ++ terminator.trimmed⟩ := by
  -- The lines before the header and before the terminator are skipped.
  unfold locateMethod
  constructor
  · intro located
    -- The header is the first line that was not skipped, and the terminator is looked for behind
    -- it.
    have whole := List.takeWhile_append_dropWhile
      (p := fun line => !isHeaderOf signature line) (l := Text.lines text)
    have before := fun line => List.mem_takeWhile_imp
      (p := fun line => !isHeaderOf signature line) (l := Text.lines text) (x := line)
    generalize (Text.lines text).takeWhile _ = front at whole before
    cases found : (Text.lines text).dropWhile fun line => !isHeaderOf signature line with
    | nil => simp [found] at located
    | cons header rest =>
      have first := List.head?_dropWhile_not (fun line => !isHeaderOf signature line)
        (Text.lines text)
      rw [found] at whole first
      simp only [found, Option.map_eq_some_iff] at located
      obtain ⟨terminator, found', rfl⟩ := located
      obtain ⟨closes, inside, back, rfl, others⟩ := List.find?_eq_some_iff_append.1 found'
      have here : MethodAt text signature front header inside terminator back :=
        ⟨whole.symm, by simpa using first, fun earlier member => by simpa using before _ member,
          closes, fun line member => by simpa using others line member⟩
      exact ⟨front, header, inside, terminator, back, here, here.place⟩
  · rintro ⟨front, header, inside, terminator, back, here, rfl⟩
    -- No line before the header is skipped for another reason.
    have dropped : (Text.lines text).dropWhile (fun line => !isHeaderOf signature line) =
        header :: (inside ++ terminator :: back) := by
      rw [here.split, List.dropWhile_append_of_pos fun line member => by
        simpa using here.first line member]
      simp [here.header]
    have found : (inside ++ terminator :: back).find?
        (fun line => line.opensWith ".end method".toList) = some terminator :=
      List.find?_eq_some_iff_append.2 ⟨here.closes, inside, back, rfl, fun line member => by
        simpa using here.between line member⟩
    simp only [dropped, found, Option.map_some]
    rw [here.place]

end Smali.ClassText
