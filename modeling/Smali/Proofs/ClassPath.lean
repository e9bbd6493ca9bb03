import Smali.Proofs.Descriptor
import Smali.Proofs.Files.Path
import Mathlib.Data.List.ModifyLast

/-! Under every root, the path of a class goes through its packages, and no two classes have the
same path. -/

namespace Smali.Descriptor

/-- The names that lead to the file of a class. -/
def fileNames (descriptor extension : Text) : List Text :=
  -- They are its segments, and the extension follows the last one behind a dot.
  ((className descriptor).splitOnP (· == '/')).modifyLast (· ++ '.' :: extension)

/-- A class is its name between the two marks. -/
theorem eq_className {descriptor : Text} (named : isClass descriptor) :
    descriptor = 'L' :: className descriptor ++ [';'] := by
  -- The marks are what is left out of the name.
  simp only [isClass, Bool.and_eq_true, decide_eq_true_eq, Text.endsWith, beq_iff_eq] at named
  obtain ⟨⟨long, begins⟩, ends⟩ := named
  obtain ⟨rest, rfl⟩ := List.isPrefixOf_iff_prefix.1 begins
  obtain ⟨front, whole⟩ := List.getLast?_eq_some_iff.1 ends
  cases front with
  | nil =>
    rw [whole] at long
    exact absurd long (by decide)
  | cons c name =>
    obtain ⟨rfl, rfl⟩ : 'L' = c ∧ rest = name ++ [';'] := by simpa using whole
    simp [className]

section Places

variable {extension : Text} (solid : '/' ∉ extension)

include solid

/-- The place of a class is given by the names that lead to its file. -/
theorem components_classPath {descriptor : Text} (named : isClass descriptor)
    (placeable : IsPlaceable descriptor) (root : Path) :
    ∃ below, classPath descriptor extension = .ok below ∧
      (root.join below).components =
        root.components ++ (fileNames descriptor extension).map .name := by
  -- The path of the class is joined to the root as a whole.
  obtain ⟨packages, last, segments, names, place⟩ := exists_fileNames placeable solid
  refine ⟨_, place named, ?_⟩
  have below := Path.components_pathBelow names ⟨[]⟩
  have start : (Path.mk []).components = [] := by rfl
  rw [start, List.nil_append] at below
  rw [Path.components_join (Path.anchor_eq_nil below), below, fileNames, segments,
    List.modifyLast_concat]

/-- The names that lead to the file of a class tell the class. -/
theorem fileNames_inj {first second : Text} (named : isClass first) (named' : isClass second)
    (placeable : IsPlaceable first) (placeable' : IsPlaceable second)
    (same : fileNames first extension = fileNames second extension) : first = second := by
  -- Without the extension they are the segments, which make up the class.
  obtain ⟨packages, last, segments, -⟩ := exists_fileNames placeable solid
  obtain ⟨packages', last', segments', -⟩ := exists_fileNames placeable' solid
  rw [fileNames, fileNames, segments, segments', List.modifyLast_concat,
    List.modifyLast_concat] at same
  obtain ⟨rfl, final⟩ := List.append_singleton_inj.1 same
  rw [List.append_cancel_right final] at segments
  have whole : className first = className second :=
    calc className first
      _ = ['/'].intercalate ((className first).splitOn '/') := (List.intercalate_splitOn '/').symm
      _ = ['/'].intercalate ((className second).splitOn '/') :=
        congrArg _ (segments.trans segments'.symm)
      _ = className second := List.intercalate_splitOn '/'
  rw [eq_className named, eq_className named', whole]

/-- Two classes have paths that differ under every root, and each goes through the names that lead
to the file of its class. -/
theorem places_apart {first second : Text} (named : isClass first) (named' : isClass second)
    (placeable : IsPlaceable first) (placeable' : IsPlaceable second) (other : first ≠ second)
    (root : Path) :
    ∃ below below', classPath first extension = .ok below ∧
      classPath second extension = .ok below' ∧
      (root.join below).same (root.join below') = false ∧
      (root.join below).components =
        root.components ++ (fileNames first extension).map .name ∧
      (root.join below').components =
        root.components ++ (fileNames second extension).map .name := by
  -- The same components would give the same names behind the root.
  obtain ⟨below, place, whole⟩ := components_classPath solid named placeable root
  obtain ⟨below', place', whole'⟩ := components_classPath solid named' placeable' root
  refine ⟨below, below', place, place', ?_, whole, whole'⟩
  rw [Path.same, beq_eq_false_iff_ne, whole, whole']
  intro same
  have names := (List.map_inj_right fun _ _ equal => Component.name.inj equal).1
    (List.append_cancel_left same)
  exact other (fileNames_inj solid named named' placeable placeable' names)

end Places

/-- A class and a package that is called like its file have different paths under a root with
dots. -/
theorem places_apart_sample :
    ∃ below below', classPath "La;".toList "smali".toList = .ok below ∧
      classPath "La.smali/a;".toList "smali".toList = .ok below' ∧
      ((Path.mk "../out/.//".toList).join below).same
        ((Path.mk "../out/.//".toList).join below') = false ∧
      ((Path.mk "../out/.//".toList).join below).components =
        [.parent, .name "out".toList, .name "a.smali".toList] ∧
      ((Path.mk "../out/.//".toList).join below').components =
        [.parent, .name "out".toList, .name "a.smali".toList, .name "a.smali".toList] := by
  -- Neither has a segment that leads elsewhere.
  obtain ⟨below, below', place, place', apart, whole, whole'⟩ :=
    places_apart (show '/' ∉ "smali".toList by decide) (show isClass "La;".toList by decide)
      (show isClass "La.smali/a;".toList by decide) (by decide) (by decide) (by decide)
      ⟨"../out/.//".toList⟩
  exact ⟨below, below', place, place', apart, whole.trans (by decide +kernel),
    whole'.trans (by decide +kernel)⟩

end Smali.Descriptor
