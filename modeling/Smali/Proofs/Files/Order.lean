import Smali.Files.Path
import Mathlib.Data.List.Lex
import Mathlib.Data.Char

/-! Paths are in a strict order in which only those with the same components are not in order. -/

namespace Smali

/-- A comparison is a strict order in which any two different things are in order. -/
structure IsOrder {α : Type} (before : α → α → Bool) : Prop where
  /-- What comes before another thing does not come behind it. -/
  asymm : ∀ {a b : α}, before a b → before b a = false
  /-- What comes before another thing comes before all that is behind it. -/
  trans : ∀ {a b c : α}, before a b → before b c → before a c
  /-- Of two different things one comes first. -/
  total : ∀ {a b : α}, before a b = false → before b a = false → a = b

/-- Lists are in order by the first things that differ. -/
theorem IsOrder.lex {α : Type} [DecidableEq α] {before : α → α → Bool} (order : IsOrder before) :
    IsOrder fun left right : List α => left.lex right before := by
  -- The comparison is the lexicographic relation.
  have asymm : Std.Asymm fun a b : α => before a b = true :=
    ⟨fun a b first => by rw [order.asymm first]; exact Bool.false_ne_true⟩
  have trichotomous : Std.Trichotomous fun a b : α => before a b = true :=
    ⟨fun a b first second => order.total (by simpa using first) (by simpa using second)⟩
  have lex_iff (left right : List α) : left.lex right before = true ↔
      List.Lex (fun a b => before a b = true) left right := by
    induction left generalizing right with
    | nil => cases right <;> simp
    | cons a left ih => cases right <;> simp [List.cons_lex_cons_iff, ih]
  refine ⟨fun {a b} first => ?_, fun {a b c} first second => ?_, fun {a b} first second => ?_⟩
  · rw [lex_iff] at first
    rw [← Bool.not_eq_true, lex_iff]
    exact Std.Asymm.asymm _ _ first
  · rw [lex_iff] at first second ⊢
    exact List.lex_trans order.trans first second
  · rw [← Bool.not_eq_true, lex_iff] at first second
    exact Std.Trichotomous.trichotomous _ _ first second

/-- Texts are in order. -/
theorem Text.isOrder_before : IsOrder Text.before := by
  -- Characters are.
  have chars : IsOrder fun c d : Char => decide (c < d) := by
    refine ⟨fun first => ?_, fun first second => ?_, fun first second => ?_⟩
    · rw [decide_eq_true_eq] at first
      exact decide_eq_false (lt_asymm first)
    · rw [decide_eq_true_eq] at first second ⊢
      exact lt_trans first second
    · rw [decide_eq_false_iff_not, not_lt] at first second
      exact le_antisymm second first
  exact chars.lex

/-- Components are in order. -/
theorem Component.isOrder_before : IsOrder Component.before := by
  -- Two names are in the order of their texts, and other components in that of their sorts.
  refine ⟨fun {a b} first => ?_, fun {a b c} first second => ?_, fun {a b} first second => ?_⟩
  · cases a <;> cases b <;> simp_all [before, rank]
    exact Text.isOrder_before.asymm first
  · cases a <;> cases b <;> cases c <;> simp_all [before, rank]
    exact Text.isOrder_before.trans first second
  · cases a <;> cases b <;> simp_all [before, rank]
    exact Text.isOrder_before.total first second

namespace Path

variable {first second third : Path}

/-- Lists of components are in order. -/
theorem isOrder_components :
    IsOrder fun left right : List Component => left.lex right Component.before :=
  -- Components are.
  Component.isOrder_before.lex

/-- A path that comes before another one does not come behind it. -/
theorem before_asymm (earlier : first.before second) : second.before first = false := by
  -- Their components are in order.
  exact isOrder_components.asymm earlier

/-- A path that does not come behind another one comes first or has the same components. -/
theorem before_or_same (notLater : second.before first = false) :
    first.before second ∨ first.components = second.components := by
  -- Different components are in order.
  cases earlier : first.before second with
  | true => exact .inl rfl
  | false => exact .inr (isOrder_components.total earlier notLater)

/-- Paths of which none comes behind the next are in order from the first to the last. -/
theorem not_before_trans (notLater : second.before first = false)
    (notLater' : third.before second = false) : third.before first = false := by
  -- Otherwise the last would come before the one in the middle.
  rw [← Bool.not_eq_true] at notLater' ⊢
  intro later
  rcases before_or_same notLater with earlier | same
  · exact notLater' (isOrder_components.trans later earlier)
  · rw [before, same] at later
    exact notLater' later

/-- Paths that are sorted are strictly in order if no two of them have the same components. -/
theorem pairwise_before_mergeSort {paths : List Path}
    (distinct : (paths.map components).Nodup) :
    (paths.mergeSort fun left right => !right.before left).Pairwise fun left right =>
      left.before right := by
  -- None comes behind a later one, and the components of two are never the same.
  have sorted : (paths.mergeSort fun left right => !right.before left).Pairwise fun left right =>
      (!right.before left) = true := by
    refine List.pairwise_mergeSort (fun a b c => by simpa using not_before_trans)
      (fun a b => ?_) paths
    rw [Bool.or_eq_true]
    cases later : b.before a with
    | false => exact .inl rfl
    | true => exact .inr (by rw [before_asymm later]; rfl)
  have apart : (paths.mergeSort fun left right => !right.before left).Pairwise fun left right =>
      left.components ≠ right.components := by
    rw [← List.pairwise_map]
    exact ((List.mergeSort_perm paths _).map components).nodup_iff.2 distinct
  refine (sorted.and apart).imp fun {left right} both => ?_
  refine (before_or_same ?_).resolve_right both.2
  simpa using both.1

/-- Two lists of paths that are strictly in order are the same if they have the same paths. -/
theorem eq_of_pairwise_before {left right : List Path}
    (sorted : left.Pairwise fun first second => first.before second)
    (sorted' : right.Pairwise fun first second => first.before second)
    (same : ∀ path, path ∈ left ↔ path ∈ right) : left = right := by
  -- No path comes before itself, and no two come before one another.
  have nodup {paths : List Path} (sorted : paths.Pairwise fun first second => first.before second) :
      paths.Nodup := sorted.imp fun {first second} earlier equal => by
    have later := before_asymm earlier
    rw [equal] at earlier later
    rw [earlier] at later
    cases later
  refine List.Perm.eq_of_pairwise (fun first second _ _ earlier later => ?_) sorted sorted'
    ((List.perm_ext_iff_of_nodup (nodup sorted) (nodup sorted')).2 same)
  rw [before_asymm earlier] at later
  cases later

end Path

end Smali
