import Smali.Header
import Smali.Proofs.Attempt
import Smali.Proofs.Text.Splitting

/-! The header of a class ends with its name. -/

namespace Smali

namespace Header

/-- The last word behind a directive stands behind the last space or tab of its line, and on one
line. -/
theorem exists_last_word {directive line : Text} (some' : wordsAfter directive line ≠ [])
    (final : ∀ c, line.getLast? = some c → Text.isBlank c = false) :
    ∃ front c word, line = front ++ c :: word ∧ Text.isSpace c ∧
      (∀ d ∈ word, Text.isSpace d = false) ∧ '\n' ∉ word ∧
      (wordsAfter directive line).getLast? = some word := by
  -- There is a space behind the directive, and none at the end.
  unfold wordsAfter at some' ⊢
  split at some'
  · next c rest found =>
    split at some'
    · next both =>
      obtain ⟨space, single⟩ := Bool.and_eq_true_iff.1 both
      have parts := Text.afterPrefix?_eq_some.1 found
      obtain ⟨front, d, word, whole, space', solid⟩ :=
        Text.exists_last (List.mem_cons_self (a := c) (l := rest)) space
      have whole' : line = (directive ++ front) ++ d :: word := by
        rw [parts, whole, List.append_assoc]
      -- An empty word would leave a space at the end of the line.
      have nonempty : word ≠ [] := by
        rintro rfl
        have blank := final d (by rw [whole', List.getLast?_concat])
        rw [Text.isBlank_of_isSpace space'] at blank
        cases blank
      have words : (rest.splitOnP Text.isSpace).filter (fun word => !word.isEmpty) =
          (front.splitOnP Text.isSpace).filter (fun word => !word.isEmpty) ++ [word] := by
        have first := List.splitOnP_append_cons [] rest space
        rw [List.nil_append, whole, List.splitOnP_append_cons front word space',
          List.splitOnP_eq_singleton solid, List.splitOnP_nil] at first
        have same := congrArg (List.filter fun word : Text => !word.isEmpty) first
        simpa [nonempty] using same.symm
      refine ⟨_, d, word, whole', space', solid, fun feed => ?_, ?_⟩
      · -- Behind the directive everything stands on one line.
        have inside : '\n' ∈ c :: rest := by simp [whole, feed]
        rcases List.mem_cons.1 inside with rfl | inside
        · exact absurd space (by decide)
        · simpa using List.all_eq_true.1 single _ inside
      · simp only [both, if_true, words, List.getLast?_concat]
    · exact absurd rfl some'
  · exact absurd rfl some'

/-- The class of a header is on one line and stands behind the last space or tab. -/
theorem exists_front {line : Text} {header : ClassHeader} (done : parseClass line = .ok header) :
    Descriptor.isClass header.descriptor ∧ '\n' ∉ header.descriptor ∧
      ∃ front c, Text.trim line = front ++ c :: header.descriptor ∧ Text.isSpace c ∧
        ∀ d ∈ header.descriptor, Text.isSpace d = false := by
  -- It is the last word of the line without the blanks around it.
  simp only [parseClass] at done
  cases reversed : (wordsAfter ".class".toList (Text.trim line)).reverse with
  | nil =>
    rw [reversed] at done
    exact absurd done refuse_ne_ok
  | cons descriptor modifiers =>
    simp only [reversed] at done
    have last : (wordsAfter ".class".toList (Text.trim line)).getLast? = some descriptor := by
      rw [← List.head?_reverse, reversed, List.head?_cons]
    obtain ⟨front, c, word, whole, space, solid, single, same⟩ :=
      exists_last_word (List.ne_nil_of_mem (List.mem_of_getLast? last)) fun c =>
        Text.not_isBlank_of_getLast?_trimEnd
    obtain rfl : word = descriptor := Option.some.inj (same.symm.trans last)
    split at done
    · next isClass =>
      cases done
      exact ⟨isClass, single, front, c, whole, space, solid⟩
    · exact absurd done refuse_ne_ok

end Header

end Smali
