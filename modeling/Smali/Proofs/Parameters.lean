import Smali.Proofs.Descriptor

/-! A run of parameters is made up of types in at most one way, and segmenting it finds that way
wherever there is one. -/

namespace Smali.Descriptor

/-- A text is accepted as a type exactly if it is one. -/
theorem isType_iff_typed {text : Text} : isType text ↔ Typed text := by
  -- Nothing stands behind it.
  rw [isType_iff, splitType_eq_some, List.append_nil, and_iff_left rfl]

/-- Types make up a run of parameters. -/
structure MakeUp (types : List Text) (run : Text) : Prop where
  /-- Each of them is accepted as a type. -/
  accepted : ∀ type ∈ types, isType type
  /-- One behind the other they are the run. -/
  joined : types.flatten = run

/-- A run is segmented into types exactly if they make it up. -/
theorem segment_eq_ok_iff {run : Text} {types : List Text} :
    segment run = .ok types ↔ MakeUp types run := by
  -- Nothing is left over where types make up the whole run.
  rw [segment_eq_ok, splitTypes_eq_iff, List.append_nil]
  constructor
  · rintro ⟨typed, -, whole⟩
    exact ⟨fun type member => isType_iff_typed.2 (typed type member), whole.symm⟩
  · rintro ⟨accepted, rfl⟩
    exact ⟨fun type member => isType_iff_typed.1 (accepted type member), rfl, rfl⟩

/-- A run that is not segmented is refused as such. -/
theorem segment_cases (run : Text) :
    (∃ types, segment run = .ok types) ∨ segment run = refuse (.notParameters run) := by
  -- There is no other outcome.
  unfold segment
  split
  · exact .inl ⟨_, rfl⟩
  · exact .inr rfl

/-- Segmenting gives the types that make up a run, which are the only ones that do, and it refuses a
run exactly if there are none. -/
theorem segment_exact (run : Text) :
    (∀ types, segment run = .ok types ↔ MakeUp types run) ∧
      (segment run = refuse (.notParameters run) ↔ ¬ ∃ types, MakeUp types run) ∧
      ∀ types types', MakeUp types run → MakeUp types' run → types = types' := by
  -- A run is segmented into one list of types only.
  refine ⟨fun types => segment_eq_ok_iff, ?_, fun types types' made made' => ?_⟩
  · constructor
    · intro refused made
      obtain ⟨types, made⟩ := made
      rw [segment_eq_ok_iff.2 made] at refused
      cases refused
    · intro unmade
      refine (segment_cases run).resolve_left fun done => ?_
      obtain ⟨types, done⟩ := done
      exact unmade ⟨types, segment_eq_ok_iff.1 done⟩
  · have done := segment_eq_ok_iff.2 made
    rw [segment_eq_ok_iff.2 made'] at done
    exact (Except.ok.inj done).symm

/-- Brackets belong to the type behind them, a name may hold brackets and letters of types, and a
bracket without a type behind it makes up nothing. -/
theorem segment_exact_sample :
    segment "[[La[I;JI".toList = .ok ["[[La[I;".toList, "J".toList, "I".toList] ∧
      ¬ ∃ types, MakeUp types "J[".toList :=
  -- The second run is refused.
  ⟨((segment_exact _).1 _).2 ⟨by decide, by decide⟩,
    (segment_exact _).2.1.1 (by decide +kernel)⟩

end Smali.Descriptor
