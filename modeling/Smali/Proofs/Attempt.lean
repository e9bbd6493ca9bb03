import Smali.Error

/-! An attempt succeeds when each of its steps does. -/

namespace Smali

variable {ε α β : Type}

/-- A chain of two steps succeeds when the first gives something with which the second succeeds. -/
theorem bind_eq_ok {attempt : Except ε α} {next : α → Except ε β} {result : β} :
    attempt >>= next = .ok result ↔ ∃ first, attempt = .ok first ∧ next first = .ok result := by
  -- A failure of the first step is the failure of the chain.
  cases attempt with
  | error error => simp [bind, Except.bind]
  | ok first => simp [bind, Except.bind]

/-- Naming what an attempt concerns changes no success. -/
@[simp] theorem concerning_eq_ok {context : Text} {attempt : Except Error α} {result : α} :
    concerning context attempt = .ok result ↔ attempt = .ok result := by
  -- Only failures are given a context.
  cases attempt with
  | error error => constructor <;> intro same <;> cases same
  | ok success => exact Iff.rfl

/-- A refusal is no success. -/
@[simp] theorem refuse_ne_ok {cause : Cause} {result : α} :
    (refuse cause : Except Error α) ≠ .ok result := by
  -- It is a failure.
  simp [refuse]

/-- To return something is to succeed with it. -/
@[simp] theorem pure_eq_ok {given result : α} :
    (pure given : Except ε α) = .ok result ↔ given = result := by
  -- Nothing can fail.
  simp [pure, Except.pure]

/-- The cause for which an attempt fails, if it does. -/
def cause? : Except Error α → Option Cause
  -- What the failure concerns does not count.
  | .ok _ => none
  | .error error => some error.cause

/-- A refusal fails for its cause. -/
@[simp] theorem cause?_refuse (cause : Cause) :
    cause? (refuse cause : Except Error α) = some cause :=
  -- It names no context.
  rfl

/-- Naming what an attempt concerns keeps the cause. -/
@[simp] theorem cause?_concerning (context : Text) (attempt : Except Error α) :
    cause? (concerning context attempt) = cause? attempt := by
  -- Only a context is added.
  cases attempt <;> rfl

/-- An attempt whose result is only handed on fails for the same cause. -/
@[simp] theorem cause?_handed (attempt : Except Error α) (next : α → β) :
    cause? (attempt >>= fun result => pure (next result)) = cause? attempt := by
  -- The second step succeeds.
  cases attempt <;> rfl

/-- An attempt fails for a cause exactly if there is an error with that cause. -/
theorem cause?_eq_some {attempt : Except Error α} {cause : Cause} :
    cause? attempt = some cause ↔ ∃ error, attempt = .error error ∧ error.cause = cause := by
  -- A success has no cause.
  cases attempt <;> simp [cause?]

/-- Two attempts fail both, or succeed with related results. -/
inductive Alike (relates : α → β → Prop) : Except Error α → Except Error β → Prop where
  /-- Both succeed. -/
  | done {first : α} {second : β} (related : relates first second) :
      Alike relates (.ok first) (.ok second)
  /-- Both fail, for whatever reasons. -/
  | failed (first second : Error) : Alike relates (.error first) (.error second)

namespace Alike

variable {γ δ : Type} {relates : α → β → Prop} {relates' : γ → δ → Prop}

/-- Two refusals are alike. -/
theorem refused (first second : Cause) :
    Alike relates (refuse first : Except Error α) (refuse second) := by
  -- Both are failures.
  exact failed _ _

/-- Attempts stay alike when it is named what they concern. -/
theorem concerning {first : Except Error α} {second : Except Error β}
    (alike : Alike relates first second) (context context' : Text) :
    Alike relates (Smali.concerning context first) (Smali.concerning context' second) := by
  -- Failures stay failures.
  cases alike with
  | done related => exact done related
  | failed error error' => exact failed _ _

/-- Attempts that go on alike from related results are alike. -/
theorem bind {first : Except Error α} {second : Except Error β} {next : α → Except Error γ}
    {next' : β → Except Error δ} (alike : Alike relates first second)
    (others : ∀ a b, relates a b → Alike relates' (next a) (next' b)) :
    Alike relates' (first >>= next) (second >>= next') := by
  -- A failure ends both chains.
  cases alike with
  | done related => exact others _ _ related
  | failed error error' => exact failed _ _

/-- An attempt that is like a success is a success. -/
theorem exists_ok {attempt : Except Error β} {result : α}
    (alike : Alike relates (.ok result) attempt) :
    ∃ other, attempt = .ok other ∧ relates result other := by
  -- Failures are not like successes.
  cases alike with
  | done related => exact ⟨_, rfl, related⟩

end Alike

end Smali
