/-!
# Running a step function to its end

A computation that may go on for ever is given by what it does in one step.  `runSteps` takes at
most a given number of steps, and tells the result only if the computation ends within them.
-/

namespace Forth

/-- What one step of a computation leads to: a state from which to go on, or the result. -/
inductive Progress (σ ρ : Type)
  | more (s : σ)
  | done (r : ρ)

/-- The result of a computation that ends within `fuel` steps. -/
def runSteps {σ ρ : Type} (step : σ → Progress σ ρ) : Nat → σ → Option ρ
  | 0, _ => none
  | fuel + 1, s =>
    match step s with
    | .more s => runSteps step fuel s
    | .done r => some r

section

variable {σ ρ : Type} {step : σ → Progress σ ρ}

theorem runSteps_of_done {s : σ} {r : ρ} (fuel : Nat) (h : step s = .done r) :
    runSteps step (fuel + 1) s = some r := by
  simp [runSteps, h]

theorem runSteps_of_more {s t : σ} (fuel : Nat) (h : step s = .more t) :
    runSteps step (fuel + 1) s = runSteps step fuel t := by
  simp [runSteps, h]

/-- More steps do not change a result. -/
theorem runSteps_mono {s : σ} {r : ρ} {fuel more : Nat} (h : runSteps step fuel s = some r)
    (hle : fuel ≤ more) : runSteps step more s = some r := by
  induction fuel generalizing s more with
  | zero => simp [runSteps] at h
  | succ fuel ih =>
    obtain ⟨more, rfl⟩ : ∃ k, more = k + 1 := ⟨more - 1, by omega⟩
    cases hs : step s with
    | more t =>
      rw [runSteps_of_more _ hs] at h ⊢
      exact ih h (by omega)
    | done q =>
      rw [runSteps_of_done _ hs] at h ⊢
      exact h

/-- The result does not depend on the bound. -/
theorem runSteps_unique {s : σ} {r r' : ρ} {fuel fuel' : Nat}
    (h : runSteps step fuel s = some r) (h' : runSteps step fuel' s = some r') : r = r' :=
  Option.some.inj ((runSteps_mono h (Nat.le_max_left fuel fuel')).symm.trans
    (runSteps_mono h' (Nat.le_max_right fuel fuel')))

end

end Forth
