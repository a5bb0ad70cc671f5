import Forth.Progress

/-!
# Computations that end

`runSteps` takes a bound on the number of steps, and its result does not depend on that bound.  The
statements about whole runs are therefore in terms of two relations without a bound: `Ends` tells
what a computation comes to, and `Leads` which states it passes.  A step function has one way to go
on, so a computation ends exactly like any state that it leads to.

`Ends.simulated` compares two computations that need different numbers of steps for the same work.
-/

namespace Forth

variable {σ ρ σ' ρ' : Type}

/-- The computation that is in this state ends with this result. -/
inductive Ends (step : σ → Progress σ ρ) : σ → ρ → Prop
  | done {s : σ} {r : ρ} (h : step s = .done r) : Ends step s r
  | more {s t : σ} {r : ρ} (h : step s = .more t) (rest : Ends step t r) : Ends step s r

/-- Some number of steps, possibly none, leads from the first state to the second. -/
inductive Leads (step : σ → Progress σ ρ) : σ → σ → Prop
  | refl (s : σ) : Leads step s s
  | more {s t u : σ} (h : step s = .more t) (rest : Leads step t u) : Leads step s u

/-- At least one step leads from the first state to the second. -/
def Advances (step : σ → Progress σ ρ) (s u : σ) : Prop :=
  ∃ t, step s = .more t ∧ Leads step t u

variable {step : σ → Progress σ ρ} {step' : σ' → Progress σ' ρ'}

/-! ## Ending within a bound -/

theorem ends_of_runSteps {fuel : Nat} {s : σ} {r : ρ} (h : runSteps step fuel s = some r) :
    Ends step s r := by
  induction fuel generalizing s with
  | zero => simp [runSteps] at h
  | succ fuel ih =>
    cases hs : step s with
    | more t =>
      rw [runSteps_of_more _ hs] at h
      exact .more hs (ih h)
    | done q =>
      rw [runSteps_of_done _ hs] at h
      obtain rfl : q = r := Option.some.inj h
      exact .done hs

theorem ends_iff {s : σ} {r : ρ} : Ends step s r ↔ ∃ fuel, runSteps step fuel s = some r := by
  refine ⟨fun h => ?_, fun ⟨_, h⟩ => ends_of_runSteps h⟩
  induction h with
  | done h => exact ⟨1, runSteps_of_done 0 h⟩
  | more h _ ih =>
    obtain ⟨fuel, hrest⟩ := ih
    exact ⟨fuel + 1, (runSteps_of_more fuel h).trans hrest⟩

/-- A computation that ends does so in a state that it leads to. -/
theorem Ends.exists_last {s : σ} {r : ρ} (h : Ends step s r) :
    ∃ t, Leads step s t ∧ step t = .done r := by
  induction h with
  | @done s _ h => exact ⟨s, .refl s, h⟩
  | more h _ ih =>
    obtain ⟨t, hleads, hlast⟩ := ih
    exact ⟨t, .more h hleads, hlast⟩

/-- A computation that ends with nothing runs out of every bound. -/
theorem not_ends_iff {s : σ} : (¬ ∃ r, Ends step s r) ↔ ∀ fuel, runSteps step fuel s = none := by
  simp only [ends_iff, not_exists]
  constructor
  · intro h fuel
    exact Option.eq_none_iff_forall_ne_some.2 fun r => h r fuel
  · intro h r fuel
    rw [h fuel]
    simp

theorem Ends.unique {s : σ} {r q : ρ} (hr : Ends step s r) (hq : Ends step s q) : r = q := by
  obtain ⟨fuel, hr⟩ := ends_iff.1 hr
  obtain ⟨fuel', hq⟩ := ends_iff.1 hq
  exact runSteps_unique hr hq

theorem ends_of_more_iff {s t : σ} {r : ρ} (h : step s = .more t) :
    Ends step s r ↔ Ends step t r := by
  refine ⟨fun hs => ?_, .more h⟩
  cases hs with
  | done hd => simp [hd] at h
  | more hm rest =>
    obtain rfl := Progress.more.inj (hm.symm.trans h)
    exact rest

/-! ## Passing through states -/

theorem Leads.one {s t : σ} (h : step s = .more t) : Leads step s t :=
  .more h (.refl t)

theorem Leads.trans {s t u : σ} (h : Leads step s t) (h' : Leads step t u) : Leads step s u := by
  induction h with
  | refl s => exact h'
  | more hs _ ih => exact .more hs (ih h')

/-- What a computation comes to is already settled by any state on its way. -/
theorem Leads.ends_iff {s t : σ} {r : ρ} (h : Leads step s t) : Ends step s r ↔ Ends step t r := by
  induction h with
  | refl s => rfl
  | more hs _ ih => rw [ends_of_more_iff hs, ih]

theorem Advances.one {s t : σ} (h : step s = .more t) : Advances step s t :=
  ⟨t, h, .refl t⟩

theorem Advances.trans {s t u : σ} (h : Advances step s t) (h' : Leads step t u) :
    Advances step s u := by
  obtain ⟨v, hs, hv⟩ := h
  exact ⟨v, hs, hv.trans h'⟩

theorem Leads.trans_advances {s t u : σ} (h : Leads step s t) (h' : Advances step t u) :
    Advances step s u := by
  cases h with
  | refl _ => exact h'
  | more hs rest =>
    obtain ⟨v, hv, hu⟩ := h'
    exact ⟨_, hs, rest.trans (.more hv hu)⟩

theorem Advances.leads {s t : σ} (h : Advances step s t) : Leads step s t := by
  obtain ⟨v, hs, hv⟩ := h
  exact .more hs hv

theorem Leads.runSteps {fuel : Nat} {s t : σ} {r : ρ} (h : Leads step s t)
    (hr : runSteps step fuel s = some r) : ∃ left ≤ fuel, runSteps step left t = some r := by
  induction h generalizing fuel with
  | refl s => exact ⟨fuel, Nat.le_refl fuel, hr⟩
  | more hs _ ih =>
    cases fuel with
    | zero => simp [Forth.runSteps] at hr
    | succ fuel =>
      rw [runSteps_of_more _ hs] at hr
      obtain ⟨left, hle, hleft⟩ := ih hr
      exact ⟨left, Nat.le_succ_of_le hle, hleft⟩

theorem Advances.runSteps {fuel : Nat} {s t : σ} {r : ρ} (h : Advances step s t)
    (hr : runSteps step fuel s = some r) : ∃ left < fuel, runSteps step left t = some r := by
  obtain ⟨v, hs, hv⟩ := h
  cases fuel with
  | zero => simp [Forth.runSteps] at hr
  | succ fuel =>
    rw [runSteps_of_more _ hs] at hr
    obtain ⟨left, hle, hleft⟩ := hv.runSteps hr
    exact ⟨left, Nat.lt_succ_of_le hle, hleft⟩

/-- The result of a computation that ends within `fuel` steps and passes only states in which `P`
holds. -/
def runWhile (P : σ → Prop) [DecidablePred P] (step : σ → Progress σ ρ) : Nat → σ → Option ρ
  | 0, _ => none
  | fuel + 1, s =>
    if P s then
      match step s with
      | .more t => runWhile P step fuel t
      | .done r => some r
    else
      none

theorem ends_of_runWhile {P : σ → Prop} [DecidablePred P] {fuel : Nat} {s : σ} {r : ρ}
    (h : runWhile P step fuel s = some r) : Ends step s r ∧ ∀ t, Leads step s t → P t := by
  induction fuel generalizing s with
  | zero => exact nomatch h
  | succ fuel ih =>
    by_cases hs : P s
    · cases hstep : step s with
      | more t =>
        rw [runWhile, if_pos hs, hstep] at h
        obtain ⟨hends, hpasses⟩ := ih h
        refine ⟨.more hstep hends, fun u hu => ?_⟩
        cases hu with
        | refl => exact hs
        | more hmore rest =>
          obtain rfl := Progress.more.inj (hstep.symm.trans hmore)
          exact hpasses u rest
      | done q =>
        rw [runWhile, if_pos hs, hstep] at h
        obtain rfl := Option.some.inj h
        refine ⟨.done hstep, fun u hu => ?_⟩
        cases hu with
        | refl => exact hs
        | more hmore _ => exact nomatch hstep.symm.trans hmore
    · rw [runWhile, if_neg hs] at h
      exact nomatch h

/-- Two computations go on together from related states: either both advance to related states, or
both end with related results. -/
def Matched (step : σ → Progress σ ρ) (step' : σ' → Progress σ' ρ') (R : σ → σ' → Prop)
    (Q : ρ → ρ' → Prop) (s : σ) (s' : σ') : Prop :=
  (∃ t t', Advances step s t ∧ Advances step' s' t' ∧ R t t') ∨
    ∃ r r', Ends step s r ∧ Ends step' s' r' ∧ Q r r'

theorem Matched.symm {R : σ → σ' → Prop} {Q : ρ → ρ' → Prop} {s : σ} {s' : σ'}
    (h : Matched step step' R Q s s') :
    Matched step' step (fun t' t => R t t') (fun r' r => Q r r') s' s := by
  obtain ⟨t, t', ht, ht', hR⟩ | ⟨r, r', hr, hr', hQ⟩ := h
  · exact .inl ⟨t', t, ht', ht, hR⟩
  · exact .inr ⟨r', r, hr', hr, hQ⟩

/-- If computations in related states always go on together, then each of them ends like the
other. -/
theorem Ends.simulated {R : σ → σ' → Prop} {Q : ρ → ρ' → Prop}
    (h : ∀ s s', R s s' → Matched step step' R Q s s') {s : σ} {s' : σ'} {r : ρ}
    (hs : R s s') (hr : Ends step s r) : ∃ r', Ends step' s' r' ∧ Q r r' := by
  obtain ⟨fuel, hfuel⟩ := ends_iff.1 hr
  -- One step of the matching may be many steps of either side, so the induction is on the bound.
  induction fuel using Nat.strongRecOn generalizing s s' with
  | ind fuel ih =>
    obtain ⟨t, t', ht, ht', hR⟩ | ⟨q, q', hq, hq', hQ⟩ := h s s' hs
    · obtain ⟨left, hlt, hleft⟩ := ht.runSteps hfuel
      obtain ⟨r', hr', hQ⟩ := ih left hlt hR (ends_of_runSteps hleft) hleft
      exact ⟨r', ht'.leads.ends_iff.2 hr', hQ⟩
    · obtain rfl := hr.unique hq
      exact ⟨q', hq', hQ⟩

/-- Both steps go on, to related states, or both end with the same answer in related states. -/
inductive Progress.Related {α : Type} (R : σ → σ' → Prop) :
    Progress σ (α × σ) → Progress σ' (α × σ') → Prop
  | more {s : σ} {s' : σ'} (h : R s s') : Related R (.more s) (.more s')
  | done (x : α) {s : σ} {s' : σ'} (h : R s s') : Related R (.done (x, s)) (.done (x, s'))

/-- If the steps from related states are related, then so is what they lead to. -/
theorem Ends.related {α : Type} {R : σ → σ' → Prop} {step : σ → Progress σ (α × σ)}
    {step' : σ' → Progress σ' (α × σ')}
    (hstep : ∀ s s', R s s' → (step s).Related R (step' s')) {s t : σ} {s' : σ'} {x : α}
    (hs : (step s).Related R (step' s')) (h : Ends step s (x, t)) :
    ∃ t', Ends step' s' (x, t') ∧ R t t' := by
  generalize hr : (x, t) = r at h
  -- Only the states behind the first one are known to be related; the first step is given.
  induction h generalizing s' with
  | done hdone =>
    subst hr
    rw [hdone] at hs
    generalize hdone' : step' s' = p at hs
    cases hs with
    | done _ ht => exact ⟨_, .done hdone', ht⟩
  | more hmore _ ih =>
    rw [hmore] at hs
    generalize hmore' : step' s' = p at hs
    cases hs with
    | more ht =>
      obtain ⟨t', hrest, ht'⟩ := ih (hstep _ _ ht) hr
      exact ⟨t', .more hmore' hrest, ht'⟩

/-- The state that a step leads to, whether the computation goes on or ends. -/
def Progress.state {α : Type} : Progress σ (α × σ) → σ
  | .more s | .done (_, s) => s

/-- What each step keeps holds of the state in which a run ends. -/
theorem Ends.invariant {α : Type} {I : σ → Prop} {step : σ → Progress σ (α × σ)}
    (hstep : ∀ s, I s → I (step s).state) {s t : σ} {x : α} (hs : I s)
    (h : Ends step s (x, t)) : I t := by
  generalize hr : (x, t) = r at h
  induction h with
  | @done s _ hdone =>
    have ht := hstep s hs
    rw [hdone, ← hr] at ht
    exact ht
  | @more s _ _ hmore _ ih =>
    have ht := hstep s hs
    rw [hmore] at ht
    exact ih ht hr

/-- The same progress, with the states and the results mapped. -/
def Progress.map (f : σ → σ') (g : ρ → ρ') : Progress σ ρ → Progress σ' ρ'
  | .more s => .more (f s)
  | .done r => .done (g r)

/-- A computation whose every step is mapped comes to mapped results and to nothing else. -/
theorem Ends.map_iff {f : σ → σ'} {g : ρ → ρ'} {I : σ → Prop}
    (hI : ∀ s t, I s → step s = .more t → I t)
    (hstep : ∀ s, I s → step' (f s) = (step s).map f g) {s : σ} (hs : I s) {q : ρ'} :
    Ends step' (f s) q ↔ ∃ r, Ends step s r ∧ q = g r := by
  constructor
  · intro h
    -- The state is a variable while the induction over the run goes on, and the invariant lets each
    -- step be compared.
    generalize hmapped : f s = s' at h
    induction h generalizing s with
    | done h =>
      subst hmapped
      cases hnext : step s with
      | more t => simp [hstep s hs, hnext, Progress.map] at h
      | done r =>
        rw [hstep s hs, hnext] at h
        exact ⟨r, .done hnext, (Progress.done.inj h).symm⟩
    | more h _ ih =>
      subst hmapped
      cases hnext : step s with
      | more t =>
        rw [hstep s hs, hnext] at h
        obtain ⟨r, hr, hq⟩ := ih (hI s t hs hnext) (Progress.more.inj h)
        exact ⟨r, .more hnext hr, hq⟩
      | done r => simp [hstep s hs, hnext, Progress.map] at h
  · rintro ⟨r, h, rfl⟩
    induction h with
    | done h => exact .done (by rw [hstep _ hs, h]; rfl)
    | more h _ ih => exact .more (by rw [hstep _ hs, h]; rfl) (ih (hI _ _ hs h))

/-- Two step functions that agree on all states that a computation passes come to the same. -/
theorem Ends.congr {step₁ step₂ : σ → Progress σ ρ} {I : σ → Prop}
    (hstep : ∀ s t, I s → step₁ s = .more t → I t) (heq : ∀ s, I s → step₁ s = step₂ s)
    {s : σ} {r : ρ} (hs : I s) : Ends step₁ s r ↔ Ends step₂ s r := by
  constructor
  · intro h
    induction h with
    | done h => exact .done ((heq _ hs).symm.trans h)
    | more h _ ih => exact .more ((heq _ hs).symm.trans h) (ih (hstep _ _ hs h))
  · intro h
    induction h with
    | done h => exact .done ((heq _ hs).trans h)
    | more h _ ih =>
      have hmore := (heq _ hs).trans h
      exact .more hmore (ih (hstep _ _ hs hmore))

end Forth
