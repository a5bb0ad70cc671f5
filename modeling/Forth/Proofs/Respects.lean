import Forth.Proofs.Composition

/-!
# Actions on related machines

An action respects a relation if it does the same in related states: it comes to the same value or
the same error, and the states are related again.  Runs that differ in something that no word looks
at are compared in this way, and so are invariants, which are relations between equal states.

The words of the language take cells off the stacks, put cells there, store, print and draw random
numbers.  A relation that survives these pieces is a `Congruence`, and every built-in word respects
every congruence (`Primitive.respects`), apart from the two that ask for an event, for which the
congruence has to survive that as well.  Only two words change the return stack; the others respect
every `DataCongruence` already (`Primitive.respects_of_not_movesReturn`).
-/

namespace Forth

section

variable {ε σ α β : Type}

/-- The same value, of which `V` holds, or the same error, in related states. -/
inductive Agree (R : σ → σ → Prop) (V : α → Prop) :
    EStateM.Result ε σ α → EStateM.Result ε σ α → Prop
  | ok {x : α} {s s' : σ} (hx : V x) (h : R s s') : Agree R V (.ok x s) (.ok x s')
  | error {e : ε} {s s' : σ} (h : R s s') : Agree R V (.error e s) (.error e s')

/-- The action does the same in related states, and `V` holds of its value. -/
def Respects (R : σ → σ → Prop) (V : α → Prop) (action : EStateM ε σ α) : Prop :=
  ∀ s s', R s s' → Agree R V (action.run s) (action.run s')

/-- Any value at all. -/
def Anything (_ : α) : Prop := True

namespace Respects

variable {R : σ → σ → Prop} {V : α → Prop} {W : β → Prop}

theorem pure {x : α} (hx : V x) : Respects R V (Pure.pure x : EStateM ε σ α) :=
  fun _ _ h => .ok hx h

theorem throw (e : ε) : Respects R V (MonadExcept.throw e : EStateM ε σ α) :=
  fun _ _ h => .error h

theorem bind {action : EStateM ε σ α} {next : α → EStateM ε σ β} (h : Respects R V action)
    (hnext : ∀ x, V x → Respects R W (next x)) : Respects R W (action >>= next) := by
  intro s s' hs
  rw [EStateM.run_bind, EStateM.run_bind]
  have ha := h s s' hs
  generalize action.run s = r, action.run s' = r' at ha
  cases ha with
  | ok hx ht => exact hnext _ hx _ _ ht
  | error ht => exact .error ht

theorem modified {f : σ → σ} (hf : ∀ s s', R s s' → R (f s) (f s')) :
    Respects R Anything (modify f : EStateM ε σ PUnit) :=
  fun s s' h => .ok trivial (hf s s' h)

end Respects

end

/-- A relation between machines that agree on all that words look at and on the event that is
awaited, and which survives what words do to their machine, apart from moving cells to the return
stack or from it and asking for events. -/
structure DataCongruence (R : Machine → Machine → Prop) : Prop where
  data {m m' : Machine} : R m m' → m'.data = m.data
  returns {m m' : Machine} : R m m' → m'.returns = m.returns
  memory {m m' : Machine} : R m m' → m'.memory = m.memory
  random {m m' : Machine} : R m m' → m'.random = m.random
  wait {m m' : Machine} : R m m' → m'.wait = m.wait
  setData {m m' : Machine} (data : Stack) : R m m' → R { m with data } { m' with data }
  setMemory {m m' : Machine} (memory : Memory) : R m m' → R { m with memory } { m' with memory }
  setRandom {m m' : Machine} (random : RandomSource) :
    R m m' → R { m with random } { m' with random }
  print {m m' : Machine} (text : String) :
    R m m' → R { m with output := m.output.print text } { m' with output := m'.output.print text }

/-- The relation survives what words do to the return stack as well. -/
structure Congruence (R : Machine → Machine → Prop) : Prop extends DataCongruence R where
  setReturns {m m' : Machine} (returns : Stack) : R m m' → R { m with returns } { m' with returns }

/-- The relation survives that an event is awaited, and that none is any more. -/
def SurvivesWait (R : Machine → Machine → Prop) : Prop :=
  ∀ (w : Option Wait) (m m' : Machine), R m m' → R { m with wait := w } { m' with wait := w }

namespace DataCongruence

open Exec

variable {R : Machine → Machine → Prop} (hR : DataCongruence R)

include hR

theorem pushData (n : Cell) : Respects R Anything (Exec.pushData n) :=
  .modified fun m m' h => by
    rw [hR.data h]
    exact hR.setData _ h

theorem popData : Respects R Anything Exec.popData := by
  intro m m' h
  rw [popData_run, popData_run, hR.data h]
  cases m.data with
  | nil => exact .error h
  | cons n rest => exact .ok trivial (hR.setData rest h)

theorem peekReturn (n : Nat) : Respects R Anything (Exec.peekReturn n) := by
  intro m m' h
  simp only [Exec.peekReturn, EStateM.run_bind, EStateM.run_get, hR.returns h]
  cases m.returns.peek? n with
  | none => exact .error h
  | some i => exact .ok trivial h

theorem printText (text : String) : Respects R Anything (Exec.print text) :=
  .modified fun _ _ h => hR.print text h

theorem drawRandom : Respects R Anything Exec.drawRandom := by
  intro m m' h
  have hrandom := hR.setRandom m.random.next.2 h
  refine (?_ : Agree R Anything
    (.ok m.random.next.1 { m with random := m.random.next.2 })
    (.ok m'.random.next.1 { m' with random := m'.random.next.2 }))
  rw [hR.random h]
  exact .ok trivial hrandom

end DataCongruence

namespace Congruence

open Exec

variable {R : Machine → Machine → Prop} (hR : Congruence R)

include hR

theorem pushReturn (n : Cell) : Respects R Anything (Exec.pushReturn n) :=
  .modified fun m m' h => by
    rw [hR.returns h]
    exact hR.setReturns _ h

theorem popReturn : Respects R Anything Exec.popReturn := by
  intro m m' h
  rw [popReturn_run, popReturn_run, hR.returns h]
  cases m.returns with
  | nil => exact .error h
  | cons n rest => exact .ok trivial (hR.setReturns rest h)

end Congruence

/-- To respect the relation is a property of the pieces that words are put together from. -/
theorem DataCongruence.compositional {R : Machine → Machine → Prop} (hR : DataCongruence R) :
    Exec.Compositional fun action => Respects R Anything action where
  pure _ := .pure trivial
  bind h hnext := .bind h fun x _ => hnext x
  divisionByZero := .throw _
  invalidAddress := .throw _
  pushData := hR.pushData
  popData := hR.popData
  peekReturn := hR.peekReturn
  print := hR.printText
  drawRandom := hR.drawRandom
  fetch a m m' h := by
    simp only [EStateM.run_bind, EStateM.run_get, hR.memory h]
    exact hR.pushData _ m m' h
  store a n := .modified fun m m' h => by
    rw [hR.memory h]
    exact hR.setMemory _ h
  allot n := .modified fun m m' h => by
    rw [hR.memory h]
    exact hR.setMemory _ h

theorem Congruence.compositionalOnReturns {R : Machine → Machine → Prop} (hR : Congruence R) :
    Exec.CompositionalOnReturns fun action => Respects R Anything action where
  toCompositional := hR.compositional
  pushReturn := hR.pushReturn
  popReturn := hR.popReturn

theorem DataCongruence.printStack {R : Machine → Machine → Prop} (hR : DataCongruence R) :
    Respects R Anything Primitive.printStack.run := by
  refine .bind (hR.printText _) fun _ _ => ?_
  intro m m' h
  simp only [EStateM.run_bind, EStateM.run_get, hR.data h]
  exact hR.printText _ m m' h

theorem SurvivesWait.suspend {R : Machine → Machine → Prop} (hwait : SurvivesWait R) (w : Wait) :
    Respects R Anything (Exec.suspend w) :=
  .modified fun m m' h => hwait (some w) m m' h

/-- The words of the language that move no cell between the stacks respect every relation that
survives what words do otherwise. -/
theorem Primitive.respects_of_not_movesReturn {R : Machine → Machine → Prop}
    (hR : DataCongruence R) (p : Primitive) (hp : p.movesReturn = false)
    (hwait : p.asksForEvent = true → SurvivesWait R)
    (hhost : ∀ action, p = .host action → Respects R Anything action) :
    Respects R Anything p.run :=
  p.run_of_compositional hR.compositional (fun hmoves => absurd hmoves (by simp [hp]))
    (fun hasks => (hwait hasks).suspend) (fun _ => hR.printStack) hhost

/-- A congruence is respected by every word that the language has, and by every word of the host
that respects it. -/
theorem Primitive.respects {R : Machine → Machine → Prop} (hR : Congruence R) (p : Primitive)
    (hwait : p.asksForEvent = true → SurvivesWait R)
    (hhost : ∀ action, p = .host action → Respects R Anything action) :
    Respects R Anything p.run :=
  p.run_of_compositional hR.compositional (fun _ => hR.compositionalOnReturns)
    (fun hasks => (hwait hasks).suspend) (fun _ => hR.printStack) hhost

end Forth
