import Forth.Proofs.Vocabulary

/-!
# What an action can come to

Whatever state it starts from, an action comes to a value or to an error, and often one can tell
something about them that does not depend on the state.  `Yields` says it of an action, and follows
how the action is put together.  The words of the language, for example, fail at run time only
(`Primitive.run_yields`), and a frame fails as the words do that it uses, or at run time
(`Frame.UsesOnly.step_yields`).
-/

namespace Forth

section

variable {ε σ α β : Type}

/-- Whatever the state, `V` holds of the value that the action comes to, or `E` of its error. -/
def Yields (E : ε → Prop) (V : α → Prop) (action : EStateM ε σ α) : Prop :=
  ∀ s, match action.run s with
    | .ok x _ => V x
    | .error e _ => E e

namespace Yields

variable {E E' : ε → Prop} {V : α → Prop} {W : β → Prop}

theorem pure {x : α} (hx : V x) : Yields E V (Pure.pure x : EStateM ε σ α) :=
  fun _ => hx

theorem throw {e : ε} (he : E e) : Yields E V (MonadExcept.throw e : EStateM ε σ α) :=
  fun _ => he

theorem modified (f : σ → σ) : Yields E Anything (modify f : EStateM ε σ PUnit) :=
  fun _ => trivial

theorem bind {action : EStateM ε σ α} {next : α → EStateM ε σ β} (h : Yields E V action)
    (hnext : ∀ x, V x → Yields E W (next x)) : Yields E W (action >>= next) := by
  intro s
  have ha := h s
  rw [EStateM.run_bind]
  cases hrun : action.run s with
  | ok x t =>
    rw [hrun] at ha
    exact hnext x ha t
  | error e t =>
    rw [hrun] at ha
    exact ha

theorem weaken {action : EStateM ε σ α} (h : Yields E V action) (hE : ∀ e, E e → E' e) :
    Yields E' V action := by
  intro s
  have ha := h s
  cases hrun : action.run s with
  | ok x t =>
    rw [hrun] at ha
    exact ha
  | error e t =>
    rw [hrun] at ha
    exact hE e ha

theorem error {action : EStateM ε σ α} (h : Yields E V action) {s t : σ} {e : ε}
    (hrun : action.run s = .error e t) : E e := by
  have ha := h s
  rwa [hrun] at ha

theorem value {action : EStateM ε σ α} (h : Yields E V action) {s t : σ} {x : α}
    (hrun : action.run s = .ok x t) : V x := by
  have ha := h s
  rwa [hrun] at ha

end Yields

end

/-! ## Errors of words -/

/-- What can go wrong with the machine that a word finds. -/
inductive Error.RunTime : Error → Prop
  | stackUnderflow : RunTime .stackUnderflow
  | returnStackUnderflow : RunTime .returnStackUnderflow
  | divisionByZero : RunTime .divisionByZero
  | invalidAddress : RunTime .invalidAddress

namespace Exec

theorem pushData_yields {E : Error → Prop} (n : Cell) : Yields E Anything (pushData n) :=
  .modified _

theorem pushReturn_yields {E : Error → Prop} (n : Cell) : Yields E Anything (pushReturn n) :=
  .modified _

theorem print_yields {E : Error → Prop} (text : String) : Yields E Anything (print text) :=
  .modified _

theorem popData_yields : Yields Error.RunTime Anything popData := by
  intro m
  rw [popData_run]
  cases m.data with
  | nil => exact .stackUnderflow
  | cons n rest => trivial

theorem popReturn_yields : Yields Error.RunTime Anything popReturn := by
  intro m
  rw [popReturn_run]
  cases m.returns with
  | nil => exact .returnStackUnderflow
  | cons n rest => trivial

theorem peekReturn_yields (n : Nat) : Yields Error.RunTime Anything (peekReturn n) := by
  intro m
  simp only [peekReturn, EStateM.run_bind, EStateM.run_get]
  cases m.returns.peek? n with
  | none => exact .returnStackUnderflow
  | some i => trivial

/-- Not to fail otherwise than at run time is a property of the pieces that words are put together
from. -/
theorem yields_compositional {E : Error → Prop} (hE : ∀ e : Error, e.RunTime → E e) :
    CompositionalOnReturns fun action => Yields E Anything action where
  pure _ := .pure trivial
  bind h hnext := .bind h fun x _ => hnext x
  divisionByZero := .throw (hE _ .divisionByZero)
  invalidAddress := .throw (hE _ .invalidAddress)
  pushData := pushData_yields
  popData := popData_yields.weaken hE
  peekReturn n := (peekReturn_yields n).weaken hE
  print := print_yields
  drawRandom _ := trivial
  fetch a := .bind (V := Anything) (fun _ => trivial) fun m _ => pushData_yields (m.memory.get a)
  store _ _ := .modified _
  allot _ := .modified _
  pushReturn := pushReturn_yields
  popReturn := popReturn_yields.weaken hE

end Exec

namespace Primitive

open Exec

theorem printStack_yields {E : Error → Prop} : Yields E Anything printStack.run :=
  .bind (print_yields _) fun _ _ => .bind (V := Anything) (fun _ => trivial) fun _ _ =>
    print_yields _

/-- The words of the language fail at run time only. -/
theorem run_yields (p : Primitive) (hp : ∀ action, p ≠ .host action) :
    Yields Error.RunTime Anything p.run :=
  have hP := yields_compositional fun _ he => he
  p.run_of_compositional hP.toCompositional (fun _ => hP) (fun _ _ => .modified _)
    (fun _ => printStack_yields) fun action h => absurd h (hp action)

end Primitive

/-! ## Errors of frames -/

section

variable {P : Primitive → Prop} {E : Error → Prop} (hP : ∀ p, P p → Yields E Anything p.run)
  (hE : ∀ e : Error, e.RunTime → E e)

include hP hE

theorem Operation.UsesOnly.perform_yields {operation : Operation} (h : operation.UsesOnly P) :
    Yields E Anything operation.perform :=
  Operation.perform_of_compositional (Exec.yields_compositional hE).toCompositional
    fun _ p hinvoke => hP p (hinvoke ▸ h).word

/-- A frame fails as the words do that it uses, or for what it finds on the stacks. -/
theorem Frame.UsesOnly.step_yields {f : Frame} (h : f.UsesOnly P) (below : List Frame) :
    Yields E Anything (f.step below) := by
  refine Frame.step_of_compositional (Exec.yields_compositional hE) below fun name p rest hf => ?_
  subst hf
  exact hP p (h _ (.head _)).operation.word

end

end Forth
