import Forth.Frame

/-!
# Properties of actions, piece by piece

The words of the language are put together from a few pieces: they take cells off the stacks, put
cells there, look at the return stack, print, draw random numbers, and read and change the memory.
So a property that holds of these pieces, and of an action if it holds of its parts, holds of all
words (`Primitive.run_of_compositional`) and of the steps of all frames
(`Frame.step_of_compositional`).  Such properties are what an action can come to, how it changes the
memory, and what it does not notice.

Some words need more than others.  Only two of them move cells between the stacks, only two ask for
an event, and only one looks at the whole data stack, so these pieces are asked for only where such a
word is.
-/

namespace Forth

/-- The property holds of the pieces that most words are put together from, and of every action
whose parts have it. -/
structure Exec.Compositional (P : {α : Type} → Exec α → Prop) : Prop where
  pure {α : Type} (x : α) : P (Pure.pure x)
  bind {α β : Type} {action : Exec α} {next : α → Exec β} (h : P action)
    (hnext : ∀ x, P (next x)) : P (action >>= next)
  divisionByZero : P (throw .divisionByZero : Exec PUnit)
  invalidAddress : P (throw .invalidAddress : Exec Address)
  pushData (n : Cell) : P (Exec.pushData n)
  popData : P Exec.popData
  peekReturn (n : Nat) : P (Exec.peekReturn n)
  print (text : String) : P (Exec.print text)
  drawRandom : P Exec.drawRandom
  fetch (a : Address) : P (do Exec.pushData ((← get).memory.get a))
  store (a : Address) (n : Cell) :
    P (modify fun m => { m with memory := m.memory.set a n } : Exec PUnit)
  allot (n : Address) : P (modify fun m => { m with memory := m.memory.allot n } : Exec PUnit)

/-- The property also holds of the pieces that change the return stack. -/
structure Exec.CompositionalOnReturns (P : {α : Type} → Exec α → Prop) : Prop
    extends Exec.Compositional @P where
  pushReturn (n : Cell) : P (Exec.pushReturn n)
  popReturn : P Exec.popReturn

/-- The word asks for an event. -/
def Primitive.asksForEvent : Primitive → Bool
  | key | sleep => true
  | _ => false

/-- The word moves a cell between the stacks. -/
def Primitive.movesReturn : Primitive → Bool
  | toReturn | fromReturn => true
  | _ => false

section

variable {P : {α : Type} → Exec α → Prop}

theorem Exec.holds_ite {α : Type} {c : Prop} [Decidable c] {action action' : Exec α}
    (h : P action) (h' : P action') : P (if c then action else action') := by
  by_cases hc : c
  · rwa [if_pos hc]
  · rwa [if_neg hc]

namespace Exec.Compositional

variable (hP : Exec.Compositional @P)

include hP

theorem forM {α : Type} {f : α → Exec PUnit} (h : ∀ x, P (f x)) (xs : List α) :
    P (xs.forM f) := by
  induction xs with
  | nil => exact hP.pure _
  | cons x xs ih => exact hP.bind (h x) fun _ => ih

theorem popAddress : P Exec.popAddress := by
  refine hP.bind hP.popData fun n => ?_
  cases n.toAddress? with
  | none => exact hP.invalidAddress
  | some a => exact hP.pure a

theorem unary (f : Cell → Cell) : P (Primitive.unary f) :=
  hP.bind hP.popData fun _ => hP.pushData _

theorem binary (f : Cell → Cell → Cell) : P (Primitive.binary f) :=
  hP.bind hP.popData fun _ => hP.bind hP.popData fun _ => hP.pushData _

theorem division (results : Cell → Cell → List Cell) : P (Primitive.division results) :=
  hP.bind hP.popData fun _ => hP.bind hP.popData fun _ =>
    holds_ite (hP.bind hP.divisionByZero fun _ => hP.forM hP.pushData _) (hP.forM hP.pushData _)

theorem randomBelow (n : Cell) : P (Primitive.randomBelow n) :=
  holds_ite (hP.bind hP.drawRandom fun _ => hP.pure _) (hP.pure _)

end Exec.Compositional

/-- Every word has a compositional property, provided that the pieces have it which only some words
use. -/
theorem Primitive.run_of_compositional (hP : Exec.Compositional @P) (p : Primitive)
    (hmoves : p.movesReturn = true → Exec.CompositionalOnReturns @P)
    (hwait : p.asksForEvent = true → ∀ w, P (Exec.suspend w))
    (hshow : p = printStack → P printStack.run)
    (hhost : ∀ action, p = .host action → P action) : P p.run := by
  -- Each word pops its operands, computes, and pushes; only the words of the four hypotheses do
  -- anything else.
  cases p with
  | add | subtract | multiply | and | or | equal | less | greater => exact hP.binary _
  | divide | remainder | divideWithRemainder => exact hP.division _
  | invert => exact hP.unary _
  | print | emit => exact hP.bind hP.popData fun _ => hP.print _
  | printStack => exact hshow rfl
  | duplicate => exact hP.bind hP.popData fun a => hP.bind (hP.pushData a) fun _ => hP.pushData a
  | drop => exact hP.bind hP.popData fun _ => hP.pure _
  | swap =>
    exact hP.bind hP.popData fun b => hP.bind hP.popData fun a =>
      hP.bind (hP.pushData b) fun _ => hP.pushData a
  | copySecond =>
    exact hP.bind hP.popData fun b => hP.bind hP.popData fun a =>
      hP.bind (hP.pushData a) fun _ => hP.bind (hP.pushData b) fun _ => hP.pushData a
  | rotate =>
    exact hP.bind hP.popData fun c => hP.bind hP.popData fun b => hP.bind hP.popData fun a =>
      hP.bind (hP.pushData b) fun _ => hP.bind (hP.pushData c) fun _ => hP.pushData a
  | index => exact hP.bind (hP.peekReturn 1) fun n => hP.pushData n
  | outerIndex => exact hP.bind (hP.peekReturn 2) fun n => hP.pushData n
  | toReturn => exact hP.bind hP.popData fun n => (hmoves rfl).pushReturn n
  | fromReturn => exact hP.bind (hmoves rfl).popReturn fun n => hP.pushData n
  | store => exact hP.bind hP.popAddress fun a => hP.bind hP.popData fun n => hP.store a n
  | fetch => exact hP.bind hP.popAddress fun a => hP.fetch a
  | allot => exact hP.bind hP.popAddress fun n => hP.allot n
  | key => exact hwait rfl .key
  | sleep => exact hP.bind hP.popData fun n => hwait rfl (.timer n)
  | random => exact hP.bind hP.popData fun n => hP.bind (hP.randomBelow n) fun r => hP.pushData r
  | host action => exact hhost action rfl

/-! ## Trees and frames -/

theorem Operation.perform_of_compositional (hP : Exec.Compositional @P) {operation : Operation}
    (hp : ∀ name p, operation = .invoke name (.primitive p) → P p.run) : P operation.perform := by
  rcases operation with n | text | ⟨name, p | body | n⟩
  · exact hP.bind (hP.pushData n) fun _ => hP.pure _
  · exact hP.bind (hP.print text) fun _ => hP.pure _
  · exact hP.bind (hp name p rfl) fun _ => hP.pure _
  · exact hP.pure _
  · exact hP.bind (hP.pushData n) fun _ => hP.pure _

theorem Tree.enter_of_compositional (hP : Exec.CompositionalOnReturns @P) {t : Tree}
    (hp : ∀ name p, t = .leaf (.invoke name (.primitive p)) → P p.run) : P t.enter := by
  cases t with
  | leaf operation =>
    exact Operation.perform_of_compositional hP.toCompositional fun name p h =>
      hp name p (by rw [h])
  | branch consequent alternative => exact hP.bind hP.popData fun _ => hP.pure _
  | counted body byStep =>
    exact hP.bind hP.popData fun start => hP.bind hP.popData fun limit =>
      Exec.holds_ite (hP.bind (hP.pushReturn start) fun _ => hP.pure _) (hP.pure _)
  | untilTrue body => exact hP.pure _

/-- A step of a frame has a compositional property, if the primitive word has it that the step may
run. -/
theorem Frame.step_of_compositional (hP : Exec.CompositionalOnReturns @P) {f : Frame}
    (below : List Frame)
    (hp : ∀ name p rest, f = .block (.leaf (.invoke name (.primitive p)) :: rest) → P p.run) :
    P (f.step below) := by
  cases f with
  | block rest =>
    cases rest with
    | nil => exact hP.pure _
    | cons t rest =>
      exact hP.bind (Tree.enter_of_compositional hP fun name p h => hp name p rest (by rw [h]))
        fun _ => hP.pure _
  | counted body byStep index limit ascending =>
    refine hP.bind hP.popReturn fun _ => ?_
    have hround (step : Cell) : P
        (if inRange (index + step) limit ascending then do
          Exec.pushReturn (index + step)
          return .block body :: .counted body byStep (index + step) limit ascending :: below
        else
          return below) := Exec.holds_ite (hP.bind (hP.pushReturn _) fun _ => hP.pure _) (hP.pure _)
    -- Without a step on the stack the loop goes on by one, and nothing is taken off for that.
    cases byStep with
    | false => exact hP.bind (hP.pure _) hround
    | true => exact hP.bind hP.popData hround
  | untilTrue body => exact hP.bind hP.popData fun _ => Exec.holds_ite (hP.pure _) (hP.pure _)

end

end Forth
