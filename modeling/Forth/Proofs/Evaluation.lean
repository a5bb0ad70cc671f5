import Forth.Frame
import Forth.Proofs.Runs

/-!
# What trees mean

The machine runs a body by a list of frames and never calls itself.  This file says directly what
trees mean, by recursion on them: a body runs its trees in order, a branch chooses one of its bodies,
a word that has a body means that body, and a loop runs its body round by round.

The rounds of a loop are steps of their own (`Rounds.next`, `untilRound`), and the loop comes to what
these steps end with (`loopOutcome`).  A loop need not end, so the evaluation is a partial function;
without a value it goes on for ever.

`framesEval` gives a meaning to frames as well, namely that of what they have left to run, and a
step of the machine keeps it (`framesEval_eq_evalAfter`).
-/

namespace Forth

open Exec

/-- How an evaluation ends. -/
inductive Outcome
  | done (m : Machine)
  | failed (e : Error) (m : Machine)
  /-- A word asked for an event, which has to be awaited before anything else runs. -/
  | waiting (m : Machine)

/-- How the action of a word ends. -/
def Outcome.ofResult : EStateM.Result Error Machine Unit → Outcome
  | .ok () m => if m.wait = none then .done m else .waiting m
  | .error e m => .failed e m

/-- Goes on with `next` when an evaluation has come to its end. -/
def andThen (first : Option Outcome) (next : Machine → Option Outcome) : Option Outcome := do
  match ← first with
  | .done m => next m
  | stopped => some stopped

@[simp] theorem andThen_none (next : Machine → Option Outcome) : andThen none next = none := rfl

@[simp] theorem andThen_done (m : Machine) (next : Machine → Option Outcome) :
    andThen (some (.done m)) next = next m := rfl

@[simp] theorem andThen_failed (e : Error) (m : Machine) (next : Machine → Option Outcome) :
    andThen (some (.failed e m)) next = some (.failed e m) := rfl

@[simp] theorem andThen_waiting (m : Machine) (next : Machine → Option Outcome) :
    andThen (some (.waiting m)) next = some (.waiting m) := rfl

theorem andThen_assoc (first : Option Outcome) (next last : Machine → Option Outcome) :
    andThen (andThen first next) last = andThen first fun m => andThen (next m) last := by
  rcases first with _ | _ | _ | _ <;> rfl

@[simp] theorem andThen_end (first : Option Outcome) : andThen first (some <| .done ·) = first := by
  rcases first with _ | _ | _ | _ <;> rfl

/-- An evaluation in two parts ends with the second one, or stops in the first. -/
theorem cases_of_andThen {first : Option Outcome} {next : Machine → Option Outcome} {o : Outcome}
    (h : andThen first next = some o) :
    (∃ m, first = some (.done m) ∧ next m = some o) ∨ (first = some o ∧ ∀ m, o ≠ .done m) := by
  rcases first with _ | m | ⟨e, m⟩ | m
  · simp at h
  · exact .inl ⟨m, rfl, h⟩
  · obtain rfl := Option.some.inj h
    exact .inr ⟨rfl, by simp⟩
  · obtain rfl := Option.some.inj h
    exact .inr ⟨rfl, by simp⟩

/-! ## Loops -/

section

open scoped Classical in
/-- What a loop comes to.  A round tells how the loop ends, or where the next round begins. -/
noncomputable def loopOutcome {σ : Type} (round : σ → Progress σ (Option Outcome)) (s : σ) :
    Option Outcome :=
  if h : ∃ o, Ends round s o then h.choose else none

variable {σ : Type} {round : σ → Progress σ (Option Outcome)} {s t : σ}

theorem loopOutcome_of_ends {o : Option Outcome} (h : Ends round s o) : loopOutcome round s = o := by
  have hends : ∃ o, Ends round s o := ⟨o, h⟩
  rw [loopOutcome, dif_pos hends]
  exact hends.choose_spec.unique h

theorem ends_of_loopOutcome {o : Outcome} (h : loopOutcome round s = some o) :
    Ends round s (some o) := by
  by_cases hends : ∃ o, Ends round s o
  · obtain ⟨o', ho'⟩ := hends
    rwa [← h, loopOutcome_of_ends ho']
  · rw [loopOutcome, dif_neg hends] at h
    simp at h

/-- A loop is its first round and what is left of the loop after that. -/
theorem loopOutcome_eq (round : σ → Progress σ (Option Outcome)) (s : σ) :
    loopOutcome round s =
      match round s with
      | .more t => loopOutcome round t
      | .done o => o := by
  cases hs : round s with
  | done o => exact loopOutcome_of_ends (.done hs)
  | more t =>
    -- The loop ends from here exactly if it ends from where the next round begins.
    by_cases hends : ∃ o, Ends round t o
    · obtain ⟨o, ho⟩ := hends
      simp only [loopOutcome_of_ends ho, loopOutcome_of_ends (.more hs ho)]
    · have hends' : ¬ ∃ o, Ends round s o := by simpa only [ends_of_more_iff hs] using hends
      simp only [loopOutcome, dif_neg hends, dif_neg hends']

end

/-- The first index of a counted loop and its limit. -/
def popRange : Exec (Cell × Cell) := do
  let start ← popData
  let limit ← popData
  return (start, limit)

/-- The end of a round of a counted loop: its index comes off the return stack, and the step to the
next one is told. -/
def endRound (byStep ascending : Bool) : Exec Cell := do
  let _ ← popReturn
  if byStep then popData else return if ascending then 1 else -1

/-- The rounds of a counted loop that are left, from an index on. -/
structure Rounds where
  /-- What the body means. -/
  body : Machine → Option Outcome
  byStep : Bool
  index : Cell
  limit : Cell
  ascending : Bool

/-- The first of the rounds.  The index is on the return stack while the body runs. -/
def Rounds.next : Rounds × Machine → Progress (Rounds × Machine) (Option Outcome)
  | (r, m) =>
    if inRange r.index r.limit r.ascending then
      match r.body { m with returns := r.index :: m.returns } with
      | some (.done m) =>
        match (endRound r.byStep r.ascending).run m with
        | .error e m => .done (some (.failed e m))
        | .ok step m => .more ({ r with index := r.index + step }, m)
      | stopped => .done stopped
    else
      .done (some (.done m))

/-- Evaluates the rounds that are left. -/
noncomputable def Rounds.eval (r : Rounds) (m : Machine) : Option Outcome :=
  loopOutcome Rounds.next (r, m)

theorem Rounds.eval_of_inRange {r : Rounds} (h : inRange r.index r.limit r.ascending) (m : Machine) :
    r.eval m = andThen (r.body { m with returns := r.index :: m.returns }) fun m =>
      match (endRound r.byStep r.ascending).run m with
      | .error e m => some (.failed e m)
      | .ok step m => Rounds.eval { r with index := r.index + step } m := by
  rw [Rounds.eval, loopOutcome_eq, Rounds.next, if_pos h]
  rcases r.body { m with returns := r.index :: m.returns } with _ | m' | _ | _
  case some.done =>
    simp only [andThen_done]
    cases (endRound r.byStep r.ascending).run m' <;> rfl
  all_goals rfl

theorem Rounds.eval_of_not_inRange {r : Rounds} (h : ¬ inRange r.index r.limit r.ascending)
    (m : Machine) : r.eval m = some (.done m) := by
  rw [Rounds.eval, loopOutcome_eq, Rounds.next, if_neg h]

/-- A round of a loop that goes on until its body leaves a true flag. -/
def untilRound (body : Machine → Option Outcome) (m : Machine) :
    Progress Machine (Option Outcome) :=
  match body m with
  | some (.done m) =>
    match popData.run m with
    | .error e m => .done (some (.failed e m))
    | .ok t m => if t = -1 then .done (some (.done m)) else .more m
  | stopped => .done stopped

/-! ## Trees -/

mutual

/-- Evaluates a tree. -/
noncomputable def Tree.eval (t : Tree) (m : Machine) : Option Outcome :=
  match t with
  | .leaf (.number n) => some (.done { m with data := n :: m.data })
  | .leaf (.string text) => some (.done { m with output := m.output.print text })
  | .leaf (.invoke _ (.value n)) => some (.done { m with data := n :: m.data })
  | .leaf (.invoke _ (.primitive action)) => some (.ofResult (action.run.run m))
  | .leaf (.invoke _ (.compiled body)) => Body.eval body m
  | .branch consequent alternative =>
    match popData.run m with
    | .error e m => some (.failed e m)
    | .ok t m => if t ≠ 0 then Body.eval consequent m else Body.eval alternative m
  | .counted body byStep =>
    match popRange.run m with
    | .error e m => some (.failed e m)
    | .ok (start, limit) m => Rounds.eval ⟨Body.eval body, byStep, start, limit, start < limit⟩ m
  | .untilTrue body => loopOutcome (untilRound (Body.eval body)) m

/-- Evaluates trees in order. -/
noncomputable def Body.eval (b : Body) (m : Machine) : Option Outcome :=
  match b with
  | [] => some (.done m)
  | t :: rest => andThen (Tree.eval t m) (Body.eval rest)

end

@[simp] theorem Body.eval_nil (m : Machine) : Body.eval [] m = some (.done m) := by
  rw [Body.eval]

theorem Body.eval_cons (t : Tree) (rest : Body) (m : Machine) :
    Body.eval (t :: rest) m = andThen (t.eval m) (Body.eval rest) := by
  rw [Body.eval]

/-- The flag on top chooses the body that a branch means. -/
theorem Tree.eval_branch (consequent alternative : Body) (m : Machine) :
    (Tree.branch consequent alternative).eval m =
      match popData.run m with
      | .error e m => some (.failed e m)
      | .ok t m => Body.eval (if t ≠ 0 then consequent else alternative) m := by
  rw [Tree.eval]
  cases popData.run m with
  | error e m' => rfl
  | ok t m' => exact (apply_ite (Body.eval · m') (t ≠ 0) consequent alternative).symm

/-! ## The meaning of frames -/

/-- Evaluates what a frame has left to run.  A loop frame has the end of a round before it. -/
noncomputable def Frame.eval (f : Frame) (m : Machine) : Option Outcome :=
  match f with
  | .block rest => Body.eval rest m
  | .counted body byStep index limit ascending =>
    match (endRound byStep ascending).run m with
    | .error e m => some (.failed e m)
    | .ok step m => Rounds.eval ⟨Body.eval body, byStep, index + step, limit, ascending⟩ m
  | .untilTrue body =>
    match popData.run m with
    | .error e m => some (.failed e m)
    | .ok t m => if t = -1 then some (.done m) else (Tree.untilTrue body).eval m

/-- Evaluates frames from the innermost one on. -/
noncomputable def framesEval : List Frame → Machine → Option Outcome
  | [], m => some (.done m)
  | f :: below, m => andThen (f.eval m) (framesEval below)

theorem framesEval_append (above below : List Frame) (m : Machine) :
    framesEval (above ++ below) m = andThen (framesEval above m) (framesEval below) := by
  induction above generalizing m with
  | nil => rfl
  | cons f above ih =>
    rw [List.cons_append, framesEval, framesEval, andThen_assoc]
    congr 1
    funext m
    exact ih m

/-- The frames with which the machine goes on in the rounds of a loop. -/
def roundFrames (body : Body) (byStep : Bool) (index limit : Cell) (ascending : Bool)
    (below : List Frame) : List Frame :=
  if inRange index limit ascending then
    .block body :: .counted body byStep index limit ascending :: below
  else
    below

/-- The machine with which they go on. -/
def roundMachine (index limit : Cell) (ascending : Bool) (m : Machine) : Machine :=
  if inRange index limit ascending then { m with returns := index :: m.returns } else m

@[simp] theorem roundFrames_append (body : Body) (byStep : Bool) (index limit : Cell)
    (ascending : Bool) (below : List Frame) :
    roundFrames body byStep index limit ascending [] ++ below =
      roundFrames body byStep index limit ascending below := by
  unfold roundFrames
  split <;> rfl

@[simp] theorem roundMachine_wait (index limit : Cell) (ascending : Bool) (m : Machine) :
    (roundMachine index limit ascending m).wait = m.wait := by
  unfold roundMachine
  split <;> rfl

theorem framesEval_roundFrames (body : Body) (byStep : Bool) (index limit : Cell)
    (ascending : Bool) (below : List Frame) (m : Machine) :
    framesEval (roundFrames body byStep index limit ascending below)
        (roundMachine index limit ascending m) =
      andThen (Rounds.eval ⟨Body.eval body, byStep, index, limit, ascending⟩ m) (framesEval below) := by
  by_cases h : inRange index limit ascending
  · rw [Rounds.eval_of_inRange h, andThen_assoc]
    simp only [roundFrames, roundMachine, if_pos h, framesEval]
    rfl
  · rw [Rounds.eval_of_not_inRange h, andThen_done]
    simp only [roundFrames, roundMachine, if_neg h]

theorem Tree.eval_untilTrue (body : Body) (m : Machine) :
    (Tree.untilTrue body).eval m = framesEval [.block body, .untilTrue body] m := by
  have hround : (Tree.untilTrue body).eval m = loopOutcome (untilRound (Body.eval body)) m := by
    rw [Tree.eval]
  rw [hround, loopOutcome_eq, untilRound]
  simp only [framesEval, Frame.eval, andThen_end]
  rcases Body.eval body m with _ | m' | _ | _
  case some.done =>
    simp only [andThen_done]
    cases popData.run m' with
    | error e m' => rfl
    | ok t m' =>
      by_cases ht : t = -1
      · simp only [if_pos ht]
      · simp only [if_neg ht]
        rw [Tree.eval]
  all_goals rfl

/-- What a step of the machine has left to do.  An event that was asked for comes before the frames
that are left. -/
noncomputable def evalAfter : EStateM.Result Error Machine (List Frame) → Option Outcome
  | .error e m => some (.failed e m)
  | .ok frames m => if m.wait = none then framesEval frames m else some (.waiting m)

theorem evalAfter_ok {m : Machine} (frames : List Frame) (h : m.wait = none) :
    evalAfter (.ok frames m) = framesEval frames m :=
  if_pos h

theorem popRange_wait {m m' : Machine} {range : Cell × Cell}
    (h : popRange.run m = .ok range m') : m'.wait = m.wait := by
  simp only [popRange, EStateM.run_bind, EStateM.run_pure, popData_run] at h
  cases hdata : m.data with
  | nil => simp [hdata] at h
  | cons start rest =>
    cases rest with
    | nil => simp [hdata] at h
    | cons limit rest =>
      simp only [hdata, EStateM.Result.ok.injEq] at h
      simp [← h.2]

theorem endRound_wait {byStep ascending : Bool} {m m' : Machine} {step : Cell}
    (h : (endRound byStep ascending).run m = .ok step m') : m'.wait = m.wait := by
  simp only [endRound, EStateM.run_bind, popReturn_run] at h
  cases hreturns : m.returns with
  | nil => simp [hreturns] at h
  | cons index returns =>
    cases byStep with
    | false =>
      simp [hreturns] at h
      simp [← h.2]
    | true =>
      simp only [hreturns, if_true, popData_run] at h
      cases hdata : m.data with
      | nil => simp [hdata] at h
      | cons n data =>
        simp [hdata] at h
        simp [← h.2]

theorem Tree.enter_counted_run (body : Body) (byStep : Bool) (m : Machine) :
    (Tree.counted body byStep).enter.run m =
      match popRange.run m with
      | .error e m => .error e m
      | .ok (start, limit) m =>
        .ok (roundFrames body byStep start limit (start < limit) [])
          (roundMachine start limit (start < limit) m) := by
  simp only [Tree.enter, popRange, EStateM.run_bind, EStateM.run_pure, popData_run]
  cases m.data with
  | nil => rfl
  | cons start rest =>
    cases rest with
    | nil => rfl
    | cons limit rest =>
      by_cases hrange : inRange start limit (start < limit)
      · simp only [roundFrames, roundMachine, if_pos hrange, EStateM.run_bind, pushReturn_run,
          EStateM.run_pure]
      · simp only [roundFrames, roundMachine, if_neg hrange, EStateM.run_pure]

/-- A step of a counted loop ends a round and goes on with the rounds that are left. -/
theorem Frame.step_counted_run (body : Body) (byStep : Bool) (index limit : Cell)
    (ascending : Bool) (below : List Frame) (m : Machine) :
    ((Frame.counted body byStep index limit ascending).step below).run m =
      match (endRound byStep ascending).run m with
      | .error e m => .error e m
      | .ok step m =>
        .ok (roundFrames body byStep (index + step) limit ascending below)
          (roundMachine (index + step) limit ascending m) := by
  -- The step ends the round first, and only then looks whether there is a further one.
  have hstep : (Frame.counted body byStep index limit ascending).step below =
      endRound byStep ascending >>= fun step =>
        if inRange (index + step) limit ascending then do
          pushReturn (index + step)
          return .block body :: .counted body byStep (index + step) limit ascending :: below
        else
          return below := by
    simp only [Frame.step, endRound, bind_assoc]
    cases byStep <;> rfl
  rw [hstep, EStateM.run_bind]
  cases (endRound byStep ascending).run m with
  | error e m' => rfl
  | ok step m' =>
    by_cases hrange : inRange (index + step) limit ascending
    · simp only [roundFrames, roundMachine, if_pos hrange, EStateM.run_bind, pushReturn_run,
        EStateM.run_pure]
    · simp only [roundFrames, roundMachine, if_neg hrange, EStateM.run_pure]

theorem Frame.step_untilTrue_run (body : Body) (below : List Frame) (m : Machine) :
    ((Frame.untilTrue body).step below).run m =
      match popData.run m with
      | .error e m => .error e m
      | .ok t m => .ok (if t = -1 then below else .block body :: .untilTrue body :: below) m := by
  simp only [Frame.step, EStateM.run_bind]
  cases popData.run m with
  | error e m' => rfl
  | ok t m' =>
    by_cases ht : t = -1
    · simp only [if_pos ht, EStateM.run_pure]
    · simp only [if_neg ht, EStateM.run_pure]

/-- Entering a tree begins what the tree means. -/
theorem Tree.eval_eq_evalAfter (t : Tree) {m : Machine} (h : m.wait = none) :
    t.eval m = evalAfter (t.enter.run m) := by
  cases t with
  | leaf operation =>
    -- Of the leaves, only a primitive word can fail or ask for an event.
    rcases operation with n | text | ⟨name, action | body | n⟩
    · rw [Tree.eval]
      symm
      exact evalAfter_ok [] h
    · rw [Tree.eval]
      symm
      exact evalAfter_ok [] h
    · rw [Tree.eval]
      simp only [Tree.enter, Operation.perform, Definition.invoke, EStateM.run_bind]
      cases action.run.run m with
      | error e m' => rfl
      | ok u m' =>
        by_cases hwait : m'.wait = none
        · simp [Outcome.ofResult, evalAfter, hwait, framesEval]
        · simp [Outcome.ofResult, evalAfter, hwait]
    · rw [Tree.eval]
      refine Eq.trans ?_ (evalAfter_ok [.block body] h).symm
      simp [framesEval, Frame.eval]
    · rw [Tree.eval]
      symm
      exact evalAfter_ok [] h
  | branch consequent alternative =>
    rw [Tree.eval_branch]
    simp only [Tree.enter, EStateM.run_bind, popData_run]
    cases m.data with
    | nil => rfl
    | cons t rest => simp [evalAfter, h, framesEval, Frame.eval]
  | counted body byStep =>
    rw [Tree.eval, Tree.enter_counted_run]
    cases hrange : popRange.run m with
    | error e m' => rfl
    | ok range m' =>
      have hwait : m'.wait = none := (popRange_wait hrange).trans h
      simp only [evalAfter, roundMachine_wait, hwait, if_true, framesEval_roundFrames]
      exact (andThen_end _).symm
  | untilTrue body =>
    rw [Tree.eval_untilTrue]
    exact (evalAfter_ok _ h).symm

/-- A step of the machine keeps what its frames have left to do. -/
theorem framesEval_eq_evalAfter (f : Frame) (below : List Frame) {m : Machine}
    (h : m.wait = none) : framesEval (f :: below) m = evalAfter ((f.step below).run m) := by
  -- A block enters its first tree, and loop frames end a round and begin the next one.  In each
  -- case what the step schedules means what the frame had left to do.
  cases f with
  | block rest =>
    cases rest with
    | nil =>
      simp only [framesEval, Frame.eval, Body.eval_nil, andThen_done]
      exact (evalAfter_ok below h).symm
    | cons t rest =>
      simp only [framesEval, Frame.eval, Body.eval_cons, andThen_assoc, Frame.step,
        EStateM.run_bind, t.eval_eq_evalAfter h]
      cases t.enter.run m with
      | error e m' => rfl
      | ok frames m' =>
        by_cases hwait : m'.wait = none
        · simp [evalAfter, hwait, framesEval_append, framesEval, Frame.eval]
        · simp [evalAfter, hwait]
  | counted body byStep index limit ascending =>
    simp only [framesEval, Frame.eval, Frame.step_counted_run]
    cases hround : (endRound byStep ascending).run m with
    | error e m' => rfl
    | ok step m' =>
      have hwait : m'.wait = none := (endRound_wait hround).trans h
      simp only [evalAfter, roundMachine_wait, hwait, if_true, framesEval_roundFrames]
  | untilTrue body =>
    simp only [framesEval, Frame.eval, Frame.step_untilTrue_run, popData_run]
    cases m.data with
    | nil => rfl
    | cons t rest =>
      by_cases ht : t = -1
      · simp [ht, evalAfter, h]
      · simp [ht, evalAfter, h, Tree.eval_untilTrue, framesEval, andThen_assoc]

end Forth
