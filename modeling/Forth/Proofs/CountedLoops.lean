import Forth.Proofs.Evaluation
import Forth.Proofs.SideBySide
import Forth.Proofs.Suspension

/-!
# The rounds of a counted loop

A counted loop has no statement of its own that runs it: its frame waits below the block of its
body, and each time that block is finished it takes the index off the return stack and decides
whether the body begins once more.  This file cuts the steps of such a loop into rounds.

`RunsUntil` tells that steps run what stands above some frames without touching these.  A round of a
loop (`CountedLoop.Rounds`) runs the body in that way above the loop frame, and ends with the step
of that frame.  As long as every body comes to its end and every round tells the same step, the
indices of the rounds are the start, the start and one step, and so on for as long as they are in
range (`CountedLoop.Strides.exists_rounds`).

A body may ask for events.  They are answered as they come, keys by the codes of a list.
-/

namespace Forth

open Exec

/-! ## Both ends of a round -/

theorem popRange_run {m : Machine} {start limit : Cell} {data : List Cell}
    (h : m.data = start :: limit :: data) :
    popRange.run m = .ok (start, limit) { m with data } := by
  simp only [popRange, EStateM.run_bind, EStateM.run_pure, popData_run, h]

theorem endRound_run_plain {m : Machine} {index : Cell} {returns : Stack} (ascending : Bool)
    (h : m.returns = index :: returns) :
    (endRound false ascending).run m = .ok (if ascending then 1 else -1) { m with returns } := by
  simp only [endRound, EStateM.run_bind, popReturn_run, h]
  rfl

theorem endRound_run_byStep {m : Machine} {index stride : Cell} {returns data : Stack}
    (ascending : Bool) (h : m.returns = index :: returns) (hdata : m.data = stride :: data) :
    (endRound true ascending).run m = .ok stride { m with returns, data } := by
  simp only [endRound, EStateM.run_bind, popReturn_run, h, if_true, popData_run, hdata]

namespace Session

/-! ## Running the innermost frames -/

section

variable {left outer : List Frame} {x y z : Session × List Cell}

/-- These frames are left above the outer ones, and nothing is awaited. -/
def Remains (left outer : List Frame) (x : Session × List Cell) : Prop :=
  x.1.frames = left ++ outer ∧ x.1.machine.wait = none

/-- Steps lead to where these frames are left above the outer ones for the first time.  Until then
each step is that of a frame above the outer ones or the answer to a wait. -/
inductive RunsUntil (left outer : List Frame) :
    Session × List Cell → Session × List Cell → Prop
  | here {x : Session × List Cell} (h : Remains left outer x) : RunsUntil left outer x x
  | step {x y z : Session × List Cell} {f : Frame} {above : List Frame}
    (hframes : x.1.frames = f :: above ++ outer) (hnot : ¬ Remains left outer x)
    (h : tickServed x = .more y) (rest : RunsUntil left outer y z) : RunsUntil left outer x z

theorem RunsUntil.remains (h : RunsUntil left outer x y) : Remains left outer y := by
  induction h with
  | here h => exact h
  | step _ _ _ _ ih => exact ih

/-- Where a frame is left above the outer ones, these are not all that is left. -/
theorem not_remains_of_above {f : Frame} {above : List Frame}
    (h : x.1.frames = f :: above ++ outer) : ¬ Remains [] outer x := by
  rintro ⟨hframes, -⟩
  have hlength := congrArg List.length (h.symm.trans hframes)
  simp only [List.length_append, List.length_cons, List.length_nil] at hlength
  omega

/-- What runs until some frames are left, and from there to its end, runs to its end. -/
theorem RunsUntil.trans {f : Frame} (h : RunsUntil (f :: left) outer x y)
    (h' : RunsUntil [] outer y z) : RunsUntil [] outer x z := by
  induction h with
  | here _ => exact h'
  | step hframes _ h _ ih => exact .step hframes (not_remains_of_above hframes) h (ih h')

/-- A block that is finished is at its end with one more step. -/
theorem RunsUntil.finished {s : Session} (codes : List Cell) (hwait : s.machine.wait = none)
    (hframes : s.frames = .block [] :: outer) :
    RunsUntil [] outer (s, codes) ({ s with frames := outer }, codes) := by
  have habove : s.frames = .block [] :: [] ++ outer := hframes
  exact .step habove (not_remains_of_above habove)
    (tickServed_of_more (tick_of_finished hwait hframes) codes) (.here ⟨rfl, hwait⟩)

end

/-! ## Loops in progress -/

/-- A counted loop whose body runs again and again: what all of its rounds have in common. -/
structure CountedLoop where
  body : Body
  byStep : Bool
  limit : Cell
  ascending : Bool
  /-- The frames of what comes after the loop. -/
  below : List Frame
  /-- The return stack without the index of the loop. -/
  returns : List Cell

/-- The loop that a session enters with this range, before it goes on with `rest`. -/
def entering (s : Session) (body : Body) (byStep : Bool) (start limit : Cell) (rest : Body)
    (below : List Frame) : CountedLoop where
  body := body
  byStep := byStep
  limit := limit
  ascending := start < limit
  below := .block rest :: below
  returns := s.machine.returns

namespace CountedLoop

variable (l : CountedLoop)

/-- The frames around the body in the round with this index. -/
def around (i : Cell) : List Frame :=
  .counted l.body l.byStep i l.limit l.ascending :: l.below

/-- The body is to run in the round with this index, which is on top of the return stack. -/
structure Begins (i : Cell) (x : Session × List Cell) : Prop where
  frames : x.1.frames = .block l.body :: l.around i
  returns : x.1.machine.returns = i :: l.returns
  wait : x.1.machine.wait = none

/-- The loop is through: only the frames after it are left, and the return stack is as it was before
it. -/
structure IsOver (x : Session × List Cell) : Prop where
  frames : x.1.frames = l.below
  returns : x.1.machine.returns = l.returns
  wait : x.1.machine.wait = none

/-- What comes next when the index of the loop is this one. -/
def ArrivesAt (i : Cell) (x : Session × List Cell) : Prop :=
  if inRange i l.limit l.ascending then l.Begins i x else l.IsOver x

/-- Rounds of the loop with these indices, one right after the other.  Each of them runs the body to
its end, and then the loop frame takes a step. -/
inductive Rounds : List Cell → Session × List Cell → Session × List Cell → Prop
  | nil (x : Session × List Cell) : Rounds [] x x
  | round {i : Cell} {is : List Cell} {x y z u : Session × List Cell} (hbegins : l.Begins i x)
    (hbody : RunsUntil [] (l.around i) x y) (hreturns : y.1.machine.returns = i :: l.returns)
    (hstep : tickServed y = .more z) (hrest : Rounds is z u) : Rounds (i :: is) x u

/-- Whatever round comes up, its body runs until these frames of it are left, with the return stack
as it found it. -/
def Completes (left : List Frame) (x : Session × List Cell) : Prop :=
  ∀ is i y, l.Rounds is x y → l.Begins i y →
    ∃ z, RunsUntil left (l.around i) y z ∧ z.1.machine.returns = y.1.machine.returns

/-- Whatever round comes up, its body runs to its end, with the return stack as it found it, and the
loop goes on by this step. -/
def Strides (stride : Cell) (x : Session × List Cell) : Prop :=
  ∀ is i y, l.Rounds is x y → l.Begins i y →
    ∃ z m, RunsUntil [] (l.around i) y z ∧ z.1.machine.returns = i :: l.returns ∧
      (endRound l.byStep l.ascending).run z.1.machine = .ok stride m ∧ m.returns = l.returns

variable {l} {i stride : Cell} {is : List Cell} {x y z : Session × List Cell}

/-! ## One round after the other -/

/-- The frames and the machine with which rounds go on are those of the next round, if there is
one. -/
theorem arrivesAt_round {s : Session} {m : Machine} (codes : List Cell) (hwait : m.wait = none)
    (hreturns : m.returns = l.returns) :
    l.ArrivesAt i ({ s with
      machine := roundMachine i l.limit l.ascending m
      frames := roundFrames l.body l.byStep i l.limit l.ascending l.below }, codes) := by
  unfold ArrivesAt roundMachine roundFrames
  by_cases hrange : inRange i l.limit l.ascending
  · simp only [if_pos hrange]
    exact ⟨rfl, by rw [hreturns], hwait⟩
  · simp only [if_neg hrange]
    exact ⟨rfl, hreturns, hwait⟩

/-- A loop begins with its first round, if its range is not empty. -/
theorem exists_entry {s : Session} (codes : List Cell) {body rest : Body} {byStep : Bool}
    {below : List Frame} {start limit : Cell} {data : List Cell} (hwait : s.machine.wait = none)
    (hframes : s.frames = .block (.counted body byStep :: rest) :: below)
    (hdata : s.machine.data = start :: limit :: data) :
    ∃ x, tickServed (s, codes) = .more x ∧
      (s.entering body byStep start limit rest below).ArrivesAt start x := by
  let entered : Session :=
    { s with
      machine := roundMachine start limit (start < limit) { s.machine with data }
      frames := roundFrames body byStep start limit (start < limit) (.block rest :: below) }
  have hentry : s.tick = .more entered := by
    rw [tick_of_tree hwait hframes]
    simp only [stepInto, Tree.enter_counted_run, popRange_run hdata, roundFrames_append, entered]
  exact ⟨_, tickServed_of_more hentry codes,
    arrivesAt_round (l := s.entering body byStep start limit rest below) codes hwait rfl⟩

/-- The step of the loop frame ends a round, and the next one begins if its index is in range. -/
theorem exists_next (hy : Remains [] (l.around i) y) {m : Machine}
    (hend : (endRound l.byStep l.ascending).run y.1.machine = .ok stride m)
    (hreturns : m.returns = l.returns) :
    ∃ z, tickServed y = .more z ∧ l.ArrivesAt (i + stride) z := by
  obtain ⟨s, codes⟩ := y
  obtain ⟨hframes, hwait⟩ := hy
  let next : Session :=
    { s with
      machine := roundMachine (i + stride) l.limit l.ascending m
      frames := roundFrames l.body l.byStep (i + stride) l.limit l.ascending l.below }
  have hnext : s.tick = .more next := by
    rw [tick_of_frame hwait hframes]
    simp only [stepInto, Frame.step_counted_run, hend, roundFrames_append, next]
  exact ⟨_, tickServed_of_more hnext codes,
    arrivesAt_round codes ((endRound_wait hend).trans hwait) hreturns⟩

/-- The index after so many rounds: the cell of the integer so many steps from the start. -/
def indexAfter (start stride : Cell) (k : Nat) : Cell :=
  .ofInt (start.toInt + k * stride.toInt)

theorem indexAfter_zero (start stride : Cell) : indexAfter start stride 0 = start := by
  rw [indexAfter, Int.natCast_zero, Int.zero_mul, Int.add_zero, Int64.ofInt_toInt]

theorem indexAfter_succ (start stride : Cell) (k : Nat) :
    indexAfter start stride (k + 1) = indexAfter start stride k + stride := by
  rw [indexAfter, indexAfter, Int.natCast_succ, Int.add_mul, Int.one_mul, ← Int.add_assoc,
    Int64.ofInt_add, Int64.ofInt_toInt]

theorem Rounds.snoc (h : l.Rounds is x y) (hbegins : l.Begins i y)
    (hbody : RunsUntil [] (l.around i) y z) (hreturns : z.1.machine.returns = i :: l.returns)
    {u : Session × List Cell} (hstep : tickServed z = .more u) : l.Rounds (is ++ [i]) x u := by
  induction h with
  | nil _ => exact .round hbegins hbody hreturns hstep (.nil _)
  | round hbegins' hbody' hreturns' hstep' _ ih =>
    exact .round hbegins' hbody' hreturns' hstep' (ih hbegins hbody)

/-- **Rounds follow each other** for as long as their indices are in range. -/
theorem Strides.exists_rounds (h : l.Strides stride x) {start : Cell}
    (hstart : l.ArrivesAt start x) (n : Nat)
    (hrange : ∀ k < n, inRange (indexAfter start stride k) l.limit l.ascending = true) :
    ∃ y, l.Rounds ((List.range n).map (indexAfter start stride)) x y ∧
      l.ArrivesAt (indexAfter start stride n) y := by
  induction n with
  | zero =>
    rw [indexAfter_zero]
    exact ⟨x, .nil x, hstart⟩
  | succ n ih =>
    obtain ⟨y, hrounds, hy⟩ := ih fun k hk => hrange k (by omega)
    have hbegins : l.Begins (indexAfter start stride n) y := by
      rwa [ArrivesAt, if_pos (hrange n (by omega))] at hy
    obtain ⟨z, m, hbody, hreturns, hend, hm⟩ := h _ _ y hrounds hbegins
    obtain ⟨u, hstep, hu⟩ := exists_next hbody.remains hend hm
    rw [List.range_succ, List.map_append, List.map_singleton, indexAfter_succ]
    exact ⟨u, hrounds.snoc hbegins hbody hreturns hstep, hu⟩

/-! ## The step of a round -/

/-- A plain loop goes on by one, toward its limit. -/
theorem Completes.strides_plain (h : l.Completes [] x) (hplain : l.byStep = false) :
    l.Strides (if l.ascending then 1 else -1) x := by
  intro is i y hrounds hbegins
  obtain ⟨z, hbody, hkept⟩ := h is i y hrounds hbegins
  have hreturns := hkept.trans hbegins.returns
  refine ⟨z, { z.1.machine with returns := l.returns }, hbody, hreturns, ?_, rfl⟩
  rw [hplain]
  exact endRound_run_plain _ hreturns

/-- A body that ends with a number goes on by that number. -/
theorem Completes.strides_number
    (h : l.Completes [.block [.leaf (.number stride)]] x) (hbyStep : l.byStep = true) :
    l.Strides stride x := by
  intro is i y hrounds hbegins
  obtain ⟨⟨s, codes⟩, hbody, hkept⟩ := h is i y hrounds hbegins
  have hreturns : s.machine.returns = i :: l.returns := hkept.trans hbegins.returns
  obtain ⟨hframes, hwait⟩ := hbody.remains
  -- Two steps are left of the round: the number is pushed, and the block of the body is finished.
  let pushed : Session :=
    { s with
      machine := { s.machine with data := stride :: s.machine.data }
      frames := .block [] :: l.around i }
  have hpush : s.tick = .more pushed := tick_of_tree hwait hframes
  have hrest : RunsUntil [] (l.around i) (s, codes) ({ pushed with frames := l.around i }, codes) :=
    .step hframes (not_remains_of_above hframes) (tickServed_of_more hpush codes)
      (.finished codes hwait rfl)
  refine ⟨_, { s.machine with returns := l.returns }, hbody.trans hrest, hreturns, ?_, rfl⟩
  rw [hbyStep]
  exact endRound_run_byStep _ hreturns rfl

end CountedLoop

end Session

end Forth
