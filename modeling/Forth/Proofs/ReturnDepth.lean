import Forth.Proofs.LoopIndices
import Forth.Proofs.Onward

/-!
# The depth of the return stack

Lines may take more off the return stack than they put there, and they may fail between the two.
What a line that fails leaves on the return stack depends on how deep it reached: the cells that it
never took off are still where they were, and all that it put above the depth at which it started is
gone (`errors_restore_the_return_stack`).

The depth is needed as it is within a step, since a counted loop takes its index off before it puts
the next one there.  So each part of a step tells the least depth that it comes to (`Primitive.dip`
up to `Session.dip`), and `Stack.Moves` tells what the stack can have become on the way.  A `Course`
follows a line from its start, with what the return stack held there and the least depth since.
-/

namespace Forth

/-! ## Pushing and popping -/

/-- Pushing and popping leads from the first stack to the second, and `low` is the least depth on
the way. -/
inductive Stack.Moves (s : Stack) : Nat → Stack → Prop
  | here : Moves s s.length s
  | push {low : Nat} {t : Stack} (h : Moves s low t) (n : Cell) : Moves s low (n :: t)
  | pop {low : Nat} {n : Cell} {t : Stack} (h : Moves s low (n :: t)) :
    Moves s (min low t.length) t

namespace Stack

variable {s t u : Stack} {low low' : Nat}

theorem Moves.le (h : s.Moves low t) : low ≤ s.length ∧ low ≤ t.length := by
  induction h with
  | here => exact ⟨Nat.le_refl _, Nat.le_refl _⟩
  | push _ n ih => exact ⟨ih.1, Nat.le_succ_of_le ih.2⟩
  | pop _ ih => exact ⟨Nat.le_trans (Nat.min_le_left _ _) ih.1, Nat.min_le_right _ _⟩

theorem Moves.trans (h : s.Moves low t) (h' : t.Moves low' u) : s.Moves (min low low') u := by
  induction h' with
  | here => rwa [Nat.min_eq_left h.le.2]
  | push _ n ih => exact ih.push n
  | pop _ ih =>
    rw [← Nat.min_assoc]
    exact ih.pop

theorem Moves.of_eq (h : t = s) : s.Moves s.length t :=
  h ▸ .here

/-- What lies below the least depth is untouched. -/
theorem Moves.truncate (h : s.Moves low t) : t.truncate low = s.truncate low := by
  induction h with
  | here => rfl
  | push h n ih => rw [truncate_cons n h.le.2, ih]
  | @pop low n t _ ih =>
    have hlow : min low (min low t.length) = min low t.length :=
      Nat.min_eq_right (Nat.min_le_left _ _)
    calc Stack.truncate t (min low t.length)
      _ = Stack.truncate (n :: t) (min low t.length) :=
        (truncate_cons n (Nat.min_le_right _ _)).symm
      _ = (Stack.truncate (n :: t) low).truncate (min low t.length) := by
        rw [truncate_truncate, hlow]
      _ = s.truncate (min low t.length) := by rw [ih, truncate_truncate, hlow]

/-- Cut back to its depth, the stack is the same up to the least depth on the way. -/
theorem Moves.restored (h : s.Moves low t) :
    (t.truncate s.length).length ≤ s.length ∧
      (t.truncate s.length).truncate low = s.truncate low ∧
      (s.length ≤ low → t.truncate s.length = s) := by
  refine ⟨?_, ?_, fun hlow => ?_⟩
  · rw [length_truncate]
    exact Nat.min_le_left _ _
  · rw [truncate_truncate, Nat.min_eq_right h.le.1, h.truncate]
  · have hdepth : low = s.length := Nat.le_antisymm h.le.1 hlow
    rw [← hdepth, h.truncate, truncate_of_length_le hlow]

/-- Any stack can become any other one, at worst by way of the empty one. -/
theorem Moves.zero : s.Moves 0 t := by
  have hempty : ∀ (u : Stack) (low : Nat), s.Moves low u → s.Moves 0 [] := by
    intro u
    induction u with
    | nil =>
      intro low h
      obtain rfl := Nat.le_zero.1 h.le.2
      exact h
    | cons n u ih => exact fun low h => ih _ h.pop
  induction t with
  | nil => exact hempty s _ .here
  | cons n t ih => exact ih.push n

end Stack

/-! ## How deep a step reaches -/

/-- What `dips` tells about a word of the host is the least depth of the return stack while the word
runs. -/
def TellsDips (dips : Exec Unit → Machine → Nat) : Prop :=
  ∀ (action : Exec Unit) (m : Machine),
    m.returns.Moves (dips action m) (finalState (action.run m)).returns

variable (dips : Exec Unit → Machine → Nat)

/-- The least depth of the return stack while the word runs. -/
def Primitive.dip (m : Machine) : Primitive → Nat
  | fromReturn => m.returns.length - 1
  | host action => dips action m
  | _ => m.returns.length

/-- The same for an operation; what a compiled word does is left to its frames. -/
def Operation.dip (m : Machine) : Operation → Nat
  | invoke _ (.primitive p) => p.dip dips m
  | _ => m.returns.length

/-- The same for the beginning of a tree. -/
def Tree.dip (m : Machine) : Tree → Nat
  | leaf operation => operation.dip dips m
  | _ => m.returns.length

/-- The same for a step of a frame.  A counted loop takes its index off first of all. -/
def Frame.dip (m : Machine) : Frame → Nat
  | block (t :: _) => t.dip dips m
  | counted _ _ _ _ _ => m.returns.length - 1
  | _ => m.returns.length

/-- The same for an action that is not gathered. -/
def Action.dip (m : Machine) : Action → Nat
  | perform operation => operation.dip dips m
  | control _ => m.returns.length

/-- The least depth of the return stack while the next step is made. -/
def Session.dip (s : Session) : Nat :=
  match s.frames, s.gathering, s.line.bind Token.next? with
  | f :: _, _, _ => f.dip dips s.machine
  | [], .nothing, some (t, _) =>
    match t.resolve s.dictionary with
    | .ok a => a.dip dips s.machine
    | .error _ => s.machine.returns.length
  | _, _, _ => s.machine.returns.length

/-- A further round of a loop, if there is one, pushes its index. -/
theorem moves_roundMachine {s : Stack} {low : Nat} {m : Machine} (h : s.Moves low m.returns)
    (index limit : Cell) (ascending : Bool) :
    s.Moves low (roundMachine index limit ascending m).returns := by
  unfold roundMachine
  split
  · exact h.push index
  · exact h

/-- The end of a round takes the index off, if there is one. -/
theorem moves_endRound (byStep ascending : Bool) (m : Machine) :
    m.returns.Moves (m.returns.length - 1)
      (finalState ((endRound byStep ascending).run m)).returns := by
  cases hreturns : m.returns with
  | nil =>
    have hrun : (endRound byStep ascending).run m = .error .returnStackUnderflow m := by
      simp only [endRound, EStateM.run_bind, Exec.popReturn_run, hreturns]
    rw [hrun]
    exact .of_eq hreturns
  | cons n returns =>
    rw [endRound_returns byStep ascending hreturns]
    have hpop := Stack.Moves.here.pop (n := n) (t := returns)
    rwa [List.length_cons, Nat.min_eq_right (Nat.le_succ _)] at hpop

section

variable {dips} (hdips : TellsDips dips)

include hdips

theorem Primitive.moves (p : Primitive) (m : Machine) :
    m.returns.Moves (p.dip dips m) (finalState (p.run.run m)).returns := by
  have hother (hp : p.movesReturn = false) (hlanguage : p.Allowed fun _ => False)
      (hdip : p.dip dips m = m.returns.length) :
      m.returns.Moves (p.dip dips m) (finalState (p.run.run m)).returns :=
    hdip ▸ .of_eq ((sparesReturns_of_language hp hlanguage).returns m)
  cases p with
  | toReturn =>
    simp only [run, EStateM.run_bind, Exec.popData_run]
    cases m.data with
    | nil => exact .here
    | cons n data => exact .push .here n
  | fromReturn =>
    simp only [run, EStateM.run_bind, Exec.popReturn_run, dip]
    cases hreturns : m.returns with
    | nil =>
      simp only [finalState, hreturns]
      exact .here
    | cons n returns =>
      have hpop := Stack.Moves.here.pop (n := n) (t := returns)
      rwa [List.length_cons, Nat.min_eq_right (Nat.le_succ _)] at hpop
  | host action => exact hdips action m
  | _ => exact hother rfl trivial rfl

theorem Operation.moves (operation : Operation) (m : Machine) :
    m.returns.Moves (operation.dip dips m) (finalState (operation.perform.run m)).returns := by
  cases operation with
  | number n | string text => exact .here
  | invoke name word =>
    cases word with
    | compiled body | value n => exact .here
    | primitive p =>
      have hmoves := p.moves hdips m
      simp only [perform, Definition.invoke, EStateM.run_bind]
      cases hrun : p.run.run m <;> rwa [hrun] at hmoves

theorem Tree.moves (t : Tree) (m : Machine) :
    m.returns.Moves (t.dip dips m) (finalState (t.enter.run m)).returns := by
  cases t with
  | leaf operation => exact operation.moves hdips m
  | untilTrue body => exact .here
  | branch consequent alternative =>
    simp only [enter, EStateM.run_bind, Exec.popData_run]
    cases m.data <;> exact .here
  | counted body byStep =>
    have hrange := popRange_returns m
    rw [enter_counted_run]
    cases hrun : popRange.run m with
    | error e m' =>
      rw [hrun] at hrange
      exact .of_eq hrange
    | ok range m' =>
      rw [hrun] at hrange
      exact moves_roundMachine (.of_eq hrange) _ _ _

theorem Frame.moves (f : Frame) (below : List Frame) (m : Machine) :
    m.returns.Moves (f.dip dips m) (finalState ((f.step below).run m)).returns := by
  cases f with
  | block rest =>
    cases rest with
    | nil => exact .here
    | cons t rest =>
      have hmoves := t.moves hdips m
      simp only [step, EStateM.run_bind]
      cases hrun : t.enter.run m <;> rwa [hrun] at hmoves
  | untilTrue body =>
    rw [step_untilTrue_run, Exec.popData_run]
    cases m.data with
    | nil => exact .here
    | cons n data =>
      dsimp only
      split <;> exact .here
  | counted body byStep index limit ascending =>
    -- A round takes the index off, and pushes the next one if there is a further round.
    have hround := moves_endRound byStep ascending m
    rw [step_counted_run]
    cases hrun : (endRound byStep ascending).run m with
    | error e m' =>
      rw [hrun] at hround
      exact hround
    | ok step m' =>
      rw [hrun] at hround
      exact moves_roundMachine hround _ _ _

end

namespace Session

variable {dips} {start : Stack} {low : Nat} {s t : Session}

theorem dip_of_frame {f : Frame} {below : List Frame} (hframes : s.frames = f :: below) :
    s.dip dips = f.dip dips s.machine := by
  simp only [dip, hframes]

theorem dip_of_end (hframes : s.frames = []) (hline : s.line.bind Token.next? = none) :
    s.dip dips = s.machine.returns.length := by
  simp only [dip, hframes, hline]
  cases s.gathering <;> rfl

theorem dip_of_unknown {token : Token} {rest : List Char} {e : Error} (hframes : s.frames = [])
    (hline : s.line.bind Token.next? = some (token, rest))
    (htoken : token.resolve s.dictionary = .error e) :
    s.dip dips = s.machine.returns.length := by
  simp only [dip, hframes, hline]
  cases s.gathering <;> simp only [htoken]

theorem dip_of_gathering (hframes : s.frames = []) (hg : s.gathering ≠ .nothing) :
    s.dip dips = s.machine.returns.length := by
  simp only [dip, hframes]
  cases h : s.gathering with
  | nothing => exact absurd h hg
  | definition _ _ | block _ _ => rfl

theorem dip_of_token {token : Token} {rest : List Char} {a : Action} (hframes : s.frames = [])
    (hg : s.gathering = .nothing) (hline : s.line.bind Token.next? = some (token, rest))
    (htoken : token.resolve s.dictionary = .ok a) : s.dip dips = a.dip dips s.machine := by
  simp only [dip, hframes, hg, hline, htoken]

section

variable (hdips : TellsDips dips)

include hdips

theorem Dispatched.moves {a : Action} {r : EStateM.Result Error Session Unit} {low : Nat}
    (h : Dispatched s a r) (hnothing : s.gathering = .nothing → low = a.dip dips s.machine)
    (hother : s.gathering ≠ .nothing → low = s.machine.returns.length) :
    s.machine.returns.Moves low (finalState r).machine.returns := by
  cases h with
  | @performed operation _ _ hg hrun | @failed operation _ _ hg hrun =>
    have hmoves := operation.moves hdips s.machine
    rw [hrun] at hmoves
    rw [hnothing hg]
    exact hmoves
  -- Whatever else happens, the return stack is not touched.
  | gathered hg _ | defined hg _ | undefined hg _ | nested hg _ | closed hg _ _
  | unbalanced hg _ _ =>
    rw [hother (hg ▸ nofun)]
    exact .here
  | opened hg _ | misplaced hg _ _ | colon hg _ | «variable» hg _ | constant hg _ _
  | valueless hg _ _ | nameless hg _ _ | misnamed hg _ _ =>
    rw [hnothing hg]
    exact .here

/-- In a step the return stack reaches no deeper than is told. -/
theorem Advanced.moves {r : EStateM.Result Error Session Bool} (h : Advanced s r) :
    s.machine.returns.Moves (s.dip dips) (finalState r).machine.returns := by
  cases h with
  | @frame f below _ _ hframes hrun | @frameFailed f below _ _ hframes hrun =>
    have hmoves := f.moves hdips below s.machine
    rw [hrun] at hmoves
    rw [dip_of_frame hframes]
    exact hmoves
  | finished hframes hline =>
    rw [dip_of_end hframes hline]
    exact .here
  | unknown hframes hline htoken =>
    rw [dip_of_unknown hframes hline htoken]
    exact .here
  | dispatched hframes hline htoken h | refused hframes hline htoken h =>
    exact h.moves hdips (fun hg => dip_of_token hframes hg hline htoken)
      fun hg => dip_of_gathering hframes hg

end

/-! ## From the start of a line -/

/-- A line that started when the return stack was `start` has led to this session, and `low` is the
least depth of the return stack since.  While the line runs and waits, the host may change the
dictionary and the machine but for the return stack. -/
inductive Course (dips : Exec Unit → Machine → Nat) : Stack → Nat → Session → Prop
  | startLine (s : Session) (text : String) :
    Course dips s.machine.returns s.machine.returns.length (s.startLine text)
  | step {start : Stack} {low : Nat} {s t : Session} (h : Course dips start low s)
    (htick : s.tick = .more t) : Course dips start (min low (s.dip dips)) t
  | between {start : Stack} {low : Nat} {s : Session} (h : Course dips start low s) {m : Machine}
    (hm : m.returns = s.machine.returns) (d : Dictionary) :
    Course dips start low { s with machine := m, dictionary := d }

theorem Course.inLine (h : Course dips start low s) : InLine start.length s := by
  induction h with
  | startLine s text => exact .startLine s text
  | step _ htick ih => exact ih.step htick
  | between _ _ _ ih => exact ih.between _ _

/-- While the line runs the return stack reaches no deeper than is told. -/
theorem Course.moves (hdips : TellsDips dips) (h : Course dips start low s) :
    start.Moves low s.machine.returns := by
  induction h with
  | startLine s text => exact .here
  | step _ htick ih => exact ih.trans ((advanced_of_tick htick).2.moves hdips)
  | between _ hm _ ih => exact hm ▸ ih

theorem Course.leads (h : Course dips start low s) (hrun : Leads tick s t) :
    ∃ low' ≤ low, Course dips start low' t := by
  induction hrun generalizing low with
  | refl s => exact ⟨low, Nat.le_refl low, h⟩
  | more htick _ ih =>
    obtain ⟨low', hle, ht⟩ := ih (h.step htick)
    exact ⟨low', Nat.le_trans hle (Nat.min_le_left _ _), ht⟩

theorem Course.onMachine (h : Course dips start low s) {m : Machine}
    (hm : m.returns = s.machine.returns) : Course dips start low { s with machine := m } :=
  h.between hm s.dictionary

/-- Lines that are submitted meanwhile are queued. -/
theorem Course.readLine {fuel : Nat} {text : String} {reply : Reply} (h : Course dips start low s)
    (hread : s.readLine fuel text = some (reply, t)) : Course dips start low t := by
  unfold Session.readLine at hread
  cases hline : s.line with
  | none => exact absurd hline h.inLine.line
  | some rest =>
    simp only [hline, Option.some.injEq, Prod.mk.injEq] at hread
    obtain ⟨-, rfl⟩ := hread
    exact h.onMachine rfl

/-- While the line waits, the host can only let it go on by an event that answers the wait. -/
theorem Course.returns {word : Primitive → Prop} {c : HostCall} {reply : HostReply}
    (h : Course dips start low s) (hwait : s.machine.wait ≠ none)
    (hc : c.Within word BetweenLines s)
    (hanswers : ∀ e, c = .deliver e → ¬ e.answers s.machine.wait)
    (hreturns : s.Returns c reply t) : Course dips start low t := by
  cases hreturns with
  | readLine hread => exact h.readLine hread
  | readLines hread =>
    exact readLines_invariant (fun _ _ _ _ _ h _ hread => Course.readLine h hread)
      (fun _ _ => trivial) h hread
  | loadSource hload =>
    exact loadLines_invariant (fun _ _ _ _ _ h _ hread => Course.readLine h hread)
      (fun _ _ => trivial) h hload
  | @deliver _ e _ _ hdeliver =>
    -- An event that is awaited would resume the line; any other one is refused.
    rw [deliver_of_not_answers (hanswers e rfl)] at hdeliver
    obtain ⟨-, rfl⟩ := Prod.mk.inj (Option.some.inj hdeliver)
    exact h
  | recordKey code => exact h.onMachine (Machine.recordKey_returns _ code)
  | runFrames hrun => exact (runFrames_of_still (fun hnone => absurd hnone hwait) hrun).2 ▸ h
  | suspend w => exact h.onMachine rfl
  | exec action =>
    rw [exec_snd]
    exact h.onMachine (hc.2.resolve_left h.inLine.line)
  | addVariable name =>
    exact h.between (m := { s.machine with memory := (s.machine.memory.addVariable name).2 }) rfl _
  | addConstant name n => exact h.between rfl _
  | addPrimitive name p => exact h.between rfl _

/-- Whatever line is in progress, it has started at some point. -/
theorem Onward.course {word : Primitive → Prop} (h : Onward word BetweenLines s t)
    (hs : s.Unloaded) (hrest : s.line = none) (hline : t.line ≠ none) :
    ∃ start low, Course dips start low t := by
  induction h with
  | here => exact absurd hrest hline
  | addPrimitive _ name _ ih | addConstant _ name _ ih =>
    obtain ⟨start, low, h⟩ := ih hline
    exact ⟨start, low, h.between rfl _⟩
  | adjust _ hm ih =>
    obtain ⟨start, low, h⟩ := ih hline
    exact ⟨start, low, h.onMachine (hm.resolve_left h.inLine.line)⟩
  | @startLine t _ _ text => exact ⟨_, _, .startLine t text⟩
  | step honward htick ih =>
    have hadvanced := (advanced_of_tick htick).2
    obtain ⟨start, low, h⟩ := ih ((honward.unloaded hs).line_of_advanced hadvanced nofun)
    exact ⟨start, _, h.step htick⟩
  | stop _ htick ih =>
    obtain rfl := (stopped_of_tick htick).eq_of_line hline
    exact ih hline

/-! ## When a line fails -/

/-- A line that fails reaches no deeper in its last step than is told, and is abandoned then. -/
theorem Stopped.moves (hdips : TellsDips dips) {e : Error} (h : Stopped s (.error e) t) :
    ∃ u : Session, s.machine.returns.Moves (s.dip dips) u.machine.returns ∧
      u.returnDepth = s.returnDepth ∧ t = (u.abandon e).2 := by
  cases h with
  | unclosed _ hframes hg =>
    refine ⟨s, ?_, rfl, rfl⟩
    rw [dip_of_gathering hframes (hg ▸ nofun)]
    exact .here
  | @failed e u _ h => exact ⟨u, h.moves hdips, h.kept.1, rfl⟩

/-- What a failed line leaves on the return stack is what is left of the stack at the depth of its
start. -/
theorem Course.returns_of_error (hdips : TellsDips dips) {e : Error} (h : Course dips start low s)
    (htick : s.tick = .done (.error e, t)) :
    ∃ returns : Stack, start.Moves (min low (s.dip dips)) returns ∧
      t.machine.returns = returns.truncate start.length := by
  obtain ⟨u, hmoves, hdepth, rfl⟩ := (stopped_of_tick htick).moves hdips
  refine ⟨u.machine.returns, (h.moves hdips).trans hmoves, ?_⟩
  rw [← h.inLine.returnDepth, ← hdepth]
  rfl

/-- **Errors restore the return stack.**  Whatever a host that started from a new session calls, as
long as it leaves the return stack alone while a line is in progress: a line that is in progress, be
it submitted directly or taken from the queue, has a course from its start.  What the return stack
held at the start and the least depth that it had since stay with the line through all that the host
does while the line waits.  If the line fails, the return stack is no deeper than at its start, it
is the same from the bottom up to the least depth that it had while the line ran, and it is the same
altogether if the line never took it below its depth at the start. -/
theorem errors_restore_the_return_stack (hdips : TellsDips dips) (word : Primitive → Prop) :
    (∀ random s, Occurs word BetweenLines random s → s.line ≠ none →
      ∃ start low, Course dips start low s) ∧
    ∀ start low s, Course dips start low s →
      (∀ t, Leads tick s t → ∃ low' ≤ low, Course dips start low' t) ∧
      (∀ c reply t, s.machine.wait ≠ none → c.Within word BetweenLines s →
        (∀ e, c = .deliver e → ¬ e.answers s.machine.wait) → s.Returns c reply t →
          Course dips start low t) ∧
      (∀ e : Event, Course dips start low (s.onMachine e.received)) ∧
      ∀ e t, s.tick = .done (.error e, t) →
        t.machine.returns.length ≤ start.length ∧
        t.machine.returns.truncate (min low (s.dip dips)) =
          start.truncate (min low (s.dip dips)) ∧
        (start.length ≤ min low (s.dip dips) → t.machine.returns = start) := by
  refine ⟨fun random s h hline => ?_, fun start low s h => ⟨fun t => h.leads,
    fun c reply t hwait hc hanswers hreturns => h.returns hwait hc hanswers hreturns,
    fun e => h.onMachine (e.received_returns _), fun e t htick => ?_⟩⟩
  · have honward := h.onward respectsReturns_betweenLines
    exact honward.course (unloaded_withPrimitives random) (line_withPrimitives random) hline
  · obtain ⟨returns, hmoves, hreturns⟩ := h.returns_of_error hdips htick
    rw [hreturns]
    exact hmoves.restored

/-- It is always true that a word of the host may have emptied the return stack. -/
theorem tellsDips_zero : TellsDips fun _ _ => 0 :=
  fun _ _ => .zero

/-- The line takes the upper one of two cells off the return stack, and fails after an event. -/
theorem errors_restore_the_lower_cell :
    (∃ start low,
      Course (fun _ _ => 0) start low ((withPrimitives fun _ => 0).startLine "r> key /")) ∧
    ∃ s t, Course (fun _ _ => 0) [8, 7] 1 s ∧ s.tick = .done (.error .divisionByZero, t) ∧
      t.machine.returns.truncate 1 = [7] ∧ t.machine.returns.length ≤ 2 := by
  obtain ⟨hoccurs, hcourses⟩ := errors_restore_the_return_stack tellsDips_zero fun _ => True
  let start : Session :=
    (withPrimitives fun _ => 0).onMachine fun m => { m with returns := [8, 7] }
  obtain ⟨u, v, t, hfirst, hsecond, hdip, hdip', hlast, herror⟩ : ∃ u v t : Session,
      (start.startLine "r> key /").tick = .more u ∧ u.tick = .more v ∧
      (start.startLine "r> key /").dip (fun _ _ => 0) = 1 ∧ u.dip (fun _ _ => 0) = 1 ∧
      (v.onMachine (Event.key 0).received).dip (fun _ _ => 0) = 1 ∧
      (v.onMachine (Event.key 0).received).tick = .done (.error .divisionByZero, t) :=
    ⟨_, _, _, rfl, rfl, rfl, rfl, rfl, rfl⟩
  have hcourse : Course (fun _ _ => 0) [8, 7] 1 v := by
    have hstart : Course (fun _ _ => 0) [8, 7] 2 (start.startLine "r> key /") := .startLine start _
    have hsteps := (hstart.step hfirst).step hsecond
    rwa [hdip, hdip'] at hsteps
  have hs := (hcourses _ _ _ hcourse).2.2.1 (.key 0)
  obtain ⟨hdepth, hkept, -⟩ := (hcourses _ _ _ hs).2.2.2 _ t herror
  rw [hlast] at hkept
  have hsubmitted := hoccurs (fun _ => 0) _
    (.submitted (.inl rfl) (.nil _) rfl "r> key /" (.refl _)) nofun
  exact ⟨hsubmitted, _, t, hs, herror, hkept, hdepth⟩

end Session

end Forth
