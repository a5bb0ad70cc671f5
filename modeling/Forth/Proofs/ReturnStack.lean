import Forth.Proofs.HostCalls
import Forth.Proofs.LoopIndices
import Forth.Proofs.Suspension

/-!
# The return stack and the loops

`Moment` holds of all that a session is between any two steps, together with what the return stack
held when the last line started.  At each moment the return stack mirrors the loops that are active,
so `i` and `j` find the indices of the innermost loop and of the one around it, and a line leaves
the return stack as it found it, whether it fails or not (`return_stack_mirrors_loops`).
-/

namespace Forth

namespace Session

variable {start : Stack} {s t : Session}

/-! ## Moments of a session -/

/-- All that a session is between any two steps, and what the return stack held when the last line
started, or what the host has put there since.  The host may add words, change the machine, submit
lines and make the session wait between any two steps, but its words and lines leave the return stack
alone, and so does the host while a line is in progress. -/
inductive Moment : Stack → Session → Prop
  | new (random : Nat → UInt64) : Moment [] (withPrimitives random)
  | addPrimitive {start : Stack} {s : Session} (h : Moment start s) (name : String)
    {p : Primitive} (hp : p.SparesReturns) : Moment start (s.addPrimitive name p)
  | addConstant {start : Stack} {s : Session} (h : Moment start s) (name : String) (n : Cell) :
    Moment start (s.addConstant name n)
  | adjust {start : Stack} {s : Session} (h : Moment start s) {m : Machine}
    (hreturns : m.returns = s.machine.returns) (hqueue : m.QueueSparesReturns) :
    Moment start { s with machine := m }
  /-- Between two lines the return stack is at the disposal of the host. -/
  | between {start : Stack} {s : Session} (h : Moment start s) (hline : s.line = none)
    {m : Machine} (hqueue : m.QueueSparesReturns) : Moment m.returns { s with machine := m }
  | startLine {start : Stack} {s : Session} (h : Moment start s) (hline : s.line = none)
    {text : String} (htext : LineSparesReturns text.toList) :
    Moment s.machine.returns (s.startLine text)
  | step {start : Stack} {s t : Session} (h : Moment start s) (htick : s.tick = .more t) :
    Moment start t
  /-- The line ends, or it has to wait. -/
  | stop {start : Stack} {s t : Session} (h : Moment start s) {reply : Reply}
    (htick : s.tick = .done (reply, t)) : Moment start t

theorem mirrored_withPrimitives (random : Nat → UInt64) : Mirrored [] (withPrimitives random) := by
  have hnames : Primitive.builtIn.all fun e =>
      returnWords.contains (Text.lowerCase e.1) || !e.2.movesReturn := by decide +kernel
  refine withPrimitives_invariant random ?_ fun s e he hs => ?_
  · have hbare : (bare random).UsesOnly Primitive.SparesReturns := (resting_bare random).uses
    exact ⟨⟨fun entry hentry _ => hbare.dictionary entry hentry, .nil, trivial, nofun, nofun⟩, rfl,
      fun h => absurd rfl h, fun _ => ⟨rfl, nofun⟩⟩
  · have hadded := hs.define_of_name e.1 fun hname =>
      .primitive (Primitive.sparesReturns_of_language
        (by simpa [hname] using List.all_eq_true.1 hnames e he) (allowed_of_mem_builtIn he))
    exact ⟨hadded, hs.returns, hs.depth, hs.rest⟩

theorem Moment.mirrored (h : Moment start s) : Mirrored start s := by
  induction h with
  | new random => exact mirrored_withPrimitives random
  | addPrimitive _ name hp ih =>
    exact ⟨ih.toSparesReturns.define (.primitive hp) name, ih.returns, ih.depth, ih.rest⟩
  | addConstant _ name n ih =>
    exact ⟨ih.toSparesReturns.define (.value n) name, ih.returns, ih.depth, ih.rest⟩
  | adjust _ hreturns hqueue ih => exact ih.onMachine hreturns hqueue
  | @between start s _ hline m hqueue ih =>
    obtain ⟨hframes, hg⟩ := ih.rest hline
    refine ⟨ih.toSparesReturns.onMachine hqueue, ?_, fun h => absurd hline h,
      fun _ => ⟨hframes, hg⟩⟩
    change m.returns = loopIndices s.frames ++ m.returns
    rw [hframes]
    rfl
  | startLine _ hline htext ih => exact ih.startLine hline htext
  | step _ htick ih => exact ih.advanced (advanced_of_tick htick).2
  | stop _ htick ih => exact ih.stopped (stopped_of_tick htick)

/-! ## What a line sees and what it leaves -/

/-- The indices are the topmost cells of the return stack. -/
theorem Mirrored.peek? (hs : Mirrored start s) {k : Nat} {n : Cell}
    (hn : (loopIndices s.frames)[k]? = some n) : s.machine.returns.peek? (k + 1) = some n := by
  have hk : k < (loopIndices s.frames).length := (List.getElem?_eq_some_iff.1 hn).1
  have hcell : max (k + 1) 1 - 1 = k := by omega
  rw [Stack.peek?, hs.returns, hcell, List.getElem?_append_left hk, hn]

/-- A word that copies a cell of the return stack pushes it. -/
theorem tick_of_peek {p : Primitive} {s' : Session} {k : Nat} {n : Cell}
    (hp : p.run = Exec.peekReturn k >>= Exec.pushData) (hwait : s.machine.wait = none)
    (hnext : s.nextPrimitive? = some (p, s')) (hn : s.machine.returns.peek? k = some n) :
    s.tick = .more (s'.onMachine fun m => { m with data := n :: m.data }) := by
  rw [← nextPrimitive?_machine hnext] at hn
  rw [tick_of_nextPrimitive? hwait hnext, stepBy, lift_run, hp]
  simp only [EStateM.run_bind, Exec.peekReturn, EStateM.run_get, hn, EStateM.run_pure,
    Exec.pushData_run, onMachine]

/-! ## Runs -/

theorem Moment.leads (hs : Moment start s) (h : Leads tick s t) : Moment start t := by
  induction h with
  | refl s => exact hs
  | more h _ ih => exact ih (hs.step h)

/-- A line that is over left the return stack as it found it. -/
theorem Moment.returns_of_ends {reply : Reply} (hs : Moment start s) (h : Ends tick s (reply, t))
    (hreply : ∀ w, reply ≠ .ok (.suspended w)) : t.machine.returns = start := by
  generalize hr : (reply, t) = r at h
  induction h with
  | @done s r h =>
    subst hr
    have hstopped := stopped_of_tick h
    have hwait : t.machine.wait = none := Option.eq_none_iff_forall_ne_some.2 fun w hw =>
      hreply w ((hstopped.truthful.wait w).2 hw)
    exact (hs.mirrored.stopped hstopped).returns_of_rest (hstopped.line hwait)
  | more h _ ih => exact ih (hs.step h) hr

/-- The next of the queued lines starts when the line in progress is over. -/
theorem Moment.stepAll (hs : Moment start s) (h : s.tickAll = .more t) :
    ∃ start, Moment start t := by
  cases allStepped_of_tickAll h with
  | more hstep => exact ⟨start, hs.step hstep⟩
  | @next u _ text queue hstep hwait hqueue =>
    have hu := hs.stop hstep
    have hspares := hu.mirrored.queue
    unfold Machine.QueueSparesReturns at hspares
    rw [hqueue] at hspares
    have hrest := hu.adjust (m := { u.machine with queue }) rfl fun x hx => hspares x (.tail _ hx)
    have hline := (stopped_of_tick hstep).line hwait
    exact ⟨_, hrest.startLine hline (hspares text (.head _))⟩

theorem Moment.leads_all (hs : Moment start s) (h : Leads tickAll s t) :
    ∃ start, Moment start t := by
  induction h generalizing start with
  | refl s => exact ⟨start, hs⟩
  | more h _ ih =>
    obtain ⟨_, hnext⟩ := hs.stepAll h
    exact ih hnext

theorem Moment.received (hs : Moment start s) (e : Event) :
    Moment start (s.onMachine e.received) :=
  hs.adjust (e.received_returns _) (hs.mirrored.queue.of_queue (e.received_queue _))

/-! ## The calls of a host -/

/-- What holds whenever control is back at the host. -/
def AtHost (s : Session) : Prop :=
  (∃ start, Moment start s) ∧ (s.machine.wait = none → s.line = none)

theorem Moment.ends {reply : Reply} (hs : Moment start s) (h : Ends tick s (reply, t)) :
    Moment start t ∧ (t.machine.wait = none → t.line = none) := by
  generalize hr : (reply, t) = r at h
  induction h with
  | done h =>
    subst hr
    exact ⟨hs.stop h, (stopped_of_tick h).line⟩
  | more h _ ih => exact ih (hs.step h) hr

theorem Moment.ends_all {reply : Reply} (hs : Moment start s) (h : Ends tickAll s (reply, t)) :
    AtHost t := by
  generalize hr : (reply, t) = r at h
  induction h generalizing start with
  | done h =>
    subst hr
    cases allStepped_of_tickAll h with
    | done hstep _ => exact ⟨⟨start, hs.stop hstep⟩, (stopped_of_tick hstep).line⟩
  | more h _ ih =>
    obtain ⟨_, hnext⟩ := hs.stepAll h
    exact ih hnext hr

theorem AtHost.readLine {fuel : Nat} {text : String} {reply : Reply} (hs : AtHost s)
    (htext : LineSparesReturns text.toList) (h : s.readLine fuel text = some (reply, t)) :
    AtHost t := by
  obtain ⟨⟨start, hs⟩, hrest⟩ := hs
  unfold Session.readLine at h
  cases hline : s.line with
  | some rest =>
    simp only [hline, Option.some.injEq, Prod.mk.injEq] at h
    obtain ⟨-, rfl⟩ := h
    have hqueue := List.forall_mem_append.2
      ⟨hs.mirrored.queue, List.forall_mem_singleton.2 htext⟩
    exact ⟨⟨start, hs.adjust rfl hqueue⟩, hrest⟩
  | none =>
    simp only [hline] at h
    obtain ⟨ht, hrest⟩ := (hs.startLine hline htext).ends (ends_of_runSteps h)
    exact ⟨⟨_, ht⟩, hrest⟩

theorem AtHost.deliver {fuel : Nat} {e : Event} {reply : Reply} (hs : AtHost s)
    (h : s.deliver fuel e = some (reply, t)) : AtHost t := by
  by_cases ha : e.answers s.machine.wait
  · obtain ⟨⟨start, hs⟩, -⟩ := hs
    rw [deliver_of_answers ha] at h
    exact (hs.received e).ends_all (ends_of_runSteps h)
  · rw [deliver_of_not_answers ha] at h
    obtain ⟨-, rfl⟩ := Prod.mk.inj (Option.some.inj h)
    exact hs

theorem AtHost.adjust (hs : AtHost s) {m : Machine} (hreturns : m.returns = s.machine.returns)
    (hqueue : m.queue = s.machine.queue) (hwait : m.wait = none → s.machine.wait = none) :
    AtHost { s with machine := m } := by
  obtain ⟨⟨start, hs⟩, hrest⟩ := hs
  exact ⟨⟨start, hs.adjust hreturns (hs.mirrored.queue.of_queue hqueue)⟩,
    fun h => hrest (hwait h)⟩

theorem AtHost.addConstant (hs : AtHost s) (name : String) (n : Cell) :
    AtHost (s.addConstant name n) :=
  ⟨hs.1.imp fun _ h => h.addConstant name n, hs.2⟩

end Session

/-- The lines that the host submits hold none of the words that move cells between the stacks, the
words that it adds leave the return stack alone, and so do its own operations while a line is in
progress.  They leave the wait and the queue alone as well. -/
def HostCall.SparesReturns (s : Session) : HostCall → Prop
  | readLine text => LineSparesReturns text.toList
  | readLines texts => ∀ text ∈ texts, LineSparesReturns text.toList
  | loadSource source => ∀ text ∈ Text.lines source, LineSparesReturns text.toList
  | exec action => action.Keeps Machine.wait ∧ action.Keeps Machine.queue ∧
      (s.line = none ∨ action.Keeps Machine.returns)
  | addPrimitive _ p => p.SparesReturns
  | _ => True

namespace Session

variable {start : Stack} {s t : Session}

theorem AtHost.exec {action : Exec Unit} (hs : AtHost s)
    (h : (HostCall.exec action).SparesReturns s) : AtHost (s.exec action).2 := by
  obtain ⟨hwait, hqueue, hreturns⟩ := h
  rw [exec_snd]
  obtain hline | hreturns := hreturns
  · obtain ⟨⟨start, hs⟩, -⟩ := hs
    exact ⟨⟨_, hs.between hline (hs.mirrored.queue.of_queue (hqueue _))⟩, fun _ => hline⟩
  · exact hs.adjust (hreturns _) (hqueue _) (hwait s.machine).symm.trans

/-- A host comes by each of its calls to a moment of the session. -/
theorem AtHost.returns {c : HostCall} {reply : HostReply} (hs : AtHost s) (hc : c.SparesReturns s)
    (h : s.Returns c reply t) : AtHost t := by
  cases h with
  | readLine h => exact hs.readLine hc h
  | readLines h => exact readLines_invariant (fun _ _ _ _ _ hs ht h => hs.readLine ht h) hc hs h
  | loadSource h => exact loadLines_invariant (fun _ _ _ _ _ hs ht h => hs.readLine ht h) hc hs h
  | deliver h => exact hs.deliver h
  | recordKey code =>
    exact hs.adjust (Machine.recordKey_returns _ code) (Machine.recordKey_queue _ code)
      (Machine.recordKey_wait _ code).symm.trans
  | runFrames h =>
    obtain ⟨⟨start, hmoment⟩, hrest⟩ := id hs
    have hstill : s.machine.wait = none → s.frames = [] := fun hwait =>
      (hmoment.mirrored.rest (hrest hwait)).1
    rw [(runFrames_of_still hstill h).2]
    exact hs
  | suspend w => exact hs.adjust rfl rfl nofun
  | exec action => exact hs.exec hc
  | addVariable name =>
    have hadjusted := hs.adjust
      (m := { s.machine with memory := (s.machine.memory.addVariable name).2 }) rfl rfl id
    exact hadjusted.addConstant name _
  | addConstant name n => exact hs.addConstant name n
  | addPrimitive name p => exact ⟨hs.1.imp fun _ h => h.addPrimitive name hc, hs.2⟩

/-- The prelude holds none of the words that move cells between the stacks. -/
theorem prelude_sparesReturns : ∀ text ∈ preludeLines, LineSparesReturns text.toList := by
  unfold LineSparesReturns
  decide +kernel

theorem atHost_boot (random : Nat → UInt64) : AtHost (boot random) := by
  have hprimitives : AtHost (withPrimitives random) :=
    ⟨⟨[], .new random⟩, fun _ => rfl⟩
  rcases boot_cases random with h | ⟨s, hload, h⟩
  · rw [h]
    exact hprimitives
  · rw [h]
    have hloaded := loadLines_invariant (fun _ _ _ _ _ hs ht h => AtHost.readLine hs ht h)
      prelude_sparesReturns hprimitives hload
    exact hloaded.adjust rfl rfl id

theorem HostRun.atHost {random : Nat → UInt64} {calls : List HostCall}
    (h : HostRun (fun s c => c.SparesReturns s) (boot random) calls s) : AtHost s :=
  h.invariant (fun _ _ _ _ hs hc h => hs.returns hc h) (atHost_boot random)

/-- **The return stack mirrors the active loops.**  Whenever control is back at a host that started
from a new session, the session is at one of its moments, and so it is after each step of a line that
is submitted and of the lines that an event lets go on.  At each moment the return stack holds the
indices of the counted loops that are active, the innermost on top, and below them what it held when
the line started.  Hence `i` pushes the index of the innermost loop and `j` that of the loop around
it, wherever the body of the loop has led to, and when the line is over, whether it failed or not,
the return stack is as the line found it. -/
theorem return_stack_mirrors_loops :
    (∀ random calls s, HostRun (fun s c => c.SparesReturns s) (boot random) calls s →
      (∃ start, Moment start s) ∧
      (∀ text t, s.line = none → LineSparesReturns text.toList →
        Leads tick (s.startLine text) t → Moment s.machine.returns t) ∧
      ∀ (e : Event) t, e.answers s.machine.wait → Leads tickAll (s.onMachine e.received) t →
        ∃ start, Moment start t) ∧
    ∀ start s, Moment start s →
      s.machine.returns = loopIndices s.frames ++ start ∧
      (∀ s' n, s.machine.wait = none → s.nextPrimitive? = some (.index, s') →
        (loopIndices s.frames)[0]? = some n →
          s.tick = .more (s'.onMachine fun m => { m with data := n :: m.data })) ∧
      (∀ s' n, s.machine.wait = none → s.nextPrimitive? = some (.outerIndex, s') →
        (loopIndices s.frames)[1]? = some n →
          s.tick = .more (s'.onMachine fun m => { m with data := n :: m.data })) ∧
      ∀ reply t, Ends tick s (reply, t) → (∀ w, reply ≠ .ok (.suspended w)) →
        t.machine.returns = start := by
  refine ⟨fun random calls s h => ?_, fun start s h => ?_⟩
  · obtain ⟨start, hs⟩ := h.atHost.1
    refine ⟨⟨start, hs⟩, fun text t hline htext ht => ?_, fun e t ha ht => ?_⟩
    · exact (hs.startLine hline htext).leads ht
    · exact (hs.received e).leads_all ht
  -- The return stack is what the frames say, so `i` and `j` read the indices of the two innermost
  -- loops.
  · have hs := h.mirrored
    refine ⟨hs.returns, fun s' n hwait hnext hn => ?_, fun s' n hwait hnext hn => ?_,
      fun reply t ht hreply => h.returns_of_ends ht hreply⟩
    · exact tick_of_peek rfl hwait hnext (hs.peek? hn)
    · exact tick_of_peek rfl hwait hnext (hs.peek? hn)

theorem return_stack_mirrors_two_loops :
    (∃ start, Moment start ((boot fun _ => 0).recordKey 65)) ∧
    ∃ s s', Moment [] s ∧ s.machine.returns = [1, 0] ∧
      s.nextPrimitive? = some (.outerIndex, s') ∧
      s.tick = .more (s'.onMachine fun m => { m with data := 0 :: m.data }) := by
  obtain ⟨hhost, hmoments⟩ := return_stack_mirrors_loops
  have hrecorded := hhost (fun _ => 0) [.recordKey 65] _
    (.cons trivial (.recordKey 65) (.nil _))
  have htext : LineSparesReturns "2 0 do 3 1 do key j loop loop".toList := by
    unfold LineSparesReturns
    decide +kernel
  obtain ⟨t, s', hread, hframes, hnext⟩ : ∃ t s' : Session,
      (withPrimitives fun _ => 0).readLine 40 "2 0 do 3 1 do key j loop loop" =
        some (.ok (.suspended .key), t) ∧
      loopIndices t.frames = [1, 0] ∧
      (t.onMachine (Event.key 65).received).nextPrimitive? = some (.outerIndex, s') :=
    ⟨_, _, rfl, rfl, rfl⟩
  have ht : Moment [] t :=
    (((Moment.new fun _ => 0).startLine rfl htext).ends (ends_of_runSteps hread)).1
  have hs := ht.received (.key 65)
  obtain ⟨hreturns, -, houter, -⟩ := hmoments _ _ hs
  have hwait := (Event.key 65).received_wait t.machine
  rw [show loopIndices (t.onMachine (Event.key 65).received).frames = [1, 0] from hframes]
    at hreturns houter
  exact ⟨hrecorded.1, _, s', hs, hreturns, hnext, houter s' 0 hwait hnext rfl⟩

end Session

end Forth
