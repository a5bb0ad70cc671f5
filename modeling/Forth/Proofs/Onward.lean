import Forth.Proofs.HostCalls

/-!
# From a session to a later one

A host sees a session only between its calls, but many statements are about what happens inside of
a call, between two steps of a line.  `Onward` leads from a session to all that may become of it:
between any two steps the host may add words, change the machine and, where no line is in progress,
start one.  What a host comes to by its calls is part of this (`HostRun.between`), and so is every
session that a line passes on its way, so a statement about all of `Onward` needs one case for each
kind of step and none for the calls (`Occurs.onward`).

What is left to the host are the words that it adds and the machines that it puts in the place of
the one it finds.  Both are parameters; the calls themselves change no return stack behind the back
of a line (`RespectsReturns`).
-/

namespace Forth

namespace Session

/-- The second session may become of the first one.  The parameters tell which words the host may
add and how it may change the machine. -/
inductive Onward (word : Primitive → Prop) (change : Session → Machine → Prop) (s : Session) :
    Session → Prop
  | here : Onward word change s s
  | addPrimitive {t : Session} (h : Onward word change s t) (name : String) {p : Primitive}
    (hp : word p) : Onward word change s (t.addPrimitive name p)
  | addConstant {t : Session} (h : Onward word change s t) (name : String) (n : Cell) :
    Onward word change s (t.addConstant name n)
  | adjust {t : Session} (h : Onward word change s t) {m : Machine} (hm : change t m) :
    Onward word change s { t with machine := m }
  | startLine {t : Session} (h : Onward word change s t) (hline : t.line = none) (text : String) :
    Onward word change s (t.startLine text)
  | step {t u : Session} (h : Onward word change s t) (htick : t.tick = .more u) :
    Onward word change s u
  /-- The line ends, or it has to wait. -/
  | stop {t u : Session} (h : Onward word change s t) {reply : Reply}
    (htick : t.tick = .done (reply, u)) : Onward word change s u

/-- The host may do what it likes to the machine. -/
def Freely (_ : Session) (_ : Machine) : Prop := True

/-- The host may do what it likes to the machine but for the return stack, and to the return stack
while no line is in progress. -/
def BetweenLines (s : Session) (m : Machine) : Prop :=
  s.line = none ∨ m.returns = s.machine.returns

/-- All that leaves the return stack alone is allowed. -/
def RespectsReturns (change : Session → Machine → Prop) : Prop :=
  ∀ (s : Session) (m : Machine), m.returns = s.machine.returns → change s m

theorem respectsReturns_freely : RespectsReturns Freely :=
  fun _ _ _ => trivial

theorem respectsReturns_betweenLines : RespectsReturns BetweenLines :=
  fun _ _ h => .inr h

variable {word : Primitive → Prop} {change : Session → Machine → Prop} {s t u : Session}

/-! ## The primitive words -/

/-- No primitive words come into a session but those that the host adds. -/
theorem Onward.usesOnly {P : Primitive → Prop} (h : Onward word change s t)
    (hword : ∀ p, word p → P p) (hs : s.UsesOnly P) : t.UsesOnly P := by
  induction h with
  | here => exact hs
  | addPrimitive _ name hp ih => exact ih.define (.primitive (hword _ hp))
  | addConstant _ name n ih => exact ih.define (.value n)
  | adjust _ _ ih | startLine _ _ _ ih => exact ⟨ih.dictionary, ih.frames, ih.gathering⟩
  | step _ htick ih | stop _ htick ih =>
    have hstep := ih.tick
    rwa [htick] at hstep

/-! ## While no line is in progress -/

theorem Unloaded.of_line (hline : s.line ≠ none) : s.Unloaded :=
  fun hnone => absurd hnone hline

theorem Onward.unloaded (h : Onward word change s t) (hs : s.Unloaded) : t.Unloaded := by
  induction h with
  | here => exact hs
  | addPrimitive _ _ _ ih | addConstant _ _ _ ih | adjust _ _ ih => exact ih
  | startLine _ _ _ _ => exact .of_line nofun
  | step _ htick ih =>
    have hadvanced := (advanced_of_tick htick).2
    exact .of_line (hadvanced.kept.2 (ih.line_of_advanced hadvanced nofun))
  | stop _ htick ih =>
    cases stopped_of_tick htick with
    | waiting _ => exact ih
    | finished _ hframes hg =>
      exact fun _ => ⟨hframes, fun _ _ hblock => nomatch hg.symm.trans hblock⟩
    | defining _ hframes hg =>
      exact fun _ => ⟨hframes, fun _ _ hblock => nomatch hg.symm.trans hblock⟩
    | unclosed _ _ _ | failed _ _ => exact fun _ => ⟨rfl, nofun⟩

/-! ## The line in progress -/

/-- The line in progress started when the return stack had this depth.  Whatever the host does to
the machine and the dictionary since, it is still the same line. -/
inductive InLine : Nat → Session → Prop
  | startLine (s : Session) (text : String) :
    InLine s.machine.returns.length (s.startLine text)
  | step {depth : Nat} {s t : Session} (h : InLine depth s) (htick : s.tick = .more t) :
    InLine depth t
  | between {depth : Nat} {s : Session} (h : InLine depth s) (m : Machine) (d : Dictionary) :
    InLine depth { s with machine := m, dictionary := d }

variable {depth : Nat}

theorem InLine.line (h : InLine depth s) : s.line ≠ none := by
  induction h with
  | startLine s text => exact nofun
  | step _ htick ih => exact (advanced_of_tick htick).2.kept.2 ih
  | between _ _ _ ih => exact ih

/-- The session keeps the depth at which its line started. -/
theorem InLine.returnDepth (h : InLine depth s) : s.returnDepth = depth := by
  induction h with
  | startLine s text => rfl
  | step _ htick ih => exact (advanced_of_tick htick).2.kept.1.trans ih
  | between _ _ _ ih => exact ih

/-- A session that is left with a line in progress is the one in which the line has to wait. -/
theorem Stopped.eq_of_line {reply : Reply} (h : Stopped s reply t) (hline : t.line ≠ none) :
    t = s := by
  cases h with
  | waiting _ => rfl
  | finished _ _ _ | defining _ _ _ | unclosed _ _ _ | failed _ _ => exact absurd rfl hline

/-- Whatever line is in progress, it has started at some point. -/
theorem Onward.inLine (h : Onward word change s t) (hs : s.Unloaded) (hrest : s.line = none)
    (hline : t.line ≠ none) : ∃ depth, InLine depth t := by
  induction h with
  | here => exact absurd hrest hline
  | addPrimitive _ name _ ih | addConstant _ name _ ih =>
    obtain ⟨depth, h⟩ := ih hline
    exact ⟨depth, h.between _ _⟩
  | @adjust t _ m _ ih =>
    obtain ⟨depth, h⟩ := ih hline
    exact ⟨depth, h.between m t.dictionary⟩
  | @startLine t _ _ text => exact ⟨_, .startLine t text⟩
  | step honward htick ih =>
    have hadvanced := (advanced_of_tick htick).2
    obtain ⟨depth, h⟩ := ih ((honward.unloaded hs).line_of_advanced hadvanced nofun)
    exact ⟨depth, h.step htick⟩
  | stop _ htick ih =>
    obtain rfl := (stopped_of_tick htick).eq_of_line hline
    exact ih hline

/-! ## Runs -/

theorem Onward.leads (h : Onward word change s t) (hrun : Leads tick t u) :
    Onward word change s u := by
  induction hrun with
  | refl _ => exact h
  | more htick _ ih => exact ih (h.step htick)

/-- What a run of a line comes to, and that it waits or is over then. -/
theorem Onward.ends {reply : Reply} (h : Onward word change s t)
    (hrun : Ends tick t (reply, u)) :
    Onward word change s u ∧ (u.machine.wait = none → u.line = none) := by
  generalize hr : (reply, u) = r at hrun
  induction hrun with
  | done htick =>
    subst hr
    exact ⟨h.stop htick, (stopped_of_tick htick).line⟩
  | more htick _ ih => exact ih (h.step htick) hr

section

variable (hchange : RespectsReturns change)

include hchange

/-- The next of the queued lines starts when the line in progress is over. -/
theorem Onward.stepAll (h : Onward word change s t) (htick : t.tickAll = .more u) :
    Onward word change s u := by
  cases allStepped_of_tickAll htick with
  | more hstep => exact h.step hstep
  | @next v _ text queue hstep hwait _ =>
    have hrest := (h.stop hstep).adjust (hchange v { v.machine with queue } rfl)
    exact hrest.startLine ((stopped_of_tick hstep).line hwait) text

theorem Onward.leads_all (h : Onward word change s t) (hrun : Leads tickAll t u) :
    Onward word change s u := by
  induction hrun with
  | refl _ => exact h
  | more htick _ ih => exact ih (h.stepAll hchange htick)

theorem Onward.ends_all {reply : Reply} (h : Onward word change s t)
    (hrun : Ends tickAll t (reply, u)) :
    Onward word change s u ∧ (u.machine.wait = none → u.line = none) := by
  generalize hr : (reply, u) = r at hrun
  induction hrun with
  | done htick =>
    subst hr
    cases allStepped_of_tickAll htick with
    | done hstep _ => exact ⟨h.stop hstep, (stopped_of_tick hstep).line⟩
  | more htick _ ih => exact ih (h.stepAll hchange htick) hr

theorem Onward.received (h : Onward word change s t) (e : Event) :
    Onward word change s (t.onMachine e.received) :=
  h.adjust (hchange t _ (e.received_returns _))

end

end Session

/-! ## Calls -/

/-- The host may add the words that `word` tells, and its own operations on the machine leave the
wait alone and change the rest as `change` tells. -/
def HostCall.Within (word : Primitive → Prop) (change : Session → Machine → Prop) (s : Session) :
    HostCall → Prop
  | exec action =>
    action.Keeps Machine.wait ∧ change s (finalState (action.run s.machine))
  | addPrimitive _ p => word p
  | _ => True

namespace Session

variable {word : Primitive → Prop} {change : Session → Machine → Prop} {s t u : Session}

/-- What a host may come to by its calls: a line is in progress only if an event is awaited. -/
def Between (word : Primitive → Prop) (change : Session → Machine → Prop) (s t : Session) : Prop :=
  Onward word change s t ∧ (t.machine.wait = none → t.line = none)

/-- A new session, with all words of the language or only with those that are not defined in the
language itself. -/
def IsNew (random : Nat → UInt64) (s : Session) : Prop :=
  s = withPrimitives random ∨ s = boot random

/-- A host that starts from a new session has come to the session by its calls, or it has come to
one in which it submits a line or lets one go on, and the session stands between two steps of
that. -/
inductive Occurs (word : Primitive → Prop) (change : Session → Machine → Prop)
    (random : Nat → UInt64) : Session → Prop
  | between {new s : Session} {calls : List HostCall} (hnew : IsNew random new)
    (hrun : HostRun (fun s c => c.Within word change s) new calls s) : Occurs word change random s
  | submitted {new s t : Session} {calls : List HostCall} (hnew : IsNew random new)
    (hrun : HostRun (fun s c => c.Within word change s) new calls s) (hline : s.line = none)
    (text : String) (hleads : Leads tick (s.startLine text) t) : Occurs word change random t
  | resumed {new s t : Session} {calls : List HostCall} (hnew : IsNew random new)
    (hrun : HostRun (fun s c => c.Within word change s) new calls s) (e : Event)
    (he : e.answers s.machine.wait) (hleads : Leads tickAll (s.onMachine e.received) t) :
    Occurs word change random t

theorem unloaded_withPrimitives (random : Nat → UInt64) : (withPrimitives random).Unloaded :=
  withPrimitives_invariant random (fun _ => ⟨rfl, nofun⟩) fun _ _ _ hs => hs

theorem allowed_withPrimitives (allowed : Exec Unit → Prop) (random : Nat → UInt64) :
    (withPrimitives random).UsesOnly (Primitive.Allowed allowed) :=
  withPrimitives_invariant random (resting_bare random).uses fun _ _ he hs =>
    hs.define (.primitive (allowed_of_mem_builtIn he))

theorem line_withPrimitives (random : Nat → UInt64) : (withPrimitives random).line = none :=
  withPrimitives_invariant (I := fun s => s.line = none) random rfl fun _ _ _ hs => hs

section

variable (hchange : RespectsReturns change)

include hchange

theorem Between.adjust (h : Between word change s t) {m : Machine}
    (hreturns : m.returns = t.machine.returns) (hwait : m.wait = none → t.machine.wait = none) :
    Between word change s { t with machine := m } :=
  ⟨h.1.adjust (hchange t m hreturns), fun hm => h.2 (hwait hm)⟩

theorem Between.readLine {fuel : Nat} {text : String} {reply : Reply}
    (h : Between word change s t) (hread : t.readLine fuel text = some (reply, u)) :
    Between word change s u := by
  unfold Session.readLine at hread
  cases hline : t.line with
  | some rest =>
    simp only [hline, Option.some.injEq, Prod.mk.injEq] at hread
    obtain ⟨-, rfl⟩ := hread
    exact h.adjust hchange rfl id
  | none =>
    simp only [hline] at hread
    exact (h.1.startLine hline text).ends (ends_of_runSteps hread)

theorem Between.deliver {fuel : Nat} {e : Event} {reply : Reply} (h : Between word change s t)
    (hdeliver : t.deliver fuel e = some (reply, u)) : Between word change s u := by
  by_cases ha : e.answers t.machine.wait
  · rw [deliver_of_answers ha] at hdeliver
    exact (h.1.received hchange e).ends_all hchange (ends_of_runSteps hdeliver)
  · rw [deliver_of_not_answers ha] at hdeliver
    obtain ⟨-, rfl⟩ := Prod.mk.inj (Option.some.inj hdeliver)
    exact h

/-- A host comes onward by each of its calls. -/
theorem Between.returns {c : HostCall} {reply : HostReply} (hs : s.Unloaded)
    (h : Between word change s t) (hc : c.Within word change t) (hreturns : t.Returns c reply u) :
    Between word change s u := by
  -- By cases on the call.  Lines and sources are made of single lines, so their invariant is that
  -- of one line.
  cases hreturns with
  | readLine hread => exact h.readLine hchange hread
  | readLines hread =>
    exact readLines_invariant (fun _ _ _ _ _ h _ hread => Between.readLine hchange h hread)
      (fun _ _ => trivial) h hread
  | loadSource hload =>
    exact loadLines_invariant (fun _ _ _ _ _ h _ hread => Between.readLine hchange h hread)
      (fun _ _ => trivial) h hload
  | deliver hdeliver => exact h.deliver hchange hdeliver
  | recordKey code =>
    exact h.adjust hchange (Machine.recordKey_returns _ code)
      (Machine.recordKey_wait _ code).symm.trans
  | runFrames hrun =>
    -- With nothing awaited no frame is left, so there is nothing to run.
    have hstill (hwait : t.machine.wait = none) : t.frames = [] :=
      (h.1.unloaded hs (h.2 hwait)).1
    exact (runFrames_of_still hstill hrun).2 ▸ h
  | suspend w => exact h.adjust hchange rfl nofun
  | exec action =>
    rw [exec_snd]
    exact ⟨h.1.adjust hc.2, fun hm => h.2 ((hc.1 _).symm.trans hm)⟩
  | addVariable name =>
    have hadjusted := h.adjust hchange
      (m := { t.machine with memory := (t.machine.memory.addVariable name).2 }) rfl id
    exact ⟨hadjusted.1.addConstant name _, h.2⟩
  | addConstant name n => exact ⟨h.1.addConstant name n, h.2⟩
  | addPrimitive name p => exact ⟨h.1.addPrimitive name hc, h.2⟩

theorem between_boot (random : Nat → UInt64) :
    Between word change (withPrimitives random) (boot random) := by
  have hnew : Between word change (withPrimitives random) (withPrimitives random) :=
    ⟨.here, fun _ => line_withPrimitives random⟩
  rcases boot_cases random with h | ⟨s, hload, h⟩
  · rw [h]
    exact hnew
  · rw [h]
    have hloaded := loadLines_invariant
      (fun _ _ _ _ _ h _ hread => Between.readLine hchange h hread) (fun _ _ => trivial) hnew hload
    exact hloaded.adjust hchange rfl id

theorem between_of_isNew {random : Nat → UInt64} (hnew : s.IsNew random) :
    Between word change (withPrimitives random) s := by
  cases hnew with
  | inl h =>
    rw [h]
    exact ⟨.here, fun _ => line_withPrimitives random⟩
  | inr h =>
    rw [h]
    exact between_boot hchange random

theorem HostRun.between {random : Nat → UInt64} {calls : List HostCall} (hnew : s.IsNew random)
    (h : HostRun (fun s c => c.Within word change s) s calls t) :
    Between word change (withPrimitives random) t :=
  h.invariant
    (fun _ _ _ _ h hc hreturns => h.returns hchange (unloaded_withPrimitives random) hc hreturns)
    (between_of_isNew hchange hnew)

theorem Occurs.onward {random : Nat → UInt64} (h : Occurs word change random s) :
    Onward word change (withPrimitives random) s := by
  cases h with
  | between hnew hrun => exact (hrun.between hchange hnew).1
  | submitted hnew hrun hline text hleads =>
    exact ((hrun.between hchange hnew).1.startLine hline text).leads hleads
  | resumed hnew hrun e _ hleads =>
    exact ((hrun.between hchange hnew).1.received hchange e).leads_all hchange hleads

end

end Session

end Forth
