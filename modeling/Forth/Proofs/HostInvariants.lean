import Forth.Proofs.Onward
import Forth.Proofs.SubmissionOrder

/-!
# Invariants that depend on what a host may do

Some properties of a session hold only if a host keeps to terms: its words leave something alone, or
it submits a line only where that makes sense.  A property `Survives` the calls that are permitted if
it survives each step of a line, the start of a line, a change of the queue, and what the other calls
do to the session.  Then it holds after every sequence of calls (`Survives.hostRun`), and between any
two steps of a line that a host submits or lets go on (`Survives.leads`, `Survives.leads_all`).

Whether a call is permitted may depend on the session in which it is made.  The lines of a batch are
submitted one after the other, so each of them is judged where its turn comes (`MaySubmit`).
-/

namespace Forth.Session

/-- All words of a new session satisfy what all words of the language satisfy. -/
theorem IsNew.usesOnly {P : Primitive → Prop} (hP : ∀ p, (p.Allowed fun _ => False) → P p)
    {random : Nat → UInt64} {s : Session} (hnew : IsNew random s) : s.UsesOnly P := by
  have hprimitives : (withPrimitives random).UsesOnly P :=
    withPrimitives_invariant random (resting_bare random).uses fun _ _ he hs =>
      hs.define (.primitive (hP _ (allowed_of_mem_builtIn he)))
  have hbetween : Between P Freely (withPrimitives random) s :=
    between_of_isNew respectsReturns_freely hnew
  exact hbetween.1.usesOnly (fun _ hp => hp) hprimitives

/-- Each line of a batch may be submitted when its turn comes. -/
def MaySubmit (may : Session → String → Prop) : Session → List String → Prop
  | _, [] => True
  | s, text :: texts =>
    may s text ∧ ∀ fuel reply t, s.readLine fuel text = some (reply, t) → MaySubmit may t texts

theorem maySubmit_of_forall {may : Session → String → Prop} (h : ∀ s text, may s text)
    (s : Session) (texts : List String) : MaySubmit may s texts := by
  induction texts generalizing s with
  | nil => trivial
  | cons text texts ih => exact ⟨h s text, fun _ _ t _ => ih t⟩

/-- The property survives each step of a line and all that a host does by calls that are
permitted. -/
structure Survives (permitted : Session → HostCall → Prop) (I : Session → Prop) : Prop where
  step {s t : Session} (hs : I s) (htick : s.tick = .more t) : I t
  /-- The line ends, or it has to wait. -/
  stop {s t : Session} {reply : Reply} (hs : I s) (htick : s.tick = .done (reply, t)) : I t
  start {s : Session} {text : String} (hs : I s) (hline : s.line = none)
    (hc : permitted s (.readLine text)) : I (s.startLine text)
  queued {s : Session} (text : String) (hs : I s) (hline : s.line ≠ none) : I (s.queued text)
  /-- The next of the queued lines starts. -/
  next {s : Session} {text : String} {queue : List String} (hs : I s) (hline : s.line = none)
    (hwait : s.machine.wait = none) (hqueue : s.machine.queue = text :: queue) :
    I ((s.onMachine fun m => { m with queue }).startLine text)
  received {s : Session} (e : Event) (hs : I s) : I (s.onMachine e.received)
  recordKey {s : Session} (code : Cell) (hs : I s) : I (s.recordKey code)
  suspend {s : Session} (w : Wait) (hs : I s) : I (s.suspend w)
  exec {s : Session} {action : Exec Unit} (hs : I s) (hc : permitted s (.exec action)) :
    I (s.exec action).2
  addVariable {s : Session} (name : String) (hs : I s) : I (s.addVariable name).2
  addConstant {s : Session} (name : String) (n : Cell) (hs : I s) : I (s.addConstant name n)
  addPrimitive {s : Session} {name : String} {p : Primitive} (hs : I s)
    (hc : permitted s (.addPrimitive name p)) : I (s.addPrimitive name p)
  wait {s : Session} {action : Exec Unit} (hc : permitted s (.exec action)) :
    action.Keeps Machine.wait
  readLines {s : Session} {texts : List String} (hc : permitted s (.readLines texts)) :
    MaySubmit (fun s text => permitted s (.readLine text)) s texts
  loadSource {s : Session} {source : String} (hc : permitted s (.loadSource source)) :
    MaySubmit (fun s text => permitted s (.readLine text)) s (Text.lines source)

namespace Survives

variable {permitted : Session → HostCall → Prop} {I : Session → Prop} {s t : Session}
  {fuel : Nat} {reply : Reply}

section

variable (hI : Survives permitted I)

include hI

/-! ## Runs -/

theorem leads (hs : I s) (h : Leads tick s t) : I t := by
  induction h with
  | refl s => exact hs
  | more htick _ ih => exact ih (hI.step hs htick)

theorem ends (hs : I s) (h : Ends tick s (reply, t)) : I t := by
  obtain ⟨u, hleads, hlast⟩ := h.exists_last
  exact hI.stop (hI.leads hs hleads) hlast

theorem stepAll (hs : I s) (h : s.tickAll = .more t) : I t := by
  cases allStepped_of_tickAll h with
  | more htick => exact hI.step hs htick
  | next htick hwait hqueue =>
    exact hI.next (hI.stop hs htick) ((stopped_of_tick htick).line hwait) hwait hqueue

theorem leads_all (hs : I s) (h : Leads tickAll s t) : I t := by
  induction h with
  | refl s => exact hs
  | more htick _ ih => exact ih (hI.stepAll hs htick)

theorem ends_all (hs : I s) (h : Ends tickAll s (reply, t)) : I t := by
  obtain ⟨u, hleads, hlast⟩ := h.exists_last
  cases allStepped_of_tickAll hlast with
  | done hstep _ => exact hI.stop (hI.leads_all hs hleads) hstep

/-! ## Calls -/

theorem readLine {text : String} (hs : I s) (hc : permitted s (.readLine text))
    (h : s.readLine fuel text = some (reply, t)) : I t := by
  unfold Session.readLine at h
  cases hline : s.line with
  | some rest =>
    simp only [hline, Option.some.injEq, Prod.mk.injEq] at h
    obtain ⟨-, rfl⟩ := h
    have hbusy : s.line ≠ none := by simp [hline]
    exact hI.queued text hs hbusy
  | none =>
    simp only [hline] at h
    exact hI.ends (hI.start hs hline hc) (ends_of_runSteps h)

theorem batch {texts : List String} (hs : I s)
    (hc : MaySubmit (fun s text => permitted s (.readLine text)) s texts)
    (h : s.readLines fuel texts = some (reply, t)) : I t := by
  have hlast := readLines_invariant_rest
    (I := fun texts s => I s ∧ MaySubmit (fun s text => permitted s (.readLine text)) s texts)
    (fun s fuel text texts reply t hs hread =>
      ⟨hI.readLine hs.1 hs.2.1 hread, hs.2.2 fuel reply t hread⟩) ⟨hs, hc⟩ h
  exact hlast.1

theorem loadLines {texts : List String} {reply : Except Error Unit} (hs : I s)
    (hc : MaySubmit (fun s text => permitted s (.readLine text)) s texts)
    (h : s.loadLines fuel texts = some (reply, t)) : I t := by
  obtain ⟨rest, ht, -⟩ := loadLines_invariant_rest
    (I := fun texts s => I s ∧ MaySubmit (fun s text => permitted s (.readLine text)) s texts)
    (fun s fuel text texts reply t hs hread =>
      ⟨hI.readLine hs.1 hs.2.1 hread, hs.2.2 fuel reply t hread⟩) ⟨hs, hc⟩ h
  exact ht

theorem deliver {e : Event} (hs : I s) (h : s.deliver fuel e = some (reply, t)) : I t := by
  by_cases ha : e.answers s.machine.wait
  · rw [deliver_of_answers ha] at h
    exact hI.ends_all (hI.received e hs) (ends_of_runSteps h)
  · rw [deliver_of_not_answers ha] at h
    obtain ⟨-, rfl⟩ := Prod.mk.inj (Option.some.inj h)
    exact hs

/-- The property survives each call that is permitted.  There are no frames to be run without an
event that is awaited. -/
theorem returns {c : HostCall} {reply : HostReply} (hs : I s)
    (hstill : s.machine.wait = none → s.frames = []) (hc : permitted s c)
    (h : s.Returns c reply t) : I t := by
  cases h with
  | readLine h => exact hI.readLine hs hc h
  | readLines h => exact hI.batch hs (hI.readLines hc) h
  | loadSource h => exact hI.loadLines hs (hI.loadSource hc) h
  | deliver h => exact hI.deliver hs h
  | recordKey code => exact hI.recordKey code hs
  | runFrames h => exact (runFrames_of_still hstill h).2 ▸ hs
  | suspend w => exact hI.suspend w hs
  | exec action => exact hI.exec hs hc
  | addVariable name => exact hI.addVariable name hs
  | addConstant name n => exact hI.addConstant name n hs
  | addPrimitive name p => exact hI.addPrimitive hs hc

theorem within {c : HostCall} (hc : permitted s c) : c.Within (fun _ => True) Freely s := by
  cases c with
  | exec action => exact ⟨hI.wait hc, trivial⟩
  | _ => trivial

/-- What holds of a new session and survives what is permitted holds whenever control is back at the
host. -/
theorem hostRun {random : Nat → UInt64} {new : Session} {calls : List HostCall}
    (hnew : IsNew random new) (hs : I new) (h : HostRun permitted new calls s) : I s := by
  have hunloaded := unloaded_withPrimitives random
  have hboth := h.invariant
    (I := fun s => I s ∧ Between (fun _ => True) Freely (withPrimitives random) s)
    (fun s c reply t hs hc hreturns => by
      obtain ⟨hs, hbetween⟩ := hs
      have hstill (hwait : s.machine.wait = none) : s.frames = [] :=
        (hbetween.1.unloaded hunloaded (hbetween.2 hwait)).1
      exact ⟨hI.returns hs hstill hc hreturns,
        hbetween.returns respectsReturns_freely hunloaded (hI.within hc) hreturns⟩)
    ⟨hs, between_of_isNew respectsReturns_freely hnew⟩
  exact hboth.1

end

section

variable {word : Primitive → Prop} {change : Session → Machine → Prop}
  (hI : Survives (fun s c => c.Within word change s) I)

include hI

/-- What survives wherever a host submits lines holds of a new session as soon as it holds without
the words that are defined in the language itself. -/
theorem isNew (hoverlook : ∀ s, I s → I s.takeConsole.2) {random : Nat → UInt64}
    (hs : I (withPrimitives random)) (hnew : IsNew random s) : I s := by
  cases hnew with
  | inl hprimitives =>
    rw [hprimitives]
    exact hs
  | inr hboot =>
    rw [hboot]
    rcases boot_cases random with h | ⟨t, hload, h⟩
    · rw [h]
      exact hs
    · rw [h]
      exact hoverlook t (hI.loadLines hs (maySubmit_of_forall (fun _ _ => trivial) _ _) hload)

theorem occurs {random : Nat → UInt64} (hs : ∀ new, IsNew random new → I new)
    (h : Occurs word change random s) : I s := by
  cases h with
  | between hnew hrun => exact hI.hostRun hnew (hs _ hnew) hrun
  | submitted hnew hrun hline text hleads =>
    exact hI.leads (hI.start (hI.hostRun hnew (hs _ hnew) hrun) hline trivial) hleads
  | resumed hnew hrun e _ hleads =>
    exact hI.leads_all (hI.received e (hI.hostRun hnew (hs _ hnew) hrun)) hleads

end

end Survives

end Forth.Session
