import Forth.Proofs.Replies

/-!
# What a host can do

A host submits lines one by one, in batches or as a source text, delivers events, keeps keys, runs
frames, makes the session wait, works on the stacks, the memory and the printed text, and adds
variables, constants and words.  `HostCall` lists these calls, and `HostRun` is any sequence of them.

However the host goes about it, the session is in order whenever control is back at the host, as long
as no word of the host submits lines (`HostRun.in_order`).
-/

namespace Forth

/-- What a host does to a session. -/
inductive HostCall
  | readLine (text : String)
  | readLines (texts : List String)
  | loadSource (source : String)
  | deliver (e : Event)
  | recordKey (code : Cell)
  | runFrames
  | suspend (w : Wait)
  /-- An operation on the stacks, the memory or the printed text. -/
  | exec (action : Exec Unit)
  | addVariable (name : String)
  | addConstant (name : String) (n : Cell)
  | addPrimitive (name : String) (p : Primitive)

/-- What a host is told: the status of a line, if the call is about lines, or an error. -/
abbrev HostReply := Except Error (Option Status)

namespace Session

/-- The call comes to an end with this reply and leaves the session in the second state. -/
inductive Returns (s : Session) : HostCall → HostReply → Session → Prop
  | readLine {fuel : Nat} {text : String} {reply : Reply} {t : Session}
    (h : s.readLine fuel text = some (reply, t)) : Returns s (.readLine text) (reply.map some) t
  | readLines {fuel : Nat} {texts : List String} {reply : Reply} {t : Session}
    (h : s.readLines fuel texts = some (reply, t)) : Returns s (.readLines texts) (reply.map some) t
  | loadSource {fuel : Nat} {source : String} {reply : Except Error Unit} {t : Session}
    (h : s.loadSource fuel source = some (reply, t)) :
    Returns s (.loadSource source) (reply.map fun _ => none) t
  | deliver {fuel : Nat} {e : Event} {reply : Reply} {t : Session}
    (h : s.deliver fuel e = some (reply, t)) : Returns s (.deliver e) (reply.map some) t
  | recordKey (code : Cell) : Returns s (.recordKey code) (.ok none) (s.recordKey code)
  | runFrames {fuel : Nat} {reply : Except Error Unit} {t : Session}
    (h : s.runFrames fuel = some (reply, t)) : Returns s .runFrames (reply.map fun _ => none) t
  | suspend (w : Wait) : Returns s (.suspend w) (.ok none) (s.suspend w)
  | exec (action : Exec Unit) :
    Returns s (.exec action) ((s.exec action).1.map fun _ => none) (s.exec action).2
  | addVariable (name : String) : Returns s (.addVariable name) (.ok none) (s.addVariable name).2
  | addConstant (name : String) (n : Cell) :
    Returns s (.addConstant name n) (.ok none) (s.addConstant name n)
  | addPrimitive (name : String) (p : Primitive) :
    Returns s (.addPrimitive name p) (.ok none) (s.addPrimitive name p)

/-- The calls come to an end, one after the other, each made where it is permitted, and lead from the
first session to the second. -/
inductive HostRun (permitted : Session → HostCall → Prop) : Session → List HostCall → Session → Prop
  | nil (s : Session) : HostRun permitted s [] s
  | cons {s t u : Session} {c : HostCall} {calls : List HostCall} {reply : HostReply}
    (hc : permitted s c) (h : s.Returns c reply t) (rest : HostRun permitted t calls u) :
    HostRun permitted s (c :: calls) u

/-- What holds at first and is kept by each call that is permitted holds at the end. -/
theorem HostRun.invariant {permitted : Session → HostCall → Prop} {I : Session → Prop}
    {s t : Session} {calls : List HostCall} (h : HostRun permitted s calls t)
    (hcall : ∀ s c reply t, I s → permitted s c → s.Returns c reply t → I t) (hs : I s) : I t := by
  induction h with
  | nil s => exact hs
  | cons hc h _ ih => exact ih (hcall _ _ _ _ hs hc h)

end Session

/-- The host may add the words that `allowed` tells, and its own operations leave the wait and the
queue alone. -/
def HostCall.Permitted (allowed : Primitive → Prop) : HostCall → Prop
  | exec action => action.Keeps Machine.wait ∧ action.Keeps Machine.queue
  | addPrimitive _ p => allowed p
  | _ => True

/-- The call runs lines: a line that is submitted, or the one that waits for the event. -/
def HostCall.RunsLine (s : Session) : HostCall → Prop
  | readLine _ | readLines _ | loadSource _ | runFrames => True
  | deliver e => e.answers s.machine.wait
  | _ => False

namespace Session

variable {s t : Session}

/-! ## Calls of a host to a session it can come to -/

variable {allowed : Exec Unit → Prop}

theorem exec_snd (s : Session) (action : Exec Unit) :
    (s.exec action).2 = { s with machine := finalState (action.run s.machine) } := by
  unfold exec
  cases action.run s.machine <;> rfl

theorem Reachable.exec (hs : Reachable allowed s) {action : Exec Unit}
    (hwait : action.Keeps Machine.wait) (hqueue : action.Keeps Machine.queue) :
    Reachable allowed (s.exec action).2 := by
  rw [exec_snd]
  exact hs.adjust _ (hwait _) (hqueue _)

/-- A host comes by each of its calls to a session that it can come to. -/
theorem Reachable.returns {c : HostCall} {reply : HostReply} (hs : Reachable allowed s)
    (hc : c.Permitted (Primitive.Allowed allowed)) (h : s.Returns c reply t) :
    Reachable allowed t := by
  cases h with
  | readLine h => exact hs.readLine h
  | readLines h =>
    exact readLines_invariant (fun _ _ _ _ _ hs _ h => hs.readLine h) (fun _ _ => trivial) hs h
  | loadSource h => exact hs.loadLines h
  | deliver h => exact hs.deliver h
  | runFrames h => exact hs.runFrames h
  | recordKey code =>
    exact hs.adjust _ (Machine.recordKey_wait _ code) (Machine.recordKey_queue _ code)
  | suspend w => exact hs.suspend w
  | exec action => exact hs.exec hc.1 hc.2
  | addVariable name =>
    have hadjusted := hs.adjust
      { s.machine with memory := (s.machine.memory.addVariable name).2 } rfl rfl
    exact hadjusted.addConstant name _
  | addConstant name n => exact hs.addConstant name n
  | addPrimitive name p => exact hs.addPrimitive name p hc

/-! ## Between calls -/

/-- A line that is submitted and fails leaves nothing behind. -/
theorem idle_of_readLine_error {fuel : Nat} {text : String} {e : Error}
    (h : s.readLine fuel text = some (.error e, t)) : t.Idle := by
  unfold readLine at h
  cases hline : s.line with
  | some rest => simp [hline] at h
  | none =>
    simp only [hline] at h
    exact (truthful_of_ends (ends_of_runSteps h)).idle e rfl

theorem eq_error_of_map {α β : Type} {f : α → β} {r : Except Error α} {e : Error}
    (h : Except.error e = r.map f) : r = .error e := by
  cases r with
  | ok x => exact nomatch h
  | error e' =>
    obtain rfl := Except.error.inj h
    rfl

/-- A call that runs lines and ends with an error leaves nothing in progress. -/
theorem Resting.idle_of_error {P : Primitive → Prop} {c : HostCall} {e : Error}
    (hs : Resting P s) (hc : c.RunsLine s) (h : s.Returns c (.error e) t) : t.Idle := by
  generalize hr : (.error e : HostReply) = r at h
  cases h with
  | readLine h =>
    obtain rfl := eq_error_of_map hr
    exact idle_of_readLine_error h
  | readLines h =>
    obtain rfl := eq_error_of_map hr
    obtain ⟨u, text, hlast⟩ := exists_readLine_of_readLines h
    exact idle_of_readLine_error hlast
  | loadSource h =>
    obtain rfl := eq_error_of_map hr
    obtain ⟨u, text, hlast⟩ := exists_readLine_of_loadLines h
    exact idle_of_readLine_error hlast
  | deliver h =>
    obtain rfl := eq_error_of_map hr
    have hends := (answers_event_iff hc).1 ⟨_, h⟩
    exact (truthful_of_ends_all hends).1.idle e rfl
  | runFrames h =>
    obtain rfl := eq_error_of_map hr
    exact nomatch (hs.runFrames h).1
  | _ => exact hc.elim

/-- **The session is in order between calls.**  Whatever a host calls, in whatever order, from a new
session on, and whatever its words do, as long as they submit no lines: whenever control is back at
the host, no control structure is open; a line is in progress only if an event is awaited; without a
line in progress there are no frames and no queued lines; and while a definition is open there are no
frames.  A call whose line fails leaves nothing in progress at all. -/
theorem HostRun.in_order {allowed : Exec Unit → Prop}
    (hallowed : ∀ action, allowed action → action.Keeps Machine.queue) {random : Nat → UInt64}
    {start s : Session} (hstart : start = bare random ∨ start = boot random)
    {calls : List HostCall}
    (h : HostRun (fun _ c => c.Permitted (Primitive.Allowed allowed)) start calls s) :
    (∀ actions depth, s.gathering ≠ .block actions depth) ∧
    (s.machine.wait = none → s.line = none) ∧
    (s.line = none → s.frames = [] ∧ s.machine.queue = []) ∧
    (s.isDefining = true → s.frames = []) ∧
    ∀ c e t, c.Permitted (Primitive.Allowed allowed) → c.RunsLine s → s.Returns c (.error e) t →
      t.Idle ∧ t.machine.queue = [] := by
  have hreachable : Reachable allowed s := by
    refine h.invariant (fun s c reply t hs hc h => hs.returns hc h) ?_
    rcases hstart with hbare | hboot
    · rw [hbare]
      exact .bare random
    · rw [hboot]
      exact reachable_boot random
  have hrest := hreachable.resting hallowed
  refine ⟨hrest.block, hrest.line, fun hline => ⟨hrest.frames hline, hrest.queue hline⟩,
    fun hdefining => hrest.gathering fun hg => ?_, fun c e t hc hruns ht => ?_⟩
  · simp [isDefining, hg] at hdefining
  · have hidle := hrest.idle_of_error hruns ht
    exact ⟨hidle, ((hreachable.returns hc ht).resting hallowed).queue hidle.line⟩

/-- A word that asks for an event and fails at once. -/
def stumble : Exec Unit := do
  Exec.suspend (.timer 6)
  throw .divisionByZero

theorem stumble_keeps_queue : stumble.Keeps Machine.queue :=
  fun _ => rfl

theorem in_order_after_stumble :
    let permitted (_ : Session) (c : HostCall) : Prop :=
      c.Permitted (Primitive.Allowed fun action => action.Keeps Machine.queue)
    ∃ s, HostRun permitted (bare fun _ => 0)
        [.addPrimitive "stumble" (.host stumble), .readLine "do stumble loop", .readLine "stumble"]
        s ∧
      s.lastError = some .divisionByZero ∧ s.machine.wait = none ∧
      s.line = none ∧ s.frames = [] ∧ s.machine.queue = [] ∧
      ∀ t, s.Returns (.readLine "do") (.error .unbalancedControl) t → t.Idle := by
  intro permitted
  obtain ⟨s, t, hs, ht, herror, hwait⟩ : ∃ s t : Session,
      ((bare fun _ => 0).addPrimitive "stumble" (.host stumble)).readLine 20 "do stumble loop" =
        some (.error .stackUnderflow, s) ∧
      s.readLine 20 "stumble" = some (.error .divisionByZero, t) ∧
      t.lastError = some .divisionByZero ∧ t.machine.wait = none :=
    ⟨_, _, rfl, rfl, rfl, rfl⟩
  have hrun : HostRun permitted (bare fun _ => 0)
      [.addPrimitive "stumble" (.host stumble), .readLine "do stumble loop", .readLine "stumble"] t :=
    .cons stumble_keeps_queue (.addPrimitive _ _) (.cons trivial (.readLine hs)
      (.cons trivial (.readLine ht) (.nil t)))
  obtain ⟨-, hline, hrest, -, hidle⟩ := hrun.in_order (fun _ h => h) (.inl rfl)
  obtain ⟨hframes, hqueue⟩ := hrest (hline hwait)
  exact ⟨t, hrun, herror, hwait, hline hwait, hframes, hqueue,
    fun u hu => (hidle (.readLine "do") _ u trivial trivial hu).1⟩

end Session

end Forth
