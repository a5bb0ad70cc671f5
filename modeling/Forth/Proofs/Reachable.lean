import Forth.Proofs.Calls
import Forth.Proofs.Runs
import Forth.Proofs.Steps
import Forth.Session.Boot

/-!
# Sessions between calls

`Reachable` holds of the sessions that a host can come to by calls, in any order.  Its parameter
tells what the words may do that the host adds.  Between calls a session is `Resting`: no control
structure is open, a line is in progress only if an event is awaited, and without a line in progress
nothing is left to run.  While a line runs the session is `Running`, which every step keeps, and a
step that ends the line or finds that it has to wait brings the session back to rest
(`Running.tick`).
-/

namespace Forth

section

variable {ε σ α β : Type}

/-- The state that an action leaves behind, whether it fails or not. -/
def finalState : EStateM.Result ε σ α → σ
  | .ok _ s | .error _ s => s

/-- The value of an action with a change to the state that it leaves behind. -/
def onFinal (f : σ → σ) : EStateM.Result ε σ α → EStateM.Result ε σ α
  | .ok x s => .ok x (f s)
  | .error e s => .error e (f s)

end

/-! ## What the words of the host may do -/

/-- The action leaves this part of the machine as it is. -/
def Exec.Keeps {β : Type} (part : Machine → β) (action : Exec Unit) : Prop :=
  ∀ m, part (finalState (action.run m)) = part m

/-- A word of the host does only what is allowed. -/
def Primitive.Allowed (allowed : Exec Unit → Prop) : Primitive → Prop
  | host action => allowed action
  | _ => True

/-- The part of the machine depends only on the awaited event and the queued lines. -/
def Pending {β : Type} (part : Machine → β) : Prop :=
  ∀ (m : Machine) (data returns : Stack) (memory : Memory) (output : Output)
    (random : RandomSource), part { m with data, returns, memory, output, random } = part m

/-- The same machine, with this in the given part of it. -/
def Fixed {β : Type} (part : Machine → β) (x : β) (m m' : Machine) : Prop :=
  m' = m ∧ part m = x

theorem Pending.congruence {β : Type} {part : Machine → β} (h : Pending part) (x : β) :
    Congruence (Fixed part x) where
  data hm := by rw [hm.1]
  returns hm := by rw [hm.1]
  memory hm := by rw [hm.1]
  random hm := by rw [hm.1]
  wait hm := by rw [hm.1]
  setData data hm := ⟨by rw [hm.1], (h _ data _ _ _ _).trans hm.2⟩
  setReturns returns hm := ⟨by rw [hm.1], (h _ _ returns _ _ _).trans hm.2⟩
  setMemory memory hm := ⟨by rw [hm.1], (h _ _ _ memory _ _).trans hm.2⟩
  setRandom random hm := ⟨by rw [hm.1], (h _ _ _ _ _ random).trans hm.2⟩
  print text hm := ⟨by rw [hm.1], (h _ _ _ _ _ _).trans hm.2⟩

theorem Exec.Keeps.respects {β : Type} {part : Machine → β} {action : Exec Unit}
    (h : action.Keeps part) (x : β) : Respects (Fixed part x) Anything action := by
  rintro m m' ⟨rfl, hx⟩
  have hkeeps := h m'
  generalize action.run m' = r at hkeeps
  cases r with
  | ok u t => exact .ok trivial ⟨rfl, hkeeps.trans hx⟩
  | error e t => exact .error ⟨rfl, hkeeps.trans hx⟩

theorem Exec.keeps_of_respects {β : Type} {part : Machine → β} {action : Exec Unit}
    (h : ∀ x, Respects (Fixed part x) Anything action) : action.Keeps part := by
  intro m
  have hm := h (part m) m m ⟨rfl, rfl⟩
  generalize action.run m = r at hm
  cases hm with
  | ok _ ht => exact ht.2
  | error ht => exact ht.2

theorem SurvivesWait.queue (x : List String) : SurvivesWait (Fixed Machine.queue x) :=
  fun _ _ _ hm => ⟨by rw [hm.1], hm.2⟩

theorem Pending.queue : Pending Machine.queue :=
  fun _ _ _ _ _ _ => rfl

theorem Pending.wait : Pending Machine.wait :=
  fun _ _ _ _ _ _ => rfl

/-- The words of the language submit no lines. -/
theorem Primitive.Allowed.keeps_queue {allowed : Exec Unit → Prop}
    (hallowed : ∀ action, allowed action → action.Keeps Machine.queue) {p : Primitive}
    (hp : p.Allowed allowed) : p.run.Keeps Machine.queue := by
  refine Exec.keeps_of_respects fun x => ?_
  refine p.respects (Pending.queue.congruence x) (fun _ => .queue x) fun action h => ?_
  subst h
  exact (hallowed action hp).respects x

namespace Session

variable {P : Primitive → Prop}

/-- A step of the interpreter leaves what all words leave as it is. -/
theorem advance_keeps {β : Type} {part : Machine → β} (hpart : Pending part)
    (hP : ∀ p, P p → p.run.Keeps part) {s : Session} (hs : s.UsesOnly P) :
    part (finalState (advance.run s)).machine = part s.machine ∧
      (finalState (advance.run s)).UsesOnly P := by
  have hadvance := Alike.advance (hpart.congruence (part s.machine)) ⟨⟨rfl, rfl⟩, rfl, hs⟩
    fun p _ hp => (hP p (nextPrimitive?_usesOnly hs hp)).respects _
  generalize advance.run s = r at hadvance
  cases hadvance with
  | ok hx ht => exact ⟨ht.machine.2, ht.uses⟩
  | error ht => exact ⟨ht.machine.2, ht.uses⟩

/-! ## Lines in progress -/

/-- The line goes on, and the depth at which it started is kept. -/
theorem Dispatched.kept {s : Session} {a : Action} {r : EStateM.Result Error Session Unit}
    (h : Dispatched s a r) :
    (finalState r).returnDepth = s.returnDepth ∧ (s.line ≠ none → (finalState r).line ≠ none) := by
  cases h <;> exact ⟨rfl, fun h => by first | exact h | exact nofun⟩

theorem Advanced.kept {s : Session} {r : EStateM.Result Error Session Bool} (h : Advanced s r) :
    (finalState r).returnDepth = s.returnDepth ∧ (s.line ≠ none → (finalState r).line ≠ none) := by
  cases h with
  | frame _ _ | frameFailed _ _ | finished _ _ => exact ⟨rfl, fun hline => hline⟩
  | unknown _ _ _ => exact ⟨rfl, fun _ => nofun⟩
  | dispatched _ _ _ h | refused _ _ _ h => exact ⟨h.kept.1, fun _ => h.kept.2 nofun⟩

/-- Without a line in progress nothing is left to run, and no control structure is open. -/
def Unloaded (s : Session) : Prop :=
  s.line = none → s.frames = [] ∧ ∀ actions depth, s.gathering ≠ .block actions depth

/-- A step that does something is part of a line. -/
theorem Unloaded.line_of_advanced {s : Session} {r : EStateM.Result Error Session Bool}
    (hs : s.Unloaded) (h : Advanced s r) (hr : r ≠ .ok false s) : s.line ≠ none := by
  intro hnone
  have hframes := (hs hnone).1
  cases h with
  | frame hcons _ | frameFailed hcons _ => exact nomatch hframes.symm.trans hcons
  | finished _ _ => exact hr rfl
  | unknown _ hline _ | dispatched _ hline _ _ | refused _ hline _ _ => exact nomatch hnone ▸ hline

/-! ## While a line runs -/

/-- The order of a line that runs: there is a text as long as there is something to run or to wait
for, frames are run before anything is gathered, and no control structure is open when the line has
to wait. -/
structure Orderly (s : Session) : Prop where
  line : s.line = none → s.frames = [] ∧ s.machine.wait = none
  gathering : s.gathering ≠ .nothing → s.frames = []
  block : s.machine.wait ≠ none → ∀ actions depth, s.gathering ≠ .block actions depth

theorem Orderly.of_nothing {s : Session} (hline : s.line ≠ none) (hg : s.gathering = .nothing) :
    Orderly s where
  line h := absurd h hline
  gathering h := absurd hg h
  block _ actions depth := by
    rw [hg]
    exact nofun

theorem Orderly.of_no_wait {s : Session} (hframes : s.frames = [])
    (hwait : s.machine.wait = none) : Orderly s where
  line _ := ⟨hframes, hwait⟩
  gathering _ := hframes
  block h := absurd hwait h

theorem Dispatched.orderly {s t : Session} {a : Action} (h : Dispatched s a (.ok () t))
    (hline : s.line ≠ none) (hframes : s.frames = []) (hwait : s.machine.wait = none) :
    Orderly t := by
  cases h with
  | defined _ _ | closed _ _ _ => exact .of_nothing hline rfl
  | performed hg _ => exact .of_nothing hline hg
  | «variable» hg _ | constant hg _ _ => exact .of_nothing nofun hg
  | gathered _ _ | nested _ _ | opened _ _ | colon _ _ => exact .of_no_wait hframes hwait

/-- A step of a line keeps it in order. -/
theorem Advanced.orderly {s t : Session} (hs : Orderly s) (hwait : s.machine.wait = none)
    (h : Advanced s (.ok true t)) : Orderly t := by
  cases h with
  | frame hframes _ =>
    have hbusy : s.frames ≠ [] := by simp [hframes]
    have hg : s.gathering = .nothing := Classical.byContradiction fun hg => hbusy (hs.gathering hg)
    exact .of_nothing (fun hline => hbusy (hs.line hline).1) hg
  | dispatched hframes _ _ h => exact h.orderly nofun hframes hwait

/-- What a session is like while a line runs. -/
structure Running (P : Primitive → Prop) (s : Session) : Prop extends Orderly s where
  uses : s.UsesOnly P

/-- What a session is like when a line ends or has to wait. -/
structure Settled (P : Primitive → Prop) (s : Session) : Prop where
  uses : s.UsesOnly P
  line : s.machine.wait = none → s.line = none
  frames : s.line = none → s.frames = []
  gathering : s.gathering ≠ .nothing → s.frames = []
  block : ∀ actions depth, s.gathering ≠ .block actions depth

/-- What a session is like between calls. -/
structure Resting (P : Primitive → Prop) (s : Session) : Prop extends Settled P s where
  queue : s.line = none → s.machine.queue = []

theorem Settled.startLine {s : Session} (hs : Settled P s) (text : String) :
    Running P (s.startLine text) where
  line := nofun
  gathering := hs.gathering
  block _ := hs.block
  uses := hs.uses.startLine text

theorem Settled.setQueue {s : Session} (hs : Settled P s) (queue : List String) :
    Settled P (s.onMachine fun m => { m with queue }) where
  uses := hs.uses.onMachine _
  line := hs.line
  frames := hs.frames
  gathering := hs.gathering
  block := hs.block

theorem settled_abandon {s : Session} (hs : s.UsesOnly P) (e : Error) :
    Settled P (s.abandon e).2 where
  uses := ⟨hs.dictionary, .nil, trivial⟩
  line _ := rfl
  frames _ := rfl
  gathering _ := rfl
  block := nofun

theorem UsesOnly.finishLine {s : Session} (hs : s.UsesOnly P) : s.finishLine.2.UsesOnly P := by
  have huses := hs.gathering
  unfold Session.finishLine
  cases hg : s.gathering with
  | block actions depth => exact (settled_abandon hs .unbalancedControl).uses
  | definition name actions =>
    rw [hg] at huses
    exact ⟨hs.dictionary, hs.frames, huses⟩
  | nothing => exact ⟨hs.dictionary, hs.frames, trivial⟩

theorem settled_finishLine {s : Session} (hs : s.UsesOnly P) (hframes : s.frames = []) :
    Settled P s.finishLine.2 := by
  have huses := hs.finishLine
  unfold finishLine at huses ⊢
  cases hg : s.gathering with
  | block actions depth => exact settled_abandon hs .unbalancedControl
  | definition name actions | nothing =>
    rw [hg] at huses
    exact ⟨huses, fun _ => rfl, fun _ => hframes, fun _ => hframes, nofun⟩

/-- A step of a line brings no other primitive words into the session. -/
theorem UsesOnly.tick {s : Session} (hs : s.UsesOnly P) :
    match s.tick with
    | .more t | .done (_, t) => t.UsesOnly P := by
  have hnothing : Pending fun _ => () := fun _ _ _ _ _ _ => rfl
  have hadvance := (advance_keeps hnothing (fun _ _ _ => rfl) hs).2
  unfold Session.tick
  cases s.machine.wait with
  | some w => exact hs
  | none =>
    cases hrun : advance.run s with
    | error e t =>
      rw [hrun] at hadvance
      exact (settled_abandon hadvance e).uses
    | ok goesOn t =>
      rw [hrun] at hadvance
      cases goesOn with
      | true => exact hadvance
      | false => exact hadvance.finishLine

/-- A line that is over waits for nothing. -/
theorem finishLine_wait {s : Session} (hwait : s.machine.wait = none) :
    s.finishLine.2.machine.wait = none := by
  unfold finishLine
  cases s.gathering with
  | block actions depth => rfl
  | definition name actions => exact hwait
  | nothing => exact hwait

theorem finishLine_queue (s : Session) : s.finishLine.2.machine.queue = s.machine.queue := by
  unfold finishLine
  cases s.gathering <;> rfl

theorem tick_of_wait {s : Session} {w : Wait} (h : s.machine.wait = some w) :
    s.tick = .done (.ok (.suspended w), s) := by
  simp only [tick, h]

theorem tickAll_of_more {s t : Session} (h : s.tick = .more t) : s.tickAll = .more t := by
  unfold tickAll
  rw [h]

theorem tickAll_of_done {s t : Session} {reply : Reply} (h : s.tick = .done (reply, t))
    (hrest : t.machine.wait ≠ none ∨ t.machine.queue = []) : s.tickAll = .done (reply, t) := by
  unfold tickAll
  rw [h]
  rcases hrest with hwait | hqueue
  · obtain ⟨w, hw⟩ := Option.ne_none_iff_exists'.1 hwait
    simp only [hw]
  · cases hw : t.machine.wait <;> simp only [hw, hqueue]

theorem tickAll_of_queued {s t : Session} {reply : Reply} {text : String} {queue : List String}
    (h : s.tick = .done (reply, t)) (hwait : t.machine.wait = none)
    (hqueue : t.machine.queue = text :: queue) :
    s.tickAll = .more ((t.onMachine fun m => { m with queue }).startLine text) := by
  unfold tickAll
  rw [h]
  simp only [hwait, hqueue]

section

variable (hP : ∀ p, P p → p.run.Keeps Machine.queue)

include hP

/-- A step of a line that runs. -/
theorem Running.tick {s : Session} (hs : Running P s) :
    match s.tick with
    | .more t => Running P t ∧ t.machine.queue = s.machine.queue
    | .done (_, t) => Settled P t ∧ (t.line = none → t.machine.wait = none) ∧
        t.machine.queue = s.machine.queue := by
  unfold Session.tick
  cases hwait : s.machine.wait with
  | some w =>
    have hwaiting : s.machine.wait ≠ none := by simp [hwait]
    refine ⟨⟨hs.uses, fun h => absurd h hwaiting, fun h => (hs.line h).1, hs.gathering,
      hs.block hwaiting⟩, fun h => (hs.line h).2, rfl⟩
  | none =>
    -- What one step can do says how the state changes; that the queue stays is a property of the
    -- words that run.
    have hadvanced := advance_spec s
    have hkeeps := advance_keeps Pending.queue hP hs.uses
    cases hrun : advance.run s with
    | ok goesOn t =>
      rw [hrun] at hadvanced hkeeps
      obtain ⟨hqueue, huses⟩ := hkeeps
      cases goesOn with
      | true => exact ⟨⟨hadvanced.orderly hs.toOrderly hwait, huses⟩, hqueue⟩
      | false =>
        cases hadvanced with
        | finished hframes _ =>
          exact ⟨settled_finishLine huses hframes, fun _ => finishLine_wait hwait,
            finishLine_queue s⟩
    | error e t =>
      rw [hrun] at hkeeps
      obtain ⟨hqueue, huses⟩ := hkeeps
      exact ⟨settled_abandon huses e, fun _ => rfl, hqueue⟩

/-- A line that ends or has to wait leaves the queue as it is. -/
theorem Running.ends {s t : Session} {reply : Reply} (hs : Running P s)
    (h : Ends Session.tick s (reply, t)) :
    Settled P t ∧ (t.line = none → t.machine.wait = none) ∧
      t.machine.queue = s.machine.queue := by
  generalize hr : (reply, t) = r at h
  induction h with
  | done h =>
    have htick := hs.tick hP
    rw [h, ← hr] at htick
    exact htick
  | more h _ ih =>
    have htick := hs.tick hP
    rw [h] at htick
    obtain ⟨hrunning, hqueue⟩ := htick
    obtain ⟨hsettled, hwait, hrest⟩ := ih hrunning hr
    exact ⟨hsettled, hwait, hrest.trans hqueue⟩

/-- A step of a line and of the queued lines after it. -/
theorem Running.tickAll {s : Session} (hs : Running P s) :
    match s.tickAll with
    | .more t => Running P t
    | .done (_, t) => Resting P t ∧ (t.line = none → t.machine.wait = none) := by
  have htick := hs.tick hP
  have hspec := s.tickAll_spec
  generalize s.tickAll = r at hspec
  cases hspec with
  | more hstep =>
    rw [hstep] at htick
    exact htick.1
  | done hstep hrest =>
    rw [hstep] at htick
    obtain ⟨hsettled, hended, -⟩ := htick
    refine ⟨⟨hsettled, fun hline => ?_⟩, hended⟩
    exact hrest.resolve_left fun hwait => hwait (hended hline)
  | @next _ _ text queue hstep _ _ =>
    rw [hstep] at htick
    exact (htick.1.setQueue queue).startLine text

theorem Running.ends_all {s t : Session} {reply : Reply} (hs : Running P s)
    (h : Ends Session.tickAll s (reply, t)) :
    Resting P t ∧ (t.line = none → t.machine.wait = none) := by
  generalize hr : (reply, t) = r at h
  induction h with
  | done h =>
    have htick := hs.tickAll hP
    rw [h, ← hr] at htick
    exact htick
  | more h _ ih =>
    have htick := hs.tickAll hP
    rw [h] at htick
    exact ih htick hr

/-- With no line in the queue it makes no difference whether queued lines would be run. -/
theorem Running.ends_tickAll_iff {s : Session} (hs : Running P s) (hqueue : s.machine.queue = [])
    {r : Reply × Session} : Ends Session.tickAll s r ↔ Ends Session.tick s r := by
  have hmore : ∀ s t, Running P s ∧ s.machine.queue = [] → s.tick = .more t →
      Running P t ∧ t.machine.queue = [] := by
    rintro s t ⟨hs, hqueue⟩ h
    have htick := hs.tick hP
    rw [h] at htick
    exact ⟨htick.1, htick.2.trans hqueue⟩
  have heq : ∀ s, Running P s ∧ s.machine.queue = [] → s.tick = s.tickAll := by
    rintro s ⟨hs, hqueue⟩
    have htick := hs.tick hP
    cases h : s.tick with
    | more t => exact (tickAll_of_more h).symm
    | done r =>
      rw [h] at htick
      exact (tickAll_of_done h (.inr (htick.2.2.trans hqueue))).symm
  exact (Ends.congr hmore heq ⟨hs, hqueue⟩).symm

end

/-! ## Calls -/

/-- A host can come to the session by calls.  It may do what it likes to the stacks, the memory and
the output between calls; `allowed` tells which actions it may add as words. -/
inductive Reachable (allowed : Exec Unit → Prop) : Session → Prop
  | bare (random : Nat → UInt64) : Reachable allowed (bare random)
  | addPrimitive {s : Session} (hs : Reachable allowed s) (name : String) (p : Primitive)
    (hp : p.Allowed allowed) : Reachable allowed (s.addPrimitive name p)
  | addConstant {s : Session} (hs : Reachable allowed s) (name : String) (n : Cell) :
    Reachable allowed (s.addConstant name n)
  | adjust {s : Session} (hs : Reachable allowed s) (m : Machine)
    (hwait : m.wait = s.machine.wait) (hqueue : m.queue = s.machine.queue) :
    Reachable allowed { s with machine := m }
  | suspend {s : Session} (hs : Reachable allowed s) (w : Wait) : Reachable allowed (s.suspend w)
  | readLine {s t : Session} (hs : Reachable allowed s) {fuel : Nat} {text : String} {reply : Reply}
    (h : s.readLine fuel text = some (reply, t)) : Reachable allowed t
  | deliver {s t : Session} (hs : Reachable allowed s) {fuel : Nat} {e : Event} {reply : Reply}
    (h : s.deliver fuel e = some (reply, t)) : Reachable allowed t
  | runFrames {s t : Session} (hs : Reachable allowed s) {fuel : Nat} {reply : Except Error Unit}
    (h : s.runFrames fuel = some (reply, t)) : Reachable allowed t

variable {allowed : Exec Unit → Prop} {s t : Session}

/-- Without a line in progress, a submitted line runs at once. -/
theorem answers_line_iff {text : String} {reply : Reply} (hline : s.line = none) :
    s.Answers (.line text) reply t ↔ Ends Session.tick (s.startLine text) (reply, t) := by
  simp only [Answers, call, Session.readLine, hline, ends_iff]

/-- An event that is awaited lets the line in progress go on, and the queued lines after it. -/
theorem answers_event_iff {e : Event} {reply : Reply} (ha : e.answers s.machine.wait) :
    s.Answers (.event e) reply t ↔ Ends Session.tickAll (s.onMachine e.received) (reply, t) := by
  simp only [Answers, call, deliver_of_answers ha, resume, ends_iff]

/-- Any other event is refused. -/
theorem answers_refused_event_iff {e : Event} {reply : Reply} (h : ¬ e.answers s.machine.wait) :
    s.Answers (.event e) reply t ↔ reply = .error (Event.refusal s.machine.wait) ∧ t = s := by
  simp only [Answers, call, deliver_of_not_answers h, Option.some.injEq, Prod.mk.injEq]
  constructor
  · rintro ⟨-, rfl, rfl⟩
    exact ⟨rfl, rfl⟩
  · rintro ⟨rfl, rfl⟩
    exact ⟨0, rfl, rfl⟩

theorem Resting.readLine {fuel : Nat} {text : String} {reply : Reply}
    (hP : ∀ p, P p → p.run.Keeps Machine.queue) (hs : Resting P s)
    (h : s.readLine fuel text = some (reply, t)) : Resting P t := by
  unfold Session.readLine at h
  cases hline : s.line with
  | some rest =>
    simp only [hline, Option.some.injEq, Prod.mk.injEq] at h
    obtain ⟨-, rfl⟩ := h
    have hbusy : s.line ≠ none := by simp [hline]
    exact ⟨hs.toSettled.setQueue _, fun h => absurd h hbusy⟩
  | none =>
    simp only [hline] at h
    obtain ⟨hsettled, -, hqueue⟩ :=
      (hs.toSettled.startLine text).ends hP (ends_of_runSteps h)
    exact ⟨hsettled, fun _ => hqueue.trans (hs.queue hline)⟩

/-- An event lets a line go on. -/
theorem Settled.onEvent (hs : Settled P s) (e : Event) : Running P (s.onMachine e.received) where
  uses := hs.uses.onMachine e.received
  line h := ⟨hs.frames h, e.received_wait _⟩
  gathering := hs.gathering
  block h := absurd (e.received_wait _) h

theorem Resting.deliver {fuel : Nat} {e : Event} {reply : Reply}
    (hP : ∀ p, P p → p.run.Keeps Machine.queue) (hs : Resting P s)
    (h : s.deliver fuel e = some (reply, t)) : Resting P t := by
  by_cases ha : e.answers s.machine.wait
  · rw [deliver_of_answers ha] at h
    exact ((hs.toSettled.onEvent e).ends_all hP (ends_of_runSteps h)).1
  · rw [deliver_of_not_answers ha] at h
    obtain ⟨-, rfl⟩ := Prod.mk.inj (Option.some.inj h)
    exact hs

/-- Frames that are run where there are none, or where an event is awaited, change nothing. -/
theorem runFrames_of_still {fuel : Nat} {reply : Except Error Unit}
    (hs : s.machine.wait = none → s.frames = []) (h : s.runFrames fuel = some (reply, t)) :
    reply = .ok () ∧ t = s := by
  have htick : s.frameTick = .done (.ok (), s) := by
    unfold frameTick
    cases hwait : s.machine.wait with
    | some w => rfl
    | none => rw [hs hwait]
  cases fuel with
  | zero => exact nomatch h
  | succ fuel =>
    rw [Session.runFrames, runSteps_of_done fuel htick] at h
    obtain ⟨rfl, rfl⟩ := Prod.mk.inj (Option.some.inj h)
    exact ⟨rfl, rfl⟩

/-- Between calls there are no frames that could be run without a line. -/
theorem Resting.runFrames {fuel : Nat} {reply : Except Error Unit} (hs : Resting P s)
    (h : s.runFrames fuel = some (reply, t)) : reply = .ok () ∧ t = s :=
  runFrames_of_still (fun hwait => hs.frames (hs.line hwait)) h

theorem Resting.define {name : String} {meaning : Meaning} (hs : Resting P s)
    (h : meaning.UsesOnly P) : Resting P (s.define name meaning) where
  uses := hs.uses.define h
  line := hs.line
  frames := hs.frames
  gathering := hs.gathering
  block := hs.block
  queue := hs.queue

theorem resting_bare (random : Nat → UInt64) : Resting P (Session.bare random) where
  uses := by
    refine ⟨fun entry hentry => ?_, .nil, trivial⟩
    have hcontrols : ∀ (controls : List Control) (d : Dictionary),
        (∀ e ∈ d, e.2.UsesOnly P) →
          ∀ e ∈ controls.foldl (fun d c => d.add c.name (.control c)) d, e.2.UsesOnly P := by
      intro controls
      induction controls with
      | nil => exact fun d hd => hd
      | cons c controls ih =>
        intro d hd
        refine ih _ fun e he => ?_
        obtain rfl | he := List.mem_cons.1 he
        · exact trivial
        · exact hd e he
    exact hcontrols Control.all [] (fun e he => nomatch he) entry hentry
  line _ := rfl
  frames _ := rfl
  gathering _ := rfl
  block := nofun
  queue _ := rfl

/-- If no word of the host submits lines, a session rests between calls. -/
theorem Reachable.resting (hallowed : ∀ action, allowed action → action.Keeps Machine.queue)
    (hs : Reachable allowed s) : Resting (Primitive.Allowed allowed) s := by
  have hP (p : Primitive) (hp : p.Allowed allowed) := hp.keeps_queue hallowed
  induction hs with
  | bare random => exact resting_bare random
  | addPrimitive _ name p hp ih => exact ih.define (.primitive hp)
  | addConstant _ name n ih => exact ih.define (.value n)
  | adjust _ m hwait hqueue ih =>
    refine ⟨⟨⟨ih.uses.dictionary, ih.uses.frames, ih.uses.gathering⟩, fun h => ?_, ih.frames,
      ih.gathering, ih.block⟩, fun h => ?_⟩
    · exact ih.line (hwait.symm.trans h)
    · exact hqueue.trans (ih.queue h)
  | suspend _ w ih =>
    exact ⟨⟨⟨ih.uses.dictionary, ih.uses.frames, ih.uses.gathering⟩, fun h => (nomatch h),
      ih.frames, ih.gathering, ih.block⟩, ih.queue⟩
  | readLine _ h ih => exact ih.readLine hP h
  | deliver _ h ih => exact ih.deliver hP h
  | runFrames _ h ih => exact (ih.runFrames h).2.symm ▸ ih

/-- Nothing is in progress.  A definition may be open. -/
def AtRest (s : Session) : Prop :=
  s.line = none ∧ s.machine.wait = none

/-- The words of the language are not words of the host. -/
theorem allowed_of_mem_builtIn {e : String × Primitive} (he : e ∈ Primitive.builtIn) :
    e.2.Allowed allowed := by
  have hlanguage : Primitive.builtIn.all fun e => e.2 matches .host _ |> not := rfl
  have hnot := List.all_eq_true.1 hlanguage e he
  cases hp : e.2 with
  | host action => simp [hp] at hnot
  | _ => trivial

/-- What holds of a session without words and is kept by adding the words of the language holds of
the session that has them. -/
theorem withPrimitives_invariant {I : Session → Prop} (random : Nat → UInt64)
    (hbare : I (Session.bare random))
    (hadd : ∀ s, ∀ e ∈ Primitive.builtIn, I s → I (s.addPrimitive e.1 e.2)) :
    I (withPrimitives random) := by
  unfold withPrimitives
  generalize Primitive.builtIn = entries, Session.bare random = s at hbare hadd
  induction entries generalizing s with
  | nil => exact hbare
  | cons e entries ih =>
    exact ih _ (hadd s e (.head _) hbare) fun s e he => hadd s e (.tail _ he)

theorem reachable_withPrimitives (random : Nat → UInt64) :
    Reachable allowed (withPrimitives random) :=
  withPrimitives_invariant random (.bare random) fun _ e he hs =>
    hs.addPrimitive e.1 e.2 (allowed_of_mem_builtIn he)

theorem Reachable.loadLines {fuel : Nat} {texts : List String} {reply : Except Error Unit}
    (hs : Reachable allowed s) (h : s.loadLines fuel texts = some (reply, t)) :
    Reachable allowed t :=
  loadLines_invariant (fun _ _ _ _ _ hs _ h => hs.readLine h) (fun _ _ => trivial) hs h

/-- A new session with all words of the language comes from the lines of the prelude. -/
theorem boot_cases (random : Nat → UInt64) :
    boot random = withPrimitives random ∨
      ∃ s, (withPrimitives random).loadLines 100 preludeLines = some (.ok (), s) ∧
        boot random = s.takeConsole.2 := by
  -- Unfolded as a function, so that the kernel has no reason to run the prelude.
  generalize hboot : boot = start
  delta boot at hboot
  subst hboot
  dsimp only
  generalize (withPrimitives random).loadLines 100 preludeLines = r
  rcases r with _ | ⟨e | u, s⟩
  · exact .inl rfl
  · exact .inl rfl
  · exact .inr ⟨s, rfl, rfl⟩

/-- A host can come to it. -/
theorem reachable_boot (random : Nat → UInt64) : Reachable allowed (boot random) := by
  have hprimitives : Reachable allowed (withPrimitives random) := reachable_withPrimitives random
  rcases boot_cases random with h | ⟨s, hload, h⟩
  · rw [h]
    exact hprimitives
  · rw [h]
    exact (hprimitives.loadLines hload).adjust _ rfl rfl

end Session

end Forth
