import Forth.Proofs.DictionaryGrowth
import Forth.Proofs.FrameMachine
import Forth.Proofs.SideBySide
import Forth.Proofs.Writing

/-!
# Words are bound early

The dictionary is looked at once, when a token is resolved.  From then on the definition goes where
the action goes: into the body of a word, into its frames, and from there into the bodies of the
words that call it.  So what a word does when it runs is the same whatever dictionary the session has
meanwhile, and it may even get another one whenever the word waits for an event (`Execution.twin`,
`Execution.unique`).

That holds as far as the words of the host go along: they are handed the whole session, and one that
looks a name up when it runs is bound late (`words_bound_late`).  The conditions on them are
`OnlyAdds`, `IgnoresNames` and `LeavesLines`.  A word that acts on the machine alone satisfies the
first two, and the third one if it submits no line.

Two sessions that differ in their dictionaries only are `Twins`.  Steps of frames lead from twins to
twins, and so do the steps of a line that has no token left to resolve (`LastTwins`).
-/

namespace Forth

open Token (tokens)

namespace Session

open Dictionary (Grown)

variable {s t u : Session}

/-! ## Another dictionary -/

/-- The session with another dictionary. -/
def exchange (s : Session) (d : Dictionary) : Session :=
  { s with dictionary := d }

/-- The sessions are equal but for their dictionaries, and what is left to run calls no words of the
host but those that are allowed. -/
structure Twins (allowed : Exec Unit → Prop) (s s' : Session) : Prop where
  rest : ∃ d, s' = s.exchange d
  uses : Frame.AllUseOnly (Primitive.Allowed allowed) s.frames

/-- The word does not look at the dictionary: in two sessions that differ in their dictionaries only
and in which nothing but allowed words is left to run, it comes to the same end, and it leaves two
such sessions. -/
def IgnoresNames (allowed : Exec Unit → Prop) (word : Interpretation Unit) : Prop :=
  Respects (Twins allowed) Anything word

variable {allowed : Exec Unit → Prop} {s' : Session}

theorem Twins.wait (h : Twins allowed s s') : s'.machine.wait = s.machine.wait := by
  obtain ⟨d, rfl⟩ := h.rest
  rfl

/-- Words that act on the machine alone look no names up. -/
theorem ignoresNames_lift (action : Exec Unit) : IgnoresNames allowed (lift action) := by
  rintro s s' ⟨⟨d, rfl⟩, huses⟩
  simp only [lift_run, exchange]
  cases action.run s.machine with
  | ok _ m => exact .ok trivial ⟨⟨d, rfl⟩, huses⟩
  | error _ m => exact .error ⟨⟨d, rfl⟩, huses⟩

/-! ## Steps of frames -/

theorem hostCall?_exchange {action : Exec Unit} (d : Dictionary) (hframes : s.frames ≠ [])
    (h : s.hostCall? = some (action, t)) :
    (s.exchange d).hostCall? = some (action, t.exchange d) := by
  obtain ⟨name, rest, below, hs, rfl⟩ := (hostCall?_of_frames_iff hframes).1 h
  have hframes' : (s.exchange d).frames ≠ [] := hframes
  exact (hostCall?_of_frames_iff hframes').2 ⟨name, rest, below, hs, rfl⟩

theorem no_hostCall?_exchange (d : Dictionary) (hframes : s.frames ≠ []) (h : s.hostCall? = none) :
    (s.exchange d).hostCall? = none := by
  have hframes' : (s.exchange d).frames ≠ [] := hframes
  refine Option.eq_none_iff_forall_ne_some.2 fun call hcall => ?_
  obtain ⟨name, rest, below, hs, -⟩ := (hostCall?_of_frames_iff hframes').1 hcall
  have hhere := (hostCall?_of_frames_iff hframes).2 ⟨name, rest, below, hs, rfl⟩
  exact nomatch h.symm.trans hhere

/-- The word of the host that a frame calls is allowed, and it is called on twins. -/
theorem Twins.hostCall? {action : Exec Unit} (hs : Twins allowed s s') (hframes : s.frames ≠ [])
    (h : s.hostCall? = some (action, t)) :
    allowed action ∧ ∃ t', s'.hostCall? = some (action, t') ∧ Twins allowed t t' := by
  obtain ⟨⟨d, rfl⟩, huses⟩ := hs
  have h' := hostCall?_exchange d hframes h
  obtain ⟨name, rest, below, hcall, rfl⟩ := (hostCall?_of_frames_iff hframes).1 h
  rw [hcall] at huses
  have hblock := huses _ (.head _)
  refine ⟨(hblock _ (.head _)).operation.word, _, h', ⟨d, rfl⟩, ?_⟩
  exact .cons (fun u hu => hblock u (.tail _ hu)) fun f hf => huses f (.tail _ hf)

/-- A step of a frame that calls no word of the host submits no lines, and the frames that it leaves
use no other words than before. -/
theorem step_of_no_hostCall? {f : Frame} {below : List Frame} (hcall : s.hostCall? = none)
    (hframes : s.frames = f :: below)
    (huses : Frame.AllUseOnly (Primitive.Allowed allowed) s.frames) {below' : List Frame}
    (hbelow : Frame.AllUseOnly (Primitive.Allowed allowed) below') :
    Respects (Fixed Machine.queue s.machine.queue)
      (Frame.AllUseOnly (Primitive.Allowed allowed)) (f.step below') := by
  have hf : f.UsesOnly (Primitive.Allowed allowed) := huses f (by simp [hframes])
  have hqueue := Pending.queue.congruence s.machine.queue
  refine hf.step_respects hqueue hbelow fun name p rest hp => ?_
  refine p.respects hqueue (fun _ => .queue _) fun action h => ?_
  subst hp h
  have hnext := nextPrimitive?_of_frames hframes
  simp [hostCall?, hnext] at hcall

section

variable {code : HostCode}
  (hcode : ∀ action, allowed action → IgnoresNames allowed (code action))

include hcode

/-- A step of the frames does not look at the dictionary. -/
theorem Twins.frameTickBy (hs : Twins allowed s s') :
    (s.frameTickBy code).Related (Twins allowed) (s'.frameTickBy code) := by
  have hrest := hs.rest
  obtain ⟨d, rfl⟩ := hrest
  by_cases hstep : s.machine.wait = none ∧ s.frames ≠ []
  · obtain ⟨hwait, hframes⟩ := hstep
    have hwait' : (s.exchange d).machine.wait = none := hwait
    have hframes' : (s.exchange d).frames ≠ [] := hframes
    -- A word of the host may look at the whole session, so it is covered by what is asked of its
    -- code.  All other steps act on the machine and the frames alone, which are the same on both
    -- sides.
    cases hcall : s.hostCall? with
    | some call =>
      obtain ⟨action, t⟩ := call
      obtain ⟨haction, t', hcall', ht⟩ := hs.hostCall? hframes hcall
      rw [frameTickBy_of_hostCall? hwait hframes hcall,
        frameTickBy_of_hostCall? hwait' hframes' hcall']
      have hrun := hcode action haction t t' ht
      generalize (code action).run t = r, (code action).run t' = r' at hrun
      cases hrun with
      | ok _ hu => exact .more hu
      | error hu =>
        obtain ⟨d', rfl⟩ := hu.rest
        exact .done _ ⟨⟨d', rfl⟩, hs.uses⟩
    | none =>
      rw [frameTickBy_of_no_hostCall? fun _ _ => hcall,
        frameTickBy_of_no_hostCall? fun _ _ => no_hostCall?_exchange d hframes hcall]
      obtain ⟨f, below, hcons⟩ := List.exists_cons_of_ne_nil hframes
      have hbelow : Frame.AllUseOnly (Primitive.Allowed allowed) below :=
        fun g hg => hs.uses g (by rw [hcons]; exact .tail _ hg)
      have hrun := step_of_no_hostCall? hcall hcons hs.uses hbelow s.machine s.machine ⟨rfl, rfl⟩
      simp only [frameTick, exchange, hwait, hcons, lift_run]
      generalize (f.step below).run s.machine = r at hrun
      cases hrun with
      | ok hframes _ => exact .more ⟨⟨d, rfl⟩, hframes⟩
      | error _ => exact .done _ ⟨⟨d, rfl⟩, hcons ▸ hs.uses⟩
  -- While an event is awaited, or without frames, nothing is run.
  · have hstill (s : Session) (hs : ¬ (s.machine.wait = none ∧ s.frames ≠ [])) :
        s.frameTickBy code = .done (.ok (), s) := by
      rw [frameTickBy_of_no_hostCall? fun hwait hframes => absurd ⟨hwait, hframes⟩ hs]
      unfold frameTick
      cases hwait : s.machine.wait with
      | some w => rfl
      | none =>
        cases hframes : s.frames with
        | nil => rfl
        | cons f below => exact absurd ⟨hwait, by simp [hframes]⟩ hs
    rw [hstill s hstep, hstill (s.exchange d) hstep]
    exact .done _ hs

theorem Twins.ends_frameTickBy {reply : Except Error Unit} (hs : Twins allowed s s')
    (h : Ends (Session.frameTickBy code) s (reply, t)) :
    ∃ t', Ends (Session.frameTickBy code) s' (reply, t') ∧ Twins allowed t t' :=
  h.related (fun _ _ hs => hs.frameTickBy hcode) (hs.frameTickBy hcode)

theorem Twins.unique_frameTickBy {reply reply' : Except Error Unit} (hs : Twins allowed s s')
    (h : Ends (Session.frameTickBy code) s (reply, t))
    (h' : Ends (Session.frameTickBy code) s' (reply', u)) : reply' = reply ∧ Twins allowed t u := by
  obtain ⟨t', hrun, ht⟩ := hs.ends_frameTickBy hcode h
  obtain ⟨rfl, rfl⟩ := Prod.mk.inj (h'.unique hrun)
  exact ⟨rfl, ht⟩

end

/-! ## Executions -/

/-- The frames of the first session run until none is left or one of them fails, or until no event
is left that answers their wait; this is told with the reply and with the session that they leave.
The waits that they go through are listed, and whenever they wait, the session may get another
dictionary. -/
inductive Execution (code : HostCode) :
    Session → List Event → List Wait → Except Error Unit → Session → Prop
  | ended {s t : Session} {reply : Except Error Unit} (h : Ends (frameTickBy code) s (reply, t))
    (hend : reply = .ok () → t.machine.wait = none) : Execution code s [] [] reply t
  | starved {s t : Session} {w : Wait} (h : Ends (frameTickBy code) s (.ok (), t))
    (hwait : t.machine.wait = some w) : Execution code s [] [w] (.ok ()) t
  | resumed {s t u : Session} {w : Wait} {e : Event} {events : List Event} {waits : List Wait}
    {reply : Except Error Unit} (h : Ends (frameTickBy code) s (.ok (), t))
    (hwait : t.machine.wait = some w) (he : e.answers (some w)) (d : Dictionary)
    (rest : Execution code ((t.onMachine e.received).exchange d) events waits reply u) :
    Execution code s (e :: events) (w :: waits) reply u

/-- An event that is answered in twins, which may get other dictionaries, leaves twins. -/
theorem Twins.resumed (h : Twins allowed s s') (e : Event) (d d' : Dictionary) :
    Twins allowed ((s.onMachine e.received).exchange d) ((s'.onMachine e.received).exchange d') := by
  obtain ⟨d₀, rfl⟩ := h.rest
  exact ⟨⟨d', rfl⟩, h.uses⟩

section

variable {code : HostCode} {events : List Event} {waits waits' : List Wait}
  {reply reply' : Except Error Unit}
  (hcode : ∀ action, allowed action → IgnoresNames allowed (code action))

include hcode

/-- An execution is possible with another dictionary as well. -/
theorem Execution.twin (h : Execution code s events waits reply t) (hs : Twins allowed s s') :
    ∃ t', Execution code s' events waits reply t' := by
  induction h generalizing s' with
  | ended h hend =>
    obtain ⟨t', h', ht⟩ := hs.ends_frameTickBy hcode h
    exact ⟨t', .ended h' fun hok => ht.wait.trans (hend hok)⟩
  | starved h hwait =>
    obtain ⟨t', h', ht⟩ := hs.ends_frameTickBy hcode h
    exact ⟨t', .starved h' (ht.wait.trans hwait)⟩
  | resumed h hwait he d _ ih =>
    obtain ⟨t', h', ht⟩ := hs.ends_frameTickBy hcode h
    obtain ⟨u', hrest⟩ := ih (ht.resumed _ d d)
    exact ⟨u', .resumed h' (ht.wait.trans hwait) he d hrest⟩

/-- With another dictionary, and whatever dictionaries are put in its place on the way, an execution
goes through the same waits and leaves the same session but for the dictionary. -/
theorem Execution.unique (h : Execution code s events waits reply t) (hs : Twins allowed s s')
    (h' : Execution code s' events waits' reply' u) :
    waits' = waits ∧ reply' = reply ∧ Twins allowed t u := by
  -- By induction over the waits.  The run up to the next wait is unique, and at the wait the
  -- dictionaries are exchanged on both sides.
  induction h generalizing s' waits' with
  | ended h hend =>
    cases h' with
    | ended h' _ =>
      obtain ⟨rfl, ht⟩ := hs.unique_frameTickBy hcode h h'
      exact ⟨rfl, rfl, ht⟩
    | starved h' hwait =>
      obtain ⟨rfl, ht⟩ := hs.unique_frameTickBy hcode h h'
      exact nomatch (hend rfl).symm.trans (ht.wait.symm.trans hwait)
  | starved h hwait =>
    cases h' with
    | ended h' hend =>
      obtain ⟨rfl, ht⟩ := hs.unique_frameTickBy hcode h h'
      exact nomatch hwait.symm.trans (ht.wait.symm.trans (hend rfl))
    | starved h' hwait' =>
      obtain ⟨-, ht⟩ := hs.unique_frameTickBy hcode h h'
      obtain rfl := Option.some.inj (hwait.symm.trans (ht.wait.symm.trans hwait'))
      exact ⟨rfl, rfl, ht⟩
  | resumed h hwait _ d₁ _ ih =>
    cases h' with
    | resumed h' hwait' _ d₂ rest' =>
      obtain ⟨-, ht⟩ := hs.unique_frameTickBy hcode h h'
      obtain rfl := Option.some.inj (hwait.symm.trans (ht.wait.symm.trans hwait'))
      obtain ⟨rfl, rfl, hu⟩ := ih (ht.resumed _ d₁ d₂) rest'
      exact ⟨rfl, rfl, hu⟩

end

/-- A word is called, and nothing else is left to run. -/
def calling (s : Session) (name : String) (definition : Definition) : Session :=
  { s with frames := [.block [.leaf (.invoke name definition)]] }

theorem twins_calling (s : Session) (d : Dictionary) (name : String) {definition : Definition}
    (h : definition.UsesOnly (Primitive.Allowed allowed)) :
    Twins allowed (s.calling name definition) ((s.exchange d).calling name definition) :=
  ⟨⟨d, rfl⟩, .cons (.single (.leaf (.invoke h))) .nil⟩

/-! ## Lines -/

/-- The word leaves the text of the line in progress, what is being gathered and the queued lines
alone. -/
def LeavesLines (word : Interpretation Unit) : Prop :=
  ∀ s, (finalState (word.run s)).line = s.line ∧
    (finalState (word.run s)).gathering = s.gathering ∧
    (finalState (word.run s)).machine.queue = s.machine.queue

theorem leavesLines_lift {action : Exec Unit} (h : action.Keeps Machine.queue) :
    LeavesLines (lift action) := by
  intro s
  have hqueue := h s.machine
  rw [lift_run]
  cases hrun : action.run s.machine <;> rw [hrun] at hqueue <;> exact ⟨rfl, rfl, hqueue⟩

/-- No token is left on the line, nothing is being gathered, and no line is queued behind it. -/
structure LastTwins (allowed : Exec Unit → Prop) (s s' : Session) : Prop
    extends Twins allowed s s' where
  line : s.line.bind Token.next? = none
  gathering : s.gathering = .nothing
  queue : s.machine.queue = []

theorem LastTwins.abandon (hrest : ∃ d, s' = s.exchange d) (hqueue : s.machine.queue = [])
    (e : Error) : LastTwins allowed (s.abandon e).2 (s'.abandon e).2 := by
  obtain ⟨d, rfl⟩ := hrest
  exact ⟨⟨⟨d, rfl⟩, .nil⟩, rfl, rfl, hqueue⟩

/-- A step that does not call a word of the host leads to twins, if nothing is left behind it on the
line. -/
theorem LastTwins.stepInto (d : Dictionary) {action : Exec (List Frame)} {below : List Frame}
    (hline : s.line.bind Token.next? = none) (hg : s.gathering = .nothing)
    (hqueue : s.machine.queue = [])
    (haction : Respects (Fixed Machine.queue s.machine.queue)
      (Frame.AllUseOnly (Primitive.Allowed allowed)) action)
    (hbelow : Frame.AllUseOnly (Primitive.Allowed allowed) below) :
    (s.stepInto action below).Related (LastTwins allowed)
      ((s.exchange d).stepInto action below) := by
  have hrun := haction s.machine s.machine ⟨rfl, rfl⟩
  simp only [Session.stepInto, exchange]
  generalize action.run s.machine = r at hrun
  cases hrun with
  | ok hframes hm => exact .more ⟨⟨⟨d, rfl⟩, hframes.append hbelow⟩, hline, hg, hm.2.trans hqueue⟩
  | error hm => exact .done _ (.abandon ⟨d, rfl⟩ (hm.2.trans hqueue) _)

section

variable {code : HostCode}
  (hcode : ∀ action, allowed action → IgnoresNames allowed (code action))
  (hlines : ∀ action, allowed action → LeavesLines (code action))

include hcode hlines

/-- A step that calls a word of the host leads to twins, if nothing is left behind it on the
line. -/
theorem Twins.step_of_hostCall? {action : Exec Unit} {v v' : Session} (hs : Twins allowed v v')
    (hline : v.line.bind Token.next? = none) (hg : v.gathering = .nothing)
    (hqueue : v.machine.queue = []) (haction : allowed action)
    (hwait : s.machine.wait = none) (hwait' : s'.machine.wait = none)
    (hcall : s.hostCall? = some (action, v)) (hcall' : s'.hostCall? = some (action, v')) :
    (s.tickBy code).Related (LastTwins allowed) (s'.tickBy code) := by
  rw [tickBy_of_hostCall? hwait hcall, tickBy_of_hostCall? hwait' hcall']
  have hrun := hcode action haction v v' hs
  obtain ⟨hline', hg', hqueue'⟩ := hlines action haction v
  generalize (code action).run v = r, (code action).run v' = r' at hrun hline' hg' hqueue'
  cases hrun with
  | ok _ ht =>
    exact .more ⟨ht, (congrArg (Option.bind · Token.next?) hline').trans hline, hg'.trans hg,
      hqueue'.trans hqueue⟩
  | error ht => exact .done _ (.abandon ht.rest (hqueue'.trans hqueue) _)

/-- A step of a line that has no token left does not look at the dictionary. -/
theorem LastTwins.tickBy (hs : LastTwins allowed s s') :
    (s.tickBy code).Related (LastTwins allowed) (s'.tickBy code) := by
  have hrest := hs.rest
  obtain ⟨d, rfl⟩ := hrest
  -- With no token left, a step waits, ends the line, calls a word of the host, or runs a frame, and
  -- only the last two do anything to the session.
  cases hwait : s.machine.wait with
  | some w =>
    have hstill (s : Session) (hwait : s.machine.wait = some w) :
        s.tickBy code = .done (.ok (.suspended w), s) :=
      (tickBy_of_no_hostCall? fun h => nomatch hwait.symm.trans h).trans (tick_of_wait hwait)
    rw [hstill s hwait, hstill (s.exchange d) hwait]
    exact .done _ hs
  | none =>
    have hwait' : (s.exchange d).machine.wait = none := hwait
    cases hframes : s.frames with
    | nil =>
      have hend (s : Session) (hwait : s.machine.wait = none) (hframes : s.frames = [])
          (hline : s.line.bind Token.next? = none) (hg : s.gathering = .nothing) :
          s.tickBy code = .done (.ok .ok, ({ s with line := none } : Session).print " ok") := by
        rw [tickBy_of_no_hostCall? fun _ => by simp [hostCall?, nextPrimitive?, hframes, hg, hline],
          tick_eq_finishLine hwait hframes hline, finishLine, hg]
      rw [hend s hwait hframes hs.line hs.gathering,
        hend (s.exchange d) hwait hframes hs.line hs.gathering]
      exact .done _ ⟨⟨⟨d, rfl⟩, hs.uses⟩, rfl, hs.gathering, hs.queue⟩
    | cons f below =>
      have hbusy : s.frames ≠ [] := by simp [hframes]
      cases hcall : s.hostCall? with
      | some call =>
        obtain ⟨action, t⟩ := call
        obtain ⟨haction, t', hcall', ht⟩ := hs.hostCall? hbusy hcall
        obtain ⟨name, rest, below, -, rfl⟩ := (hostCall?_of_frames_iff hbusy).1 hcall
        exact ht.step_of_hostCall? hcode hlines hs.line hs.gathering hs.queue haction hwait hwait'
          hcall hcall'
      | none =>
        rw [tickBy_of_no_hostCall? fun _ => hcall,
          tickBy_of_no_hostCall? fun _ => no_hostCall?_exchange d hbusy hcall,
          tick_of_frame hwait hframes, tick_of_frame (s := s.exchange d) hwait hframes]
        have hbelow : Frame.AllUseOnly (Primitive.Allowed allowed) below :=
          fun g hg => hs.uses g (by rw [hframes]; exact .tail _ hg)
        exact LastTwins.stepInto d hs.line hs.gathering hs.queue
          (step_of_no_hostCall? hcall hframes hs.uses .nil) hbelow

theorem LastTwins.tickAllBy (hs : LastTwins allowed s s') :
    (s.tickAllBy code).Related (LastTwins allowed) (s'.tickAllBy code) := by
  have hstep := hs.tickBy hcode hlines
  generalize hp : s.tickBy code = p, hp' : s'.tickBy code = p' at hstep
  cases hstep with
  | more ht =>
    rw [tickAllBy_of_more hp, tickAllBy_of_more hp']
    exact .more ht
  | done reply ht =>
    have hqueue' := ht.queue
    obtain ⟨d, rfl⟩ := ht.rest
    rw [tickAllBy_of_done hp ht.queue, tickAllBy_of_done hp' ht.queue]
    exact .done reply ht

theorem LastTwins.answersBy {e : Event} {reply : Reply} (hs : LastTwins allowed s s')
    (h : s.AnswersBy code (.event e) reply t) :
    ∃ t', s'.AnswersBy code (.event e) reply t' ∧ LastTwins allowed t t' := by
  have hrest := hs.rest
  obtain ⟨d, rfl⟩ := hrest
  cases h with
  | event he h =>
    have hstart : LastTwins allowed (s.onMachine e.received)
        ((s.exchange d).onMachine e.received) :=
      ⟨⟨⟨d, rfl⟩, hs.uses⟩, hs.line, hs.gathering, (e.received_queue _).trans hs.queue⟩
    obtain ⟨t', h', ht⟩ := h.related (fun _ _ hs => hs.tickAllBy hcode hlines)
      (hstart.tickAllBy hcode hlines)
    exact ⟨t', .event he h', ht⟩
  | refused he => exact ⟨s.exchange d, .refused he, hs⟩

theorem LastTwins.repliesBy {events : List Event} {replies : List Reply}
    (hs : LastTwins allowed s s') (h : RepliesBy code s (events.map .event) replies t) :
    ∃ t', RepliesBy code s' (events.map .event) replies t' ∧ LastTwins allowed t t' := by
  induction events generalizing s s' replies with
  | nil =>
    cases h
    exact ⟨s', .nil s', hs⟩
  | cons e events ih =>
    cases h with
    | cons hfirst hrest =>
      obtain ⟨v', hfirst', hv⟩ := hs.answersBy hcode hlines hfirst
      obtain ⟨t', hrest', ht⟩ := ih hv hrest
      exact ⟨t', .cons hfirst' hrest', ht⟩

/-! ## A line that calls a word -/

section

variable {text name : String} {definition : Definition} (hidle : s.Idle)
  (hqueue : s.machine.queue = []) (htext : tokens text.toList = [.word name])
  (huses : definition.UsesOnly (Primitive.Allowed allowed))
  (hname : s.dictionary.find? name = some (.word definition)) {d : Dictionary}
  (hname' : d.find? name = some (.word definition))

include hidle hqueue htext huses hname hname'

/-- The first step of a line that only calls a word. -/
theorem tickBy_call :
    ((s.startLine text).tickBy code).Related (LastTwins allowed)
      (((s.exchange d).startLine text).tickBy code) := by
  obtain ⟨rest, hnext, hrest⟩ := Token.next?_of_tokens_cons htext
  have hend : Token.next? rest = none := Token.next?_of_tokens_nil hrest
  have hresolve (d : Dictionary) (hd : d.find? name = some (.word definition)) :
      (Token.word name).resolve d = .ok (.perform (.invoke name definition)) := by
    simp only [Token.resolve, hd]
  have hnext' (s : Session) : (s.startLine text).line.bind Token.next? = some (.word name, rest) :=
    hnext
  -- The name is looked up in both dictionaries and stands for the same word.  A word of the host
  -- acts at once; any other word acts on the machine and schedules frames.
  by_cases hhost : ∃ action, definition = .primitive (.host action)
  · obtain ⟨action, rfl⟩ := hhost
    have hcall (s : Session) (hframes : s.frames = []) (hg : s.gathering = .nothing)
        (hd : s.dictionary.find? name = some (.word (.primitive (.host action)))) :
        (s.startLine text).hostCall? =
          some (action, { s.startLine text with line := some rest }) :=
      hostCall?_of_nextPrimitive?
        (nextPrimitive?_of_token (s := s.startLine text) hframes hg (hnext' s) (hresolve _ hd))
    have haction : allowed action := by
      cases huses with
      | primitive h => exact h
    have htwins : Twins allowed ({ s.startLine text with line := some rest } : Session)
        { (s.exchange d).startLine text with line := some rest } :=
      ⟨⟨d, rfl⟩, hidle.frames.symm ▸ .nil⟩
    exact htwins.step_of_hostCall? hcode hlines hend hidle.gathering hqueue haction hidle.wait
      hidle.wait (hcall s hidle.frames hidle.gathering hname)
      (hcall (s.exchange d) hidle.frames hidle.gathering hname')
  · have hperform (s : Session) (hidle : s.Idle)
        (hd : s.dictionary.find? name = some (.word definition)) :
        (s.startLine text).tickBy code =
          stepInto { s.startLine text with line := some rest }
            (Operation.invoke name definition).perform [] := by
      have hframes : (s.startLine text).frames = [] := hidle.frames
      have hg : (s.startLine text).gathering = .nothing := hidle.gathering
      have hname : (Token.word name).resolve (s.startLine text).dictionary =
        .ok (.perform (.invoke name definition)) := hresolve _ hd
      rw [tickBy_of_no_hostCall? fun _ => ?_]
      · exact tick_of_next hidle.wait hframes hg (hnext' s) hname
      · refine Option.eq_none_iff_forall_ne_some.2 fun call hcall => ?_
        have hprimitive := nextPrimitive?_of_hostCall? hcall
        cases definition with
        | primitive p =>
          rw [nextPrimitive?_of_token hframes hg (hnext' s) hname] at hprimitive
          exact hhost ⟨call.1, by rw [(Prod.mk.inj (Option.some.inj hprimitive)).1]⟩
        | compiled body | value n =>
          simp [nextPrimitive?, hframes, hg, hnext' s, hname] at hprimitive
    have hcongruence := Pending.queue.congruence s.machine.queue
    rw [hperform s hidle hname,
      hperform (s.exchange d) ⟨hidle.line, hidle.wait, hidle.frames, hidle.gathering⟩ hname']
    refine LastTwins.stepInto d hend hidle.gathering hqueue ?_ .nil
    refine (Operation.UsesOnly.invoke huses).perform_respects hcongruence fun name' p h => ?_
    obtain ⟨-, rfl⟩ := Operation.invoke.inj h
    exact p.respects hcongruence (fun _ => .queue _) fun action h => absurd ⟨action, by rw [h]⟩ hhost

/-- A line that calls a word has the same replies with another dictionary in which the name stands
for this word. -/
theorem repliesBy_call {events : List Event} {replies : List Reply}
    (h : RepliesBy code s (.line text :: events.map .event) replies t) :
    ∃ t', RepliesBy code (s.exchange d) (.line text :: events.map .event) replies t' ∧
      ∃ d', t' = t.exchange d' := by
  have hstart := tickBy_call hcode hlines hidle hqueue htext huses hname hname'
  cases h with
  | cons hfirst hrest =>
    cases hfirst with
    | queued hline _ => exact absurd hidle.line hline
    | line _ hends =>
      obtain ⟨v', hends', hv⟩ := hends.related (fun _ _ hs => hs.tickBy hcode hlines) hstart
      obtain ⟨t', hrest', ht⟩ := hv.repliesBy hcode hlines hrest
      exact ⟨t', .cons (.line hidle.line hends') hrest', ht.rest⟩

end

end

/-! ## Words of the host that act on the machine alone

They meet the conditions, so these statements are about the interpreter that runs. -/

/-- A host whose words act on the machine alone only adds entries to the dictionary. -/
theorem HostRun.grown {permitted : Session → HostCall → Prop} {calls : List HostCall}
    (h : HostRun permitted s calls t) : Grown s.dictionary t.dictionary :=
  h.by_plain.grown onlyAdds_lift

/-- If moreover the words that a definition uses submit no lines, then a line that calls it has the
same replies with another dictionary in which the name stands for it. -/
theorem replies_call {text name : String} {definition : Definition} {d : Dictionary}
    {events : List Event} {replies : List Reply} (hidle : s.Idle) (hqueue : s.machine.queue = [])
    (htext : tokens text.toList = [.word name])
    (huses : definition.UsesOnly (Primitive.Allowed (Exec.Keeps Machine.queue)))
    (hname : s.dictionary.find? name = some (.word definition))
    (hname' : d.find? name = some (.word definition))
    (h : Replies s (.line text :: events.map .event) replies t) :
    ∃ d', Replies (s.exchange d) (.line text :: events.map .event) replies (t.exchange d') := by
  obtain ⟨_, hreplies, d', rfl⟩ := repliesBy_call
    (fun action _ => ignoresNames_lift action) (fun _ haction => leavesLines_lift haction)
    hidle hqueue htext huses hname hname' (repliesBy_plain_iff.2 h)
  exact ⟨d', repliesBy_plain_iff.1 hreplies⟩

/-! ## The statement -/

/-- **Words are bound early, and the dictionary is append-only.**  A host calls what it likes, and
its words act on the session.  If they take no entries out of the dictionary, then the entries that
were there stay below those that are added, and all of them stand under names in lower case.  A name
stands for the newest entry under its form in lower case.  If the words of the host that a definition
uses look no names up, then the definition, wherever it was captured, goes through the same waits and
comes to the same, with the same session but for the dictionary, in two sessions that differ in
nothing but their dictionaries, even if these are exchanged again whenever an event is awaited.  If
moreover they submit no lines, then a line that calls a word has the same replies in any two sessions
that differ only in their dictionaries, as long as the name still stands for this word, whatever
became of the words that it calls. -/
theorem words_are_bound_early (code : HostCode) :
    ((∀ action, OnlyAdds (code action)) → ∀ random new calls s calls' t, IsNew random new →
      HostRunBy code new calls s → HostRunBy code s calls' t →
      s.dictionary <:+ t.dictionary ∧
        ∀ entry ∈ t.dictionary, ∃ name, entry.1 = Text.lowerCase name) ∧
    (∀ (d : Dictionary) name meaning, d.find? name = some meaning ↔
      ∃ newer older, d = newer ++ (Text.lowerCase name, meaning) :: older ∧
        ∀ entry ∈ newer, entry.1 ≠ Text.lowerCase name) ∧
    ∀ allowed, (∀ action, allowed action → IgnoresNames allowed (code action)) →
      ∀ name (definition : Definition), definition.UsesOnly (Primitive.Allowed allowed) →
      (∀ (s : Session) d events waits reply t,
        Execution code (s.calling name definition) events waits reply t →
        (∃ u, Execution code ((s.exchange d).calling name definition) events waits reply u) ∧
        ∀ waits' reply' u,
          Execution code ((s.exchange d).calling name definition) events waits' reply' u →
          waits' = waits ∧ reply' = reply ∧ ∃ d', u = t.exchange d') ∧
      ((∀ action, allowed action → LeavesLines (code action)) →
        ∀ s : Session, s.Idle → s.machine.queue = [] → ∀ text d,
          tokens text.toList = [.word name] → s.dictionary.find? name = some (.word definition) →
          d.find? name = some (.word definition) → ∀ (events : List Event) replies,
            (∀ t, RepliesBy code s (.line text :: events.map .event) replies t →
              ∃ u, RepliesBy code (s.exchange d) (.line text :: events.map .event) replies u ∧
                ∃ d', u = t.exchange d') ∧
            ∀ u, RepliesBy code (s.exchange d) (.line text :: events.map .event) replies u →
              ∃ t, RepliesBy code s (.line text :: events.map .event) replies t ∧
                ∃ d', u = t.exchange d') := by
  -- Three statements: on the entries, on names, and on a definition, which is called from a frame
  -- or by a line.  In a line the dictionaries may trade places, so one direction is enough.
  refine ⟨fun hcode random new calls s calls' t hnew hs ht => ?_, fun d name meaning =>
    Dictionary.find?_eq_some_iff, fun allowed hcode name definition huses =>
      ⟨fun s d events waits reply t h => ?_, fun hlines s hidle hqueue text d htext hname hname'
        events replies => ⟨fun t h => ?_, fun u h => ?_⟩⟩⟩
  · have hlater := ht.grown hcode
    have honward : Onward (fun _ => True) Freely (withPrimitives random) new :=
      (between_of_isNew respectsReturns_freely hnew).1
    exact ⟨hlater.suffix, ((grown_withPrimitives random).trans
      ((honward.grown.trans (hs.grown hcode)).trans hlater)).key⟩
  · have htwins := twins_calling s d name huses
    refine ⟨h.twin hcode htwins, fun waits' reply' u h' => ?_⟩
    obtain ⟨hwaits, hreply, hu⟩ := h.unique hcode htwins h'
    exact ⟨hwaits, hreply, hu.rest⟩
  · exact repliesBy_call hcode hlines hidle hqueue htext huses hname hname' h
  · have hidle' : (s.exchange d).Idle := ⟨hidle.line, hidle.wait, hidle.frames, hidle.gathering⟩
    obtain ⟨t, ht, d', rfl⟩ := repliesBy_call hcode hlines hidle' hqueue htext huses hname' hname h
    exact ⟨_, ht, u.dictionary, rfl⟩

/-- A word of the host that pushes a number and enters a constant for it. -/
def noteSeven : Interpretation Unit := do
  lift (Exec.pushData 7)
  modify (·.addConstant "seven" 7)

theorem onlyAdds_noteSeven : OnlyAdds noteSeven :=
  fun _ => Grown.refl.add "seven" (.word (.value 7))

theorem ignoresNames_noteSeven : IgnoresNames allowed noteSeven := by
  refine .bind (ignoresNames_lift _) fun _ _ => .modified fun s s' hs => ?_
  obtain ⟨d, rfl⟩ := hs.rest
  exact ⟨⟨d.add "seven" (.word (.value 7)), rfl⟩, hs.uses⟩

theorem leavesLines_noteSeven : LeavesLines noteSeven :=
  fun _ => ⟨rfl, rfl, rfl⟩

/-- A word that calls a word of the host, waits for a key and prints it. -/
def noteKey : Definition :=
  .compiled [.leaf (.invoke "note" (.primitive (.host (pure ())))),
    .leaf (.invoke "key" (.primitive .key)), .leaf (.invoke "." (.primitive .print))]

/-- The word of the host adds an entry each time it is called.  Neither an empty dictionary nor one
in which `note` and `key` mean something else changes what the word does that calls them. -/
theorem words_are_bound_early_noteKey :
    ∃ s t, HostRunBy (fun _ => noteSeven) (withPrimitives fun _ => 0)
        [.addPrimitive "note" (.host (pure ())), .readLine ": note-key note key . ;"] s ∧
      HostRunBy (fun _ => noteSeven) s [.readLine "note-key", .deliver (.key 65)] t ∧
      s.dictionary <:+ t.dictionary ∧ t.dictionary.find? "seven" = some (.word (.value 7)) ∧
      (∃ u, Execution (fun _ => noteSeven) ((s.exchange []).calling "note-key" noteKey) [.key 65]
        [.key] (.ok ()) u) ∧
      ∃ u, RepliesBy (fun _ => noteSeven)
          (s.exchange ((s.dictionary.add "key" (.word (.value 5))).add "note" (.control .do)))
          [.line "note-key", .event (.key 65)] [.ok (.suspended .key), .ok .ok] u ∧
        u.machine.data = [7] ∧ u.machine.output.console = " ok65  ok" := by
  obtain ⟨hgrows, -, hbound⟩ := words_are_bound_early fun _ => noteSeven
  -- The runs up to each wait are evaluated at once: the definition, the call in a line, and the
  -- word by itself, which goes on with an empty dictionary.
  obtain ⟨s, v, t, w, x, hs, hidle, hqueue, hname, hname', hv, hvwait, ht, hseven, hdata, houtput,
      hw, hwwait, hx, hxwait⟩ : ∃ s v t w x : Session,
      runSteps (tickBy fun _ => noteSeven) 20
        (((withPrimitives fun _ => 0).addPrimitive "note" (.host (pure ()))).startLine
          ": note-key note key . ;") = some (.ok .ok, s) ∧
      s.Idle ∧ s.machine.queue = [] ∧
      s.dictionary.find? "note-key" = some (.word noteKey) ∧
      ((s.dictionary.add "key" (.word (.value 5))).add "note" (.control .do)).find? "note-key" =
        some (.word noteKey) ∧
      runSteps (tickBy fun _ => noteSeven) 20 (s.startLine "note-key") =
        some (.ok (.suspended .key), v) ∧
      v.machine.wait = some .key ∧
      runSteps (tickAllBy fun _ => noteSeven) 20 (v.onMachine (Event.key 65).received) =
        some (.ok .ok, t) ∧
      t.dictionary.find? "seven" = some (.word (.value 7)) ∧ t.machine.data = [7] ∧
      t.machine.output.console = " ok65  ok" ∧
      runSteps (frameTickBy fun _ => noteSeven) 20 (s.calling "note-key" noteKey) =
        some (.ok (), w) ∧
      w.machine.wait = some .key ∧
      runSteps (frameTickBy fun _ => noteSeven) 20
        ((w.onMachine (Event.key 65).received).exchange []) = some (.ok (), x) ∧
      x.machine.wait = none :=
    ⟨_, _, _, _, _, rfl, ⟨rfl, rfl, rfl, rfl⟩, rfl, rfl, rfl, rfl, rfl, rfl, rfl, rfl, rfl, rfl, rfl,
      rfl, rfl⟩
  have hanswers : s.AnswersBy (fun _ => noteSeven) (.line "note-key") (.ok (.suspended .key)) v :=
    .line hidle.line (ends_of_runSteps hv)
  have hdelivered : v.AnswersBy (fun _ => noteSeven) (.event (.key 65)) (.ok .ok) t :=
    .event (by rw [hvwait]; rfl) (ends_of_runSteps ht)
  have hfirst : HostRunBy (fun _ => noteSeven) (withPrimitives fun _ => 0)
      [.addPrimitive "note" (.host (pure ())), .readLine ": note-key note key . ;"] s :=
    .cons (.addPrimitive _ _) (.cons (.readLine (.line rfl (ends_of_runSteps hs))) (.nil s))
  have hlater : HostRunBy (fun _ => noteSeven) s [.readLine "note-key", .deliver (.key 65)] t :=
    .cons (.readLine hanswers) (.cons (.deliver hdelivered) (.nil t))
  have huses : noteKey.UsesOnly (Primitive.Allowed fun _ => True) := by
    refine .compiled fun tree htree => ?_
    simp only [List.mem_cons, List.not_mem_nil, or_false] at htree
    obtain rfl | rfl | rfl := htree <;> exact .leaf (.invoke (.primitive trivial))
  obtain ⟨hexecutes, hcalls⟩ := hbound (fun _ => True) (fun _ _ => ignoresNames_noteSeven)
    "note-key" noteKey huses
  have htext : tokens "note-key".toList = [.word "note-key"] := Token.tokens_eq (by decide +kernel)
  have hexecution : Execution (fun _ => noteSeven) (s.calling "note-key" noteKey) [.key 65] [.key]
      (.ok ()) x :=
    .resumed (ends_of_runSteps hw) hwwait rfl [] (.ended (ends_of_runSteps hx) fun _ => hxwait)
  obtain ⟨u, hu, d, rfl⟩ := (hcalls (fun _ _ => leavesLines_noteSeven) s hidle hqueue _ _ htext
    hname hname' [.key 65] _).1 t (.cons hanswers (.cons hdelivered (.nil t)))
  exact ⟨s, t, hfirst, hlater,
    (hgrows (fun _ => onlyAdds_noteSeven) _ _ _ s _ t (.inl rfl) hfirst hlater).1, hseven,
    (hexecutes s [] _ _ _ _ hexecution).1, _, hu, hdata, houtput⟩

/-! ## Words of the host that are bound late -/

/-- A word of the host that tells whether a name is in the dictionary. -/
def tellKnown (name : String) : Interpretation Unit := do
  let known := (← get).dictionary.find? name
  lift (Exec.pushData (Cell.ofBool known.isSome))

/-- A word of the host that puts a bare session in the place of the one it is handed. -/
def startAnew : Interpretation Unit :=
  set (bare fun _ => 0)

/-- A word of the host that submits a line and tells so. -/
def submitTwo : Exec Unit := do
  Exec.submit "111 222"
  Exec.pushData (-1)

/-- None of the conditions on the words of the host can be left out.  A word that looks a name up
does something else as soon as the name is defined; a word that starts anew takes entries out of the
dictionary; and a line that a word submits is resolved when it starts, so what comes of a call of
`g`, which has one submitted, changes with a redefinition that is younger than `g`. -/
theorem words_bound_late :
    (∃ t u, Execution (fun _ => tellKnown "f")
        ((withPrimitives fun _ => 0).calling "known" (.primitive (.host (pure ())))) [] [] (.ok ())
        t ∧
      Execution (fun _ => tellKnown "f")
        (((withPrimitives fun _ => 0).addConstant "f" 1).calling "known"
          (.primitive (.host (pure ())))) [] [] (.ok ()) u ∧
      t.machine.data = [0] ∧ u.machine.data = [-1]) ∧
    (∃ t, HostRunBy (fun _ => startAnew) (withPrimitives fun _ => 0)
        [.addPrimitive "anew" (.host (pure ())), .readLine "anew"] t ∧
      ¬ (withPrimitives fun _ => 0).dictionary <:+ t.dictionary) ∧
    ∃ s t u, Replies ((withPrimitives fun _ => 0).addPrimitive "sub" (.host submitTwo))
        [.line ": 111 7 ;", .line ": g sub key ;"] [.ok .ok, .ok .ok] s ∧
      Replies s [.line "g", .event (.key 65)] [.ok (.suspended .key), .ok .ok] t ∧
      Replies s [.line ": 111 8 ;", .line "g", .event (.key 65)]
        [.ok .ok, .ok (.suspended .key), .ok .ok] u ∧
      t.machine.data = [222, 7, 65, -1] ∧ u.machine.data = [222, 8, 65, -1] := by
  refine ⟨?_, ?_, ?_⟩
  · obtain ⟨t, u, ht, hu, htwait, huwait, htdata, hudata⟩ : ∃ t u : Session,
        runSteps (frameTickBy fun _ => tellKnown "f") 5
          ((withPrimitives fun _ => 0).calling "known" (.primitive (.host (pure ())))) =
          some (.ok (), t) ∧
        runSteps (frameTickBy fun _ => tellKnown "f") 5
          (((withPrimitives fun _ => 0).addConstant "f" 1).calling "known"
            (.primitive (.host (pure ())))) = some (.ok (), u) ∧
        t.machine.wait = none ∧ u.machine.wait = none ∧ t.machine.data = [0] ∧
        u.machine.data = [-1] :=
      ⟨_, _, rfl, rfl, rfl, rfl, rfl, rfl⟩
    exact ⟨t, u, .ended (ends_of_runSteps ht) fun _ => htwait,
      .ended (ends_of_runSteps hu) fun _ => huwait, htdata, hudata⟩
  · obtain ⟨t, ht, hlength⟩ : ∃ t : Session,
        runSteps (tickBy fun _ => startAnew) 5
          (((withPrimitives fun _ => 0).addPrimitive "anew" (.host (pure ()))).startLine "anew") =
          some (.ok .ok, t) ∧ t.dictionary.length = 12 :=
      ⟨_, rfl, rfl⟩
    refine ⟨t, .cons (.addPrimitive _ _) (.cons (.readLine (.line rfl (ends_of_runSteps ht)))
      (.nil t)), fun hsuffix => ?_⟩
    -- The bare session has the control words only, which are fewer than the entries before.
    have hle := hsuffix.length_le
    rw [hlength] at hle
    exact absurd hle (by decide)
  · obtain ⟨s, t, u, hs, ht, hu, hdata⟩ : ∃ s t u : Session,
        ((withPrimitives fun _ => 0).addPrimitive "sub" (.host submitTwo)).callAll 20
          [.line ": 111 7 ;", .line ": g sub key ;"] = some ([.ok .ok, .ok .ok], s) ∧
        s.callAll 20 [.line "g", .event (.key 65)] =
          some ([.ok (.suspended .key), .ok .ok], t) ∧
        s.callAll 20 [.line ": 111 8 ;", .line "g", .event (.key 65)] =
          some ([.ok .ok, .ok (.suspended .key), .ok .ok], u) ∧
        t.machine.data = [222, 7, 65, -1] ∧ u.machine.data = [222, 8, 65, -1] :=
      ⟨_, _, _, rfl, rfl, rfl, rfl, rfl⟩
    exact ⟨s, t, u, replies_iff.2 ⟨20, hs⟩, replies_iff.2 ⟨20, ht⟩, replies_iff.2 ⟨20, hu⟩, hdata⟩

end Session

end Forth
