import Forth.Proofs.Reachable

/-!
# The order of submission decides

A line that is submitted while another one is in progress is queued, and runs when an event lets the
line in progress end.  This file shows that it makes no difference when a line is submitted between
the events, as long as the order of the lines and the order of the events stay
(`calls_of_same_order`).

The heart of it is that a line and an event can be swapped (`gives_swap_iff`).  With one more line at
the end of the queue the session runs as before, and when it would have come to rest it starts that
line, which is what submitting the line at rest does (`ends_tickAll_queued_iff`).
-/

namespace Forth

/-- The action neither looks at the queue nor changes it; in particular it submits no lines. -/
def Exec.IgnoresQueue (action : Exec Unit) : Prop :=
  ∀ (m : Machine) (queue : List String),
    action.run { m with queue } = onFinal (fun m => { m with queue }) (action.run m)

/-- The other machine has one more line at the end of its queue. -/
def OneMore (text : String) (m m' : Machine) : Prop :=
  m' = { m with queue := m.queue ++ [text] }

theorem OneMore.congruence (text : String) : Congruence (OneMore text) where
  data h := by rw [h]
  returns h := by rw [h]
  memory h := by rw [h]
  random h := by rw [h]
  wait h := by rw [h]
  setData data h := by
    rw [h]
    rfl
  setReturns returns h := by
    rw [h]
    rfl
  setMemory memory h := by
    rw [h]
    rfl
  setRandom random h := by
    rw [h]
    rfl
  print text h := by
    rw [h]
    rfl

theorem OneMore.survivesWait (text : String) : SurvivesWait (OneMore text) := by
  intro w m m' h
  rw [h]
  rfl

namespace Exec

variable {action : Exec Unit}

theorem IgnoresQueue.keeps (h : action.IgnoresQueue) : action.Keeps Machine.queue := by
  intro m
  have hm := h m m.queue
  change action.run m = _ at hm
  rw [hm]
  cases action.run m <;> rfl

theorem IgnoresQueue.respects (h : action.IgnoresQueue) (text : String) :
    Respects (OneMore text) Anything action := by
  rintro m m' rfl
  have hkeeps := h.keeps m
  rw [h m (m.queue ++ [text])]
  cases hrun : action.run m with
  | ok u t =>
    rw [hrun] at hkeeps
    refine .ok trivial ?_
    rw [OneMore, show t.queue = m.queue from hkeeps]
  | error e t =>
    rw [hrun] at hkeeps
    refine .error ?_
    rw [OneMore, show t.queue = m.queue from hkeeps]

end Exec

/-- If the words of the host ignore the queue, all words do. -/
theorem Primitive.Allowed.respects_oneMore {p : Primitive} (hp : p.Allowed Exec.IgnoresQueue)
    (text : String) : Respects (OneMore text) Anything p.run := by
  refine p.respects (OneMore.congruence text) (fun _ => OneMore.survivesWait text)
    fun action h => ?_
  subst h
  exact Exec.IgnoresQueue.respects hp text

namespace Session

/-- All words that the session can come to ignore the queue. -/
abbrev Blind : Primitive → Prop :=
  Primitive.Allowed Exec.IgnoresQueue

theorem Blind.keeps_queue (p : Primitive) (hp : Blind p) : p.run.Keeps Machine.queue :=
  Primitive.Allowed.keeps_queue (fun _ h => h.keeps) hp

/-! ## One more line in the queue -/

/-- The session with one more line at the end of its queue. -/
def queued (s : Session) (text : String) : Session :=
  s.onMachine fun m => { m with queue := m.queue ++ [text] }

variable {s t : Session} {text : String} {reply : Reply}

theorem alike_queued (hs : s.UsesOnly Blind) (text : String) :
    Alike (OneMore text) Blind s (s.queued text) :=
  ⟨rfl, rfl, hs⟩

theorem eq_queued_of_alike (h : Alike (OneMore text) Blind s t) : t = s.queued text := by
  rw [h.rest, show t.machine = _ from h.machine]
  rfl

/-- The line in progress does not notice a line in the queue. -/
theorem tick_queued (hs : s.UsesOnly Blind) (text : String) :
    (s.queued text).tick =
      match s.tick with
      | .more t => .more (t.queued text)
      | .done (reply, t) => .done (reply, t.queued text) := by
  have htick := (alike_queued hs text).tick (OneMore.congruence text) (OneMore.survivesWait text)
    fun p hp => hp.respects_oneMore text
  generalize s.tick = r, (s.queued text).tick = r' at htick
  cases htick with
  | more h => rw [eq_queued_of_alike h]
  | done reply h => rw [eq_queued_of_alike h]

/-- With one more line in the queue a step is the same, or starts that line where the session would
come to rest. -/
theorem tickAll_queued (hs : Running Blind s) (text : String) :
    match s.tickAll with
    | .more t => (s.queued text).tickAll = .more (t.queued text)
    | .done (reply, t) =>
      if t.line = none then (s.queued text).tickAll = .more (t.startLine text)
      else (s.queued text).tickAll = .done (reply, t.queued text) := by
  have hqueued := tick_queued hs.uses text
  have htick := hs.tick Blind.keeps_queue
  cases hstep : s.tick with
  | more t =>
    rw [hstep] at hqueued
    rw [tickAll_of_more hstep]
    exact tickAll_of_more hqueued
  | done r =>
    obtain ⟨reply, t⟩ := r
    rw [hstep] at hqueued htick
    change (s.queued text).tick = .done (reply, t.queued text) at hqueued
    obtain ⟨hsettled, hended, -⟩ := htick
    -- The line is over or has to wait.  If it is over, the new line starts now only if no other one
    -- is queued before it.
    by_cases hwait : t.machine.wait = none
    · cases hqueue : t.machine.queue with
      | nil =>
        rw [tickAll_of_done hstep (.inr hqueue)]
        have hline := hsettled.line hwait
        have hlast : (t.queued text).machine.queue = text :: [] := by
          simp only [queued, onMachine, hqueue, List.nil_append]
        have hstart := tickAll_of_queued hqueued hwait hlast
        have hsame : (t.queued text).onMachine (fun m => { m with queue := [] }) = t := by
          simp only [queued, onMachine]
          rw [← hqueue]
        rw [hsame] at hstart
        simpa only [hline, if_true] using hstart
      | cons next queue =>
        rw [tickAll_of_queued hstep hwait hqueue]
        have hnext : (t.queued text).machine.queue = next :: (queue ++ [text]) := by
          simp only [queued, onMachine, hqueue, List.cons_append]
        have hstart := tickAll_of_queued hqueued hwait hnext
        exact hstart
    · rw [tickAll_of_done hstep (.inl hwait)]
      have hline : t.line ≠ none := fun h => hwait (hended h)
      simp only [hline, if_false]
      exact tickAll_of_done hqueued (.inl hwait)

/-- With one more line in the queue the session comes to where it would come without it, and goes on
with that line if nothing is in progress there. -/
theorem ends_tickAll_queued_iff {q : Reply × Session} (hs : Running Blind s) (text : String) :
    Ends tickAll (s.queued text) q ↔
      ∃ reply t, Ends tickAll s (reply, t) ∧
        if t.line = none then Ends tickAll (t.startLine text) q else q = (reply, t.queued text) := by
  constructor
  · intro h
    -- Both sides are compared step by step.  The new line is behind all others, so it makes no
    -- difference until the session would come to rest.
    generalize hx : s.queued text = x at h
    induction h generalizing s with
    | @done x q h =>
      subst hx
      have hstep := tickAll_queued hs text
      cases htick : s.tickAll with
      | more t =>
        simp only [htick, h] at hstep
        exact nomatch hstep
      | done r =>
        obtain ⟨reply, t⟩ := r
        simp only [htick, h] at hstep
        refine ⟨reply, t, .done htick, ?_⟩
        by_cases hline : t.line = none
        · simp only [hline, if_true] at hstep
          exact nomatch hstep
        · simp only [hline, if_false] at hstep ⊢
          exact Progress.done.inj hstep
    | @more x y q h hrest ih =>
      subst hx
      have hstep := tickAll_queued hs text
      have hrunning := hs.tickAll Blind.keeps_queue
      cases htick : s.tickAll with
      | more t =>
        simp only [htick, h] at hstep hrunning
        obtain ⟨reply, u, hu, hq⟩ := ih hrunning (Progress.more.inj hstep).symm
        exact ⟨reply, u, .more htick hu, hq⟩
      | done r =>
        obtain ⟨reply, t⟩ := r
        simp only [htick, h] at hstep
        refine ⟨reply, t, .done htick, ?_⟩
        by_cases hline : t.line = none
        · simp only [hline, if_true] at hstep ⊢
          rwa [← Progress.more.inj hstep]
        · simp only [hline, if_false] at hstep
          exact nomatch hstep
  -- In the other direction the steps without the new line lead to where it starts.
  · rintro ⟨reply, t, h, hq⟩
    generalize hr : (reply, t) = r at h
    induction h with
    | @done s r h =>
      subst hr
      have hstep := tickAll_queued hs text
      rw [h] at hstep
      by_cases hline : t.line = none
      · simp only [hline, if_true] at hstep hq
        exact .more hstep hq
      · simp only [hline, if_false] at hstep hq
        exact hq ▸ .done hstep
    | more h _ ih =>
      have hstep := tickAll_queued hs text
      have hrunning := hs.tickAll Blind.keeps_queue
      rw [h] at hstep hrunning
      exact .more hstep (ih hrunning hr)

/-! ## Calls that are accepted -/

/-- A line is always accepted, an event only while it is awaited. -/
def Accepts (s : Session) : Call → Prop
  | .line _ => True
  | .event e => e.answers s.machine.wait

/-- Every call is accepted when it is made. -/
def AcceptsAll : Session → List Call → Prop
  | _, [] => True
  | s, c :: calls => s.Accepts c ∧ ∀ t, s.Gives c t → AcceptsAll t calls

variable {u : Session} {e : Event} {c : Call} {calls : List Call}

theorem AcceptsAll.cons (haccepts : s.Accepts c) (h : s.Gives c t) (hrest : AcceptsAll t calls) :
    AcceptsAll s (c :: calls) :=
  ⟨haccepts, fun _ hu => h.unique hu ▸ hrest⟩

/-! ## Swapping a line and an event -/

/-- Between calls, and an event is awaited only on behalf of a line. -/
structure Engaged (s : Session) : Prop extends Resting Blind s where
  wait : s.line = none → s.machine.wait = none

theorem gives_line_of_idle (hs : Engaged s) (hline : s.line = none) :
    s.Gives (.line text) t ↔ ∃ reply, Ends tickAll (s.startLine text) (reply, t) := by
  have hrunning := hs.toSettled.startLine text
  simp only [Gives, answers_line_iff hline,
    hrunning.ends_tickAll_iff Blind.keeps_queue (hs.queue hline)]

theorem gives_line_of_busy (hline : s.line ≠ none) :
    s.Gives (.line text) t ↔ t = s.queued text := by
  obtain ⟨rest, hrest⟩ := Option.ne_none_iff_exists'.1 hline
  simp only [Gives, Answers, call, readLine, hrest]
  constructor
  · rintro ⟨reply, fuel, h⟩
    exact (Prod.mk.inj (Option.some.inj h)).2.symm
  · rintro rfl
    exact ⟨_, 0, rfl⟩

theorem gives_event (ha : e.answers s.machine.wait) :
    s.Gives (.event e) t ↔ ∃ reply, Ends tickAll (s.onMachine e.received) (reply, t) := by
  simp only [Gives, answers_event_iff ha]

theorem Engaged.gives (hs : Engaged s) (haccepts : s.Accepts c) (h : s.Gives c t) :
    Engaged t := by
  cases c with
  | line text =>
    by_cases hline : s.line = none
    · obtain ⟨reply, hends⟩ := (gives_line_of_idle hs hline).1 h
      obtain ⟨hresting, hwait⟩ := (hs.toSettled.startLine text).ends_all Blind.keeps_queue hends
      exact ⟨hresting, hwait⟩
    · obtain rfl := (gives_line_of_busy hline).1 h
      exact ⟨⟨hs.toSettled.setQueue _, fun h => absurd h hline⟩, hs.wait⟩
  | event e =>
    obtain ⟨reply, hends⟩ := (gives_event haccepts).1 h
    obtain ⟨hresting, hwait⟩ := (hs.toSettled.onEvent e).ends_all Blind.keeps_queue hends
    exact ⟨hresting, hwait⟩

/-- What an event does to the machine has nothing to do with the queue. -/
theorem onMachine_received_queued (s : Session) (text : String) (e : Event) :
    (s.queued text).onMachine e.received = (s.onMachine e.received).queued text := by
  cases e with
  | key code =>
    simp only [queued, onMachine, Event.received, Machine.recordKey]
    cases s.machine.memory.addressOf? lastKeyName <;> rfl
  | timer => rfl

/-- While an event is awaited, it makes no difference whether a line is submitted before the event
or after it. -/
theorem gives_swap_iff (hs : Engaged s) (ha : e.answers s.machine.wait) (text : String)
    (u : Session) :
    (∃ t, s.Gives (.line text) t ∧ t.Gives (.event e) u) ↔
      ∃ t, s.Gives (.event e) t ∧ t.Gives (.line text) u := by
  have hline : s.line ≠ none := fun h => Event.ne_none_of_answers ha (hs.wait h)
  have hrunning : Running Blind (s.onMachine e.received) := hs.toSettled.onEvent e
  -- While a line waits, a further one is only queued, so the first order is a run with one more
  -- line in the queue.
  have hqueued : (∃ t, s.Gives (.line text) t ∧ t.Gives (.event e) u) ↔
      ∃ reply, Ends tickAll ((s.onMachine e.received).queued text) (reply, u) := by
    simp only [gives_line_of_busy hline, exists_eq_left]
    rw [gives_event (s := s.queued text) ha, onMachine_received_queued]
  rw [hqueued]
  simp only [ends_tickAll_queued_iff hrunning, gives_event ha]
  constructor
  · rintro ⟨reply, reply', t, ht, hu⟩
    refine ⟨t, ⟨reply', ht⟩, ?_⟩
    -- After the event the session is at rest, and the line starts, or it waits again, and the line
    -- is queued.
    obtain ⟨hresting, hwait⟩ := hrunning.ends_all Blind.keeps_queue ht
    by_cases hidle : t.line = none
    · simp only [hidle, if_true] at hu
      exact (gives_line_of_idle ⟨hresting, hwait⟩ hidle).2 ⟨reply, hu⟩
    · simp only [hidle, if_false, Prod.mk.injEq] at hu
      exact (gives_line_of_busy hidle).2 hu.2
  · rintro ⟨t, ⟨reply', ht⟩, hu⟩
    obtain ⟨hresting, hwait⟩ := hrunning.ends_all Blind.keeps_queue ht
    by_cases hidle : t.line = none
    · obtain ⟨reply, hu⟩ := (gives_line_of_idle ⟨hresting, hwait⟩ hidle).1 hu
      exact ⟨reply, reply', t, ht, by simpa only [hidle, if_true] using hu⟩
    · have hu := (gives_line_of_busy hidle).1 hu
      exact ⟨reply', reply', t, ht, by simp only [hidle, if_false, hu]⟩

/-! ## All orders of submission -/

theorem calls_move_iff {texts : List String} (hs : Engaged s) (ha : e.answers s.machine.wait) :
    Calls s (texts.map .line ++ .event e :: calls) u ↔
      Calls s (.event e :: (texts.map .line ++ calls)) u := by
  induction texts generalizing s with
  | nil => rfl
  | cons text texts ih =>
    have hline : s.line ≠ none := fun h => Event.ne_none_of_answers ha (hs.wait h)
    have hafter : ∀ t, s.Gives (.line text) t →
        (Calls t (texts.map .line ++ .event e :: calls) u ↔
          Calls t (.event e :: (texts.map .line ++ calls)) u) := by
      intro t ht
      have hengaged := hs.gives (c := .line text) trivial ht
      obtain rfl := (gives_line_of_busy hline).1 ht
      exact ih hengaged ha
    have hswap := gives_swap_iff hs ha text
    simp only [List.map_cons, List.cons_append, calls_cons_iff] at hafter ⊢
    constructor
    · rintro ⟨t, ht, hrest⟩
      obtain ⟨v, hv, hrest⟩ := (hafter t ht).1 hrest
      obtain ⟨t', ht', hv'⟩ := (hswap v).1 ⟨t, ht, hv⟩
      exact ⟨t', ht', v, hv', hrest⟩
    · rintro ⟨t', ht', v, hv', hrest⟩
      obtain ⟨t, ht, hv⟩ := (hswap v).2 ⟨t', ht', hv'⟩
      exact ⟨t, ht, (hafter t ht).2 ⟨v, hv, hrest⟩⟩

/-- Calls that are all accepted come to the same as all of the lines before all of the events. -/
theorem calls_iff_lines_first (hs : Engaged s) (h : AcceptsAll s calls) :
    Calls s calls u ↔
      Calls s ((calls.filterMap Call.line?).map .line ++ (calls.filterMap Call.event?).map .event)
        u := by
  induction calls generalizing s with
  | nil => rfl
  | cons c calls ih =>
    obtain ⟨haccepts, hrest⟩ := h
    have hafter (t : Session) (ht : s.Gives c t) := ih (hs.gives haccepts ht) (hrest t ht)
    cases c with
    | line text =>
      simp only [List.filterMap_cons, Call.line?, Call.event?, List.map_cons, List.cons_append,
        calls_cons_iff]
      exact exists_congr fun t => and_congr_right fun ht => hafter t ht
    | event e =>
      simp only [List.filterMap_cons, Call.line?, Call.event?, List.map_cons,
        calls_move_iff hs haccepts]
      rw [calls_cons_iff, calls_cons_iff]
      exact exists_congr fun t => and_congr_right fun ht => hafter t ht

end Session

open Session

/-- **The order of submission decides, timing does not.**  Two sequences of calls with the same lines
in the same order and the same events in the same order, in which every event is accepted when it is
delivered, come to the same session, whatever the order of lines and events among each other: each of
them comes to an end if the other one does, and the sessions are equal in all their parts. -/
theorem calls_of_same_order {s : Session} (hs : Reachable Exec.IgnoresQueue s) (hrest : s.AtRest)
    {calls calls' : List Call} (hlines : calls.filterMap Call.line? = calls'.filterMap Call.line?)
    (hevents : calls.filterMap Call.event? = calls'.filterMap Call.event?)
    (h : s.AcceptsAll calls) (h' : s.AcceptsAll calls') :
    (∀ t, Calls s calls t ↔ Calls s calls' t) ∧
      ∀ t t', Calls s calls t → Calls s calls' t' → t' = t := by
  have hengaged : Engaged s := ⟨hs.resting fun _ h => h.keeps, fun _ => hrest.2⟩
  have hsame (t : Session) : Calls s calls t ↔ Calls s calls' t := by
    rw [calls_iff_lines_first hengaged h, calls_iff_lines_first hengaged h', hlines, hevents]
  exact ⟨hsame, fun t t' ht ht' => ht'.unique ((hsame t).1 ht)⟩

theorem calls_key_and_line :
    let s := withPrimitives fun _ => 0
    let calls : List Call := [.line "key", .line "1 +", .event (.key 65)]
    let calls' : List Call := [.line "key", .event (.key 65), .line "1 +"]
    Reachable Exec.IgnoresQueue s ∧ s.AtRest ∧ s.AcceptsAll calls ∧ s.AcceptsAll calls' ∧
      ∃ t, Calls s calls t ∧ Calls s calls' t ∧ t.machine.data = [66] := by
  intro s calls calls'
  have hs : Reachable Exec.IgnoresQueue s := reachable_withPrimitives _
  have hrest : s.AtRest := ⟨rfl, rfl⟩
  obtain ⟨t, u, v, u', ht, hwait, hu, hwait', hv, hu', hdata⟩ : ∃ t u v u' : Session,
      s.Gives (.line "key") t ∧ t.machine.wait = some .key ∧
        t.Gives (.line "1 +") u ∧ u.machine.wait = some .key ∧
        u.Gives (.event (.key 65)) v ∧ t.Gives (.event (.key 65)) u' ∧ v.machine.data = [66] :=
    ⟨_, _, _, _, ⟨_, 10, rfl⟩, rfl, ⟨_, 10, rfl⟩, rfl, ⟨_, 20, rfl⟩, ⟨_, 20, rfl⟩, rfl⟩
  have haccepts : s.AcceptsAll calls :=
    .cons trivial ht (.cons trivial hu (.cons (by rw [Accepts, hwait']; rfl) hv trivial))
  have haccepts' : s.AcceptsAll calls' :=
    .cons trivial ht (.cons (by rw [Accepts, hwait]; rfl) hu' ⟨trivial, fun _ _ => trivial⟩)
  have hcalls : Calls s calls v := by
    simp only [calls, calls_cons_iff, calls_nil_iff]
    exact ⟨t, ht, u, hu, v, hv, rfl⟩
  have hlines : calls.filterMap Call.line? = calls'.filterMap Call.line? := rfl
  have hevents : calls.filterMap Call.event? = calls'.filterMap Call.event? := rfl
  have hsame := (calls_of_same_order hs hrest hlines hevents haccepts haccepts').1 v
  exact ⟨hs, hrest, haccepts, haccepts', v, hcalls, hsame.1 hcalls, hdata⟩

end Forth
