import Forth.Proofs.Replies
import Forth.Proofs.Serving
import Forth.Proofs.SubmissionOrder

/-!
# Lines of a source

A source text is loaded line by line, and the first line that fails at once ends that: the lines after
it are not submitted (`FailsAtOnce`).  But a line that has to wait does not fail yet.  The lines after
it are submitted nevertheless, and are queued.  From then on the load has no say any more: events
work off the queue, and a line that fails does not keep the next one from starting.

`LineByLine` says what it is to execute lines one after the other, each of them once, with the events
that it waits for, and `sources_run_line_by_line` that a source which does not fail at once comes to
exactly that.  So a failure stops the rest of the source only as long as no line of it has waited
(`source_goes_on_after_failure`).
-/

namespace Forth.Session

variable {s t u v : Session} {text : String} {texts left : List String} {e : Event}
  {events : List Event} {first reply : Reply} {replies : List Reply}

/-! ## Executing lines one after the other -/

/-- The last call came to the first of these replies.  The events are delivered after it, each asked
for by the reply before it, and come to the second one. -/
inductive Answered : Reply → Session → List Event → Reply → Session → Prop
  | last (reply : Reply) (s : Session) : Answered reply s [] reply s
  | event {first second last : Reply} {s t u : Session} {e : Event} {events : List Event}
    (he : e.IsAskedFor first) (h : s.Answers (.event e) second t)
    (hrest : Answered second t events last u) : Answered first s (e :: events) last u

/-- The session with more lines at the end of its queue. -/
def queuedAll (s : Session) (texts : List String) : Session :=
  s.onMachine fun m => { m with queue := m.queue ++ texts }

/-- The lines are executed one after the other.  Each starts when nothing is in progress and goes on
with the events that it asks for, and the replies are those with which the lines end.  If the events
do not reach that far, the last line that has started is left waiting, with the others in the queue. -/
inductive LineByLine :
    Session → List String → List Event → List Reply → List String → Session → Prop
  | finished {s : Session} (hrest : s.AtRest) : LineByLine s [] [] [] [] s
  | line {s t u v : Session} {text : String} {texts left : List String} {events later : List Event}
    {first reply : Reply} {replies : List Reply} (hrest : s.AtRest)
    (h : s.Answers (.line text) first v) (hevents : Answered first v events reply t)
    (hover : ∀ w, reply ≠ .ok (.suspended w)) (hlater : LineByLine t texts later replies left u) :
    LineByLine s (text :: texts) (events ++ later) (reply :: replies) left u
  | waiting {s t v : Session} {text : String} {left : List String} {events : List Event}
    {first : Reply} {w : Wait} (hrest : s.AtRest) (h : s.Answers (.line text) first v)
    (hevents : Answered first v events (.ok (.suspended w)) t) :
    LineByLine s (text :: left) events [] left (t.queuedAll left)

theorem truthful_of_line (hline : s.line = none) (h : s.Answers (.line text) reply t) :
    Truthful reply t :=
  truthful_of_ends ((answers_line_iff hline).1 h)

/-- An event that is asked for is awaited. -/
theorem Truthful.answers (hs : Truthful first s) (he : e.IsAskedFor first) :
    e.answers s.machine.wait :=
  (hs.answers_iff e).2 he

theorem Truthful.event (hs : Truthful first s) (he : e.IsAskedFor first)
    (h : s.Answers (.event e) reply t) : Truthful reply t :=
  (truthful_of_ends_all ((answers_event_iff (hs.answers he)).1 h)).1

theorem Answered.truthful (h : Answered first s events reply t) (hs : Truthful first s) :
    Truthful reply t := by
  induction h with
  | last => exact hs
  | event he h _ ih => exact ih (hs.event he h)

/-- Once nothing is awaited, all of the lines are over. -/
theorem LineByLine.of_no_wait (h : LineByLine s texts events replies left u)
    (hwait : u.machine.wait = none) : left = [] ∧ replies.length = texts.length := by
  induction h with
  | finished => exact ⟨rfl, rfl⟩
  | line _ _ _ _ _ ih =>
    obtain ⟨hleft, hlength⟩ := ih hwait
    exact ⟨hleft, congrArg (· + 1) hlength⟩
  | @waiting _ t _ _ left _ _ w hrest h hevents =>
    have hwaiting : t.machine.wait = some w :=
      ((hevents.truthful (truthful_of_line hrest.1 h)).wait w).1 rfl
    exact nomatch hwaiting.symm.trans hwait

/-! ## After a reply -/

/-- What is known of a session after a call that came to this reply, while no line is queued. -/
structure Told (reply : Reply) (s : Session) : Prop extends Engaged s where
  truthful : Truthful reply s
  empty : s.machine.queue = []

theorem Engaged.told_line (hs : Engaged s) (hline : s.line = none)
    (h : s.Answers (.line text) reply t) : Told reply t where
  toEngaged := hs.gives (c := .line text) trivial ⟨reply, h⟩
  truthful := truthful_of_line hline h
  empty := by
    have hrunning := hs.toSettled.startLine text
    have hqueue := (hrunning.ends Blind.keeps_queue ((answers_line_iff hline).1 h)).2.2
    exact hqueue.trans (hs.queue hline)

theorem Told.event (hs : Told first s) (he : e.IsAskedFor first)
    (h : s.Answers (.event e) reply t) : Told reply t where
  toEngaged := hs.gives (c := .event e) (hs.truthful.answers he) ⟨reply, h⟩
  truthful := hs.truthful.event he h
  empty := by
    have hrunning := hs.toSettled.onEvent e
    have hempty : (s.onMachine e.received).machine.queue = [] :=
      (e.received_queue _).trans hs.empty
    have hends := (answers_event_iff (hs.truthful.answers he)).1 h
    have halone := (hrunning.ends_tickAll_iff Blind.keeps_queue hempty).1 hends
    exact (hrunning.ends Blind.keeps_queue halone).2.2.trans hempty

/-- If the reply tells of no wait, the next line can start. -/
theorem Told.atRest (hs : Told reply s) (hover : ∀ w, reply ≠ .ok (.suspended w)) : s.AtRest := by
  have hwait : s.machine.wait = none := by
    cases hw : s.machine.wait with
    | none => rfl
    | some w => exact absurd ((hs.truthful.wait w).2 hw) (hover w)
  exact ⟨hs.line hwait, hwait⟩

/-- If the reply tells of a wait, a line is in progress. -/
theorem Told.busy {w : Wait} (hs : Told (.ok (.suspended w)) s) : s.line ≠ none := by
  intro hline
  have hwait := (hs.truthful.wait w).1 rfl
  exact nomatch hwait.symm.trans (hs.wait hline)

theorem Told.answered (hs : Told first s) (h : Answered first s events reply t) : Told reply t := by
  induction h with
  | last => exact hs
  | event he h _ ih => exact ih (hs.event he h)

/-! ## All lines before all events -/

/-- The lines are submitted, whether they fail or not, and then the events are delivered, each of
them accepted. -/
def Submits (s : Session) (texts : List String) (events : List Event) (u : Session) : Prop :=
  ∃ t, Calls s (texts.map .line) t ∧ t.AcceptsAll (events.map .event) ∧
    Calls t (events.map .event) u

theorem submits_nil_iff (hrest : s.AtRest) : Submits s [] events u ↔ events = [] ∧ u = s := by
  unfold Submits
  simp only [List.map_nil, calls_nil_iff, exists_eq_left]
  cases events with
  | nil =>
    simp only [List.map_nil, AcceptsAll, calls_nil_iff, true_and]
  | cons e events =>
    have hrefused : ¬ e.answers s.machine.wait := fun h => Event.ne_none_of_answers h hrest.2
    constructor
    · rintro ⟨⟨haccepts, -⟩, -⟩
      exact absurd haccepts hrefused
    · rintro ⟨h, -⟩
      exact nomatch h

theorem submits_cons_iff :
    Submits s (text :: texts) events u ↔ ∃ t, s.Gives (.line text) t ∧ Submits t texts events u := by
  unfold Submits
  simp only [List.map_cons, calls_cons_iff]
  constructor
  · rintro ⟨t, ⟨v, hv, ht⟩, hevents⟩
    exact ⟨v, hv, t, ht, hevents⟩
  · rintro ⟨v, hv, t, ht, hevents⟩
    exact ⟨t, ⟨v, hv, ht⟩, hevents⟩

/-- While a line is in progress, lines are only queued. -/
theorem calls_lines_of_busy (hline : s.line ≠ none) :
    Calls s (texts.map .line) t ↔ t = s.queuedAll texts := by
  induction texts generalizing s with
  | nil =>
    have hsame : s.queuedAll [] = s := by simp [queuedAll, onMachine]
    rw [List.map_nil, calls_nil_iff, hsame]
  | cons text texts ih =>
    have hnext : (s.queued text).queuedAll texts = s.queuedAll (text :: texts) := by
      simp [queued, queuedAll, onMachine]
    simp only [List.map_cons, calls_cons_iff, gives_line_of_busy hline, exists_eq_left]
    rw [ih (s := s.queued text) hline, hnext]

theorem submits_of_busy (hline : s.line ≠ none) :
    Submits s texts [] u ↔ u = s.queuedAll texts := by
  simp only [Submits, calls_lines_of_busy hline, exists_eq_left, List.map_nil, AcceptsAll,
    calls_nil_iff, true_and]

/-- The line in progress takes the first of the events, whatever lines are queued behind it. -/
theorem submits_event_iff (hs : Engaged s) (hline : s.line ≠ none) :
    Submits s texts (e :: events) u ↔
      e.answers s.machine.wait ∧ ∃ t, s.Gives (.event e) t ∧ Submits t texts events u := by
  -- An event that is awaited may be delivered before the lines behind it are submitted, since
  -- submitting them only queues them.
  have hmove (ha : e.answers s.machine.wait) (v : Session) :
      (s.queuedAll texts).Gives (.event e) v ↔
        ∃ t, s.Gives (.event e) t ∧ Calls t (texts.map .line) v := by
    have hswap : Calls s (texts.map .line ++ [.event e]) v ↔
        Calls s (.event e :: (texts.map .line ++ [])) v := calls_move_iff hs ha
    simpa only [calls_append_iff, calls_lines_of_busy hline, calls_cons_iff, calls_nil_iff,
      exists_eq_left, exists_eq_right', List.append_nil] using hswap
  constructor
  · rintro ⟨t, ht, ⟨ha, haccepts⟩, hcalls⟩
    obtain rfl := (calls_lines_of_busy hline).1 ht
    obtain ⟨v, hv, hrest⟩ := calls_cons_iff.1 hcalls
    obtain ⟨t, ht, hlines⟩ := (hmove ha v).1 hv
    exact ⟨ha, t, ht, v, hlines, haccepts v hv, hrest⟩
  · rintro ⟨ha, t, ht, v, hlines, haccepts, hrest⟩
    have hv := (hmove ha v).2 ⟨t, ht, hlines⟩
    exact ⟨_, (calls_lines_of_busy hline).2 rfl, .cons ha hv haccepts,
      calls_cons_iff.2 ⟨v, hv, hrest⟩⟩

/-- The events belong to the line in progress as long as it waits.  Either they bring it to its end,
and those that are left belong to the next lines, or they do not. -/
theorem Told.submits (hs : Told first s) (h : Submits s texts events u) :
    ∃ own later reply t, events = own ++ later ∧ Answered first s own reply t ∧
      ((∀ w, reply ≠ .ok (.suspended w)) ∧ Submits t texts later u ∨
        ∃ w, reply = .ok (.suspended w) ∧ later = [] ∧ u = t.queuedAll texts) := by
  induction events generalizing first s with
  | nil =>
    obtain ⟨w, rfl⟩ | hover := suspended_or first
    · exact ⟨[], [], _, s, rfl, .last _ s, .inr ⟨w, rfl, rfl, (submits_of_busy hs.busy).1 h⟩⟩
    · exact ⟨[], [], first, s, rfl, .last first s, .inl ⟨hover, h⟩⟩
  | cons e events ih =>
    obtain ⟨w, rfl⟩ | hover := suspended_or first
    · obtain ⟨ha, t, ⟨second, ht⟩, hrest⟩ := (submits_event_iff hs.toEngaged hs.busy).1 h
      have he : e.IsAskedFor (.ok (.suspended w)) := (hs.truthful.answers_iff e).1 ha
      obtain ⟨own, later, reply, v, rfl, hown, hlater⟩ := ih (hs.event he ht) hrest
      exact ⟨e :: own, later, reply, v, rfl, .event he ht hown, hlater⟩
    · exact ⟨[], e :: events, first, s, rfl, .last first s, .inl ⟨hover, h⟩⟩

theorem Answered.submits {later : List Event} (h : Answered first s events reply t)
    (hs : Told first s) (hlater : Submits t texts later u) :
    Submits s texts (events ++ later) u := by
  induction h with
  | last => exact hlater
  | event he h _ ih =>
    obtain ⟨w, rfl, -⟩ := id he
    exact (submits_event_iff hs.toEngaged hs.busy).2
      ⟨hs.truthful.answers he, _, ⟨_, h⟩, ih (hs.event he h) hlater⟩

/-- **Lines that are submitted all at once are executed one after the other.** -/
theorem submits_iff (hs : Engaged s) (hrest : s.AtRest) :
    Submits s texts events u ↔ ∃ replies left, LineByLine s texts events replies left u := by
  constructor
  · intro h
    -- By induction over the lines: the first one is served with the events that it asks for, and if
    -- it keeps waiting, the others stay queued behind it.
    induction texts generalizing s events with
    | nil =>
      obtain ⟨rfl, rfl⟩ := (submits_nil_iff hrest).1 h
      exact ⟨[], [], .finished hrest⟩
    | cons text texts ih =>
      obtain ⟨v, ⟨first, hv⟩, hrun⟩ := submits_cons_iff.1 h
      have htold := hs.told_line hrest.1 hv
      obtain ⟨own, later, reply, t, rfl, hown, hend⟩ := htold.submits hrun
      obtain ⟨hover, hlater⟩ | ⟨w, rfl, rfl, rfl⟩ := hend
      · have ht := htold.answered hown
        obtain ⟨replies, left, hothers⟩ := ih ht.toEngaged (ht.atRest hover) hlater
        exact ⟨reply :: replies, left, .line hrest hv hown hover hothers⟩
      · rw [List.append_nil]
        exact ⟨[], texts, .waiting hrest hv hown⟩
  · rintro ⟨replies, left, h⟩
    induction h with
    | finished hrest => exact (submits_nil_iff hrest).2 ⟨rfl, rfl⟩
    | line hrest h hevents hover _ ih =>
      have htold := hs.told_line hrest.1 h
      have ht := htold.answered hevents
      exact submits_cons_iff.2
        ⟨_, ⟨_, h⟩, hevents.submits htold (ih ht.toEngaged (ht.atRest hover))⟩
    -- The line that waits last takes up all events that are left, so nothing goes to the lines
    -- behind it.
    | @waiting _ t _ _ left events _ w hrest h hevents =>
      have htold := hs.told_line hrest.1 h
      have hlast := (submits_of_busy (htold.answered hevents).busy).2 (rfl : t.queuedAll left = _)
      have hall := hevents.submits htold hlast
      rw [List.append_nil] at hall
      exact submits_cons_iff.2 ⟨_, ⟨_, h⟩, hall⟩

/-! ## Loading lines -/

/-- One of the lines fails when it is submitted, and each line before it is over by then, without an
event, and has not failed. -/
inductive FailsAtOnce : Session → List String → Error → Session → Prop
  | here {s t : Session} {text : String} {texts : List String} {e : Error}
    (h : s.Answers (.line text) (.error e) t) : FailsAtOnce s (text :: texts) e t
  | later {s t u : Session} {text : String} {texts : List String} {status : Status} {e : Error}
    (h : s.Answers (.line text) (.ok status) t) (hover : ∀ w, status ≠ .suspended w)
    (hlater : FailsAtOnce t texts e u) : FailsAtOnce s (text :: texts) e u

theorem Answers.unique {c : Call} {reply' : Reply} (h : s.Answers c reply t)
    (h' : s.Answers c reply' u) : reply = reply' ∧ t = u := by
  obtain ⟨fuel, h⟩ := h
  obtain ⟨fuel', h'⟩ := h'
  have hboth := (call_mono h (Nat.le_max_left fuel fuel')).symm.trans
    (call_mono h' (Nat.le_max_right fuel fuel'))
  exact Prod.mk.inj (Option.some.inj hboth)

theorem loadLines_of_error {fuel : Nat} {err : Error}
    (h : s.readLine fuel text = some (.error err, t)) :
    s.loadLines fuel (text :: texts) = some (.error err, t) := by
  simp [loadLines, h]

theorem loadLines_of_ok {fuel : Nat} {status : Status}
    (h : s.readLine fuel text = some (.ok status, t)) :
    s.loadLines fuel (text :: texts) = t.loadLines fuel texts := by
  simp [loadLines, h]

/-- While a line is in progress, no line fails at once. -/
theorem loadLines_of_busy (hline : s.line ≠ none) (fuel : Nat) (texts : List String) :
    s.loadLines fuel texts = some (.ok (), s.queuedAll texts) := by
  induction texts generalizing s with
  | nil => simp [loadLines, queuedAll, onMachine]
  | cons text texts ih =>
    obtain ⟨rest, hrest⟩ := Option.ne_none_iff_exists'.1 hline
    have hread : s.readLine fuel text = some (.ok .queued, s.queued text) := by
      simp only [readLine, hrest]
      rfl
    have hnext : (s.queued text).queuedAll texts = s.queuedAll (text :: texts) := by
      simp [queued, queuedAll, onMachine]
    rw [loadLines_of_ok hread, ih (s := s.queued text) hline, hnext]

theorem loadLines_mono {r : Except Error Unit × Session} {fuel more : Nat}
    (h : s.loadLines fuel texts = some r) (hle : fuel ≤ more) : s.loadLines more texts = some r := by
  induction texts generalizing s with
  | nil => exact h
  | cons text texts ih =>
    obtain ⟨reply, v, hread, hrest⟩ := loadLines_cons h
    have hmore := readLine_mono hread hle
    cases reply with
    | error err =>
      rw [loadLines_of_error hmore, ← hrest]
    | ok status =>
      rw [loadLines_of_ok hmore]
      exact ih hrest

/-- A load that stops does so because a line fails at once. -/
theorem loadLines_error_iff {err : Error} (hs : Engaged s) (hrest : s.AtRest) :
    (∃ fuel, s.loadLines fuel texts = some (.error err, t)) ↔ FailsAtOnce s texts err t := by
  constructor
  · rintro ⟨fuel, h⟩
    induction texts generalizing s with
    | nil => exact nomatch congrArg Prod.fst (Option.some.inj h)
    | cons text texts ih =>
      obtain ⟨reply, v, hread, hlater⟩ := loadLines_cons h
      cases reply with
      | error err' =>
        obtain ⟨heq, rfl⟩ := Prod.mk.inj hlater
        obtain rfl := Except.error.inj heq
        exact .here ⟨fuel, hread⟩
      | ok status =>
        have hv := hs.told_line hrest.1 ⟨fuel, hread⟩
        -- A line that has to wait leaves the session busy.  From then on lines are only queued, and
        -- none of them fails at once.
        obtain ⟨w, hw⟩ | hover := suspended_or (.ok status)
        · obtain rfl := Except.ok.inj hw
          have hbusy := loadLines_of_busy hv.busy fuel texts
          exact nomatch congrArg Prod.fst (Option.some.inj (hbusy.symm.trans hlater))
        · exact .later ⟨fuel, hread⟩ (fun w hw => hover w (congrArg _ hw))
            (ih hv.toEngaged (hv.atRest hover) hlater)
  · intro h
    induction h with
    | here h =>
      obtain ⟨fuel, h⟩ := h
      exact ⟨fuel, loadLines_of_error h⟩
    | later h hover _ ih =>
      have hv := hs.told_line hrest.1 h
      obtain ⟨fuel, h⟩ := h
      obtain ⟨fuel', hlater⟩ := ih hv.toEngaged (hv.atRest fun w hw => hover w (Except.ok.inj hw))
      refine ⟨max fuel fuel', ?_⟩
      rw [loadLines_of_ok (readLine_mono h (Nat.le_max_left fuel fuel'))]
      exact loadLines_mono hlater (Nat.le_max_right fuel fuel')

/-- A load that does not stop has submitted all lines. -/
theorem loadLines_ok_iff (hs : Engaged s) (hrest : s.AtRest) :
    (∃ fuel, s.loadLines fuel texts = some (.ok (), t)) ↔
      (¬ ∃ err u, FailsAtOnce s texts err u) ∧ Calls s (texts.map .line) t := by
  constructor
  · rintro ⟨fuel, h⟩
    -- A load has one result, so one that comes to its end has no line that fails at once.
    refine ⟨?_, ?_⟩
    · rintro ⟨err, u, hfails⟩
      obtain ⟨fuel', h'⟩ := (loadLines_error_iff hs hrest).2 hfails
      have hboth := (loadLines_mono h (Nat.le_max_left fuel fuel')).symm.trans
        (loadLines_mono h' (Nat.le_max_right fuel fuel'))
      exact nomatch congrArg Prod.fst (Option.some.inj hboth)
    · clear hs hrest
      induction texts generalizing s with
      | nil =>
        obtain ⟨-, rfl⟩ := Prod.mk.inj (Option.some.inj h)
        exact calls_nil_iff.2 rfl
      | cons text texts ih =>
        obtain ⟨reply, v, hread, hlater⟩ := loadLines_cons h
        cases reply with
        | error err => exact nomatch congrArg Prod.fst hlater
        | ok status => exact calls_cons_iff.2 ⟨v, ⟨_, fuel, hread⟩, ih hlater⟩
  · rintro ⟨hfails, hcalls⟩
    -- In the other direction the first line cannot fail, since it would be the one that fails at
    -- once.  If it has to wait, the others are queued; if not, the load goes on at rest.
    induction texts generalizing s with
    | nil =>
      obtain rfl := calls_nil_iff.1 hcalls
      exact ⟨0, rfl⟩
    | cons text texts ih =>
      obtain ⟨v, ⟨reply, hv⟩, hcalls⟩ := calls_cons_iff.1 hcalls
      cases reply with
      | error err => exact absurd ⟨err, v, .here hv⟩ hfails
      | ok status =>
        have htold := hs.told_line hrest.1 hv
        obtain ⟨w, hw⟩ | hover := suspended_or (.ok status)
        · obtain rfl := Except.ok.inj hw
          obtain ⟨fuel, hread⟩ := hv
          refine ⟨fuel, (loadLines_of_ok hread).trans ?_⟩
          rw [(calls_lines_of_busy htold.busy).1 hcalls]
          exact loadLines_of_busy htold.busy fuel texts
        · obtain ⟨fuel', hlater⟩ := ih htold.toEngaged (htold.atRest hover) (fun hlater => by
            obtain ⟨err, u, hlater⟩ := hlater
            exact hfails ⟨err, u, .later hv (fun w hw => hover w (congrArg _ hw)) hlater⟩) hcalls
          obtain ⟨fuel, hread⟩ := hv
          refine ⟨max fuel fuel', ?_⟩
          rw [loadLines_of_ok (readLine_mono hread (Nat.le_max_left fuel fuel'))]
          exact loadLines_mono hlater (Nat.le_max_right fuel fuel')

/-! ## Sources -/

/-- What fails at once is one of the replies, if the lines are executed one after the other. -/
theorem FailsAtOnce.mem_replies {err : Error} (h : FailsAtOnce s texts err t)
    (hrun : LineByLine s texts events replies left u) : .error err ∈ replies := by
  -- A line has one reply, so the replies of the run and of the load agree line by line until the
  -- one that fails.
  induction h generalizing events replies with
  | here h =>
    cases hrun with
    | line _ h' hevents _ _ =>
      obtain ⟨rfl, -⟩ := h.unique h'
      cases hevents with
      | last => exact .head _
      | event he _ _ => exact nomatch he.choose_spec.1
    | waiting _ h' hevents =>
      obtain ⟨rfl, -⟩ := h.unique h'
      cases hevents with
      | event he _ _ => exact nomatch he.choose_spec.1
  | later h hover _ ih =>
    cases hrun with
    | line _ h' hevents _ hlater =>
      obtain ⟨rfl, rfl⟩ := h.unique h'
      cases hevents with
      | last => exact .tail _ (ih hlater)
      | event he _ _ => exact absurd (Except.ok.inj he.choose_spec.1) (hover _)
    | waiting _ h' hevents =>
      obtain ⟨rfl, rfl⟩ := h.unique h'
      cases hevents with
      | last => exact absurd rfl (hover _)
      | event he _ _ => exact absurd (Except.ok.inj he.choose_spec.1) (hover _)

/-- The lines up to the one that fails at once are executed, without any event, and no other one. -/
theorem FailsAtOnce.executed {err : Error} (hs : Engaged s) (hrest : s.AtRest)
    (h : FailsAtOnce s texts err t) :
    (∃ done text later replies, texts = done ++ text :: later ∧
      LineByLine s (done ++ [text]) [] (replies ++ [.error err]) [] t ∧
      ∀ e, .error e ∉ replies) ∧ Told (.error err) t := by
  induction h with
  | @here s t text texts err h =>
    have htold := hs.told_line hrest.1 h
    have hover : ∀ w, (.error err : Reply) ≠ .ok (.suspended w) := fun _ => nofun
    have hfinished : LineByLine t [] [] [] [] t := .finished (htold.atRest hover)
    exact ⟨⟨[], text, texts, [], rfl, .line hrest h (.last _ t) hover hfinished,
      fun _ => List.not_mem_nil⟩, htold⟩
  | @later s v t text texts status err h hover _ ih =>
    have htold := hs.told_line hrest.1 h
    have hover : ∀ w, (.ok status : Reply) ≠ .ok (.suspended w) :=
      fun w hw => hover w (Except.ok.inj hw)
    obtain ⟨⟨done, last, later, replies, rfl, hrun, hreplies⟩, ht⟩ :=
      ih htold.toEngaged (htold.atRest hover)
    refine ⟨⟨text :: done, last, later, .ok status :: replies, rfl,
      .line hrest h (.last _ v) hover hrun, fun e he => ?_⟩, ht⟩
    obtain hfirst | hothers := List.mem_cons.1 he
    · exact nomatch hfirst
    · exact hreplies e hothers

/-- **The lines of a source run one after the other.**  A load stops with an error exactly if a line
fails at once, with no line before it failing or waiting.  Then the lines up to that one are executed,
and that is all that ever becomes of the source: nothing is in progress, nothing is queued, and every
event is refused.  Any other load submits all lines.  They come to what they come to if they are
executed one after the other, each once and in order, with the events that are delivered afterwards,
whether lines fail on the way or not; and a source of which no line fails is loaded like this.  Once
nothing is awaited any more, each of its lines is over. -/
theorem sources_run_line_by_line {s : Session} (hs : Reachable Exec.IgnoresQueue s)
    (hrest : s.AtRest) (source : String) :
    (∀ err t, (∃ fuel, s.loadSource fuel source = some (.error err, t)) ↔
      FailsAtOnce s (Text.lines source) err t) ∧
    (∀ err t, FailsAtOnce s (Text.lines source) err t →
      (∃ done text later replies, Text.lines source = done ++ text :: later ∧
        LineByLine s (done ++ [text]) [] (replies ++ [.error err]) [] t ∧
        ∀ e, .error e ∉ replies) ∧
      t.Idle ∧ t.machine.queue = [] ∧ ∀ e reply u, t.Answers (.event e) reply u → u = t) ∧
    (∀ events u,
      (∃ fuel t, s.loadSource fuel source = some (.ok (), t) ∧ t.AcceptsAll (events.map .event) ∧
        Calls t (events.map .event) u) ↔
      (¬ ∃ err t, FailsAtOnce s (Text.lines source) err t) ∧
        ∃ replies left, LineByLine s (Text.lines source) events replies left u) ∧
    ∀ events replies left u, LineByLine s (Text.lines source) events replies left u →
      ((∀ err, .error err ∉ replies) → ¬ ∃ err t, FailsAtOnce s (Text.lines source) err t) ∧
      (u.machine.wait = none → left = [] ∧ replies.length = (Text.lines source).length) := by
  have hengaged : Engaged s := ⟨hs.resting fun _ h => h.keeps, fun _ => hrest.2⟩
  refine ⟨fun err t => loadLines_error_iff hengaged hrest, fun err t h => ?_, fun events u => ?_,
    fun events replies left u hrun => ⟨?_, hrun.of_no_wait⟩⟩
  · obtain ⟨hexecuted, ht⟩ := h.executed hengaged hrest
    have hidle := ht.truthful.idle err rfl
    refine ⟨hexecuted, hidle, ht.empty, fun e reply u hu => ?_⟩
    -- Nothing is awaited after the failure, so no event is taken.
    have hrefused : ¬ e.answers t.machine.wait := fun h => Event.ne_none_of_answers h hidle.wait
    exact ((answers_refused_event_iff hrefused).1 hu).2
  -- A load that comes to its end has submitted every line, and so has the run line by line.
  · rw [← submits_iff hengaged hrest]
    constructor
    · rintro ⟨fuel, t, hload, hevents⟩
      obtain ⟨hfails, hlines⟩ := (loadLines_ok_iff hengaged hrest).1 ⟨fuel, hload⟩
      exact ⟨hfails, t, hlines, hevents⟩
    · rintro ⟨hfails, t, hlines, hevents⟩
      obtain ⟨fuel, hload⟩ := (loadLines_ok_iff hengaged hrest).2 ⟨hfails, hlines⟩
      exact ⟨fuel, t, hload, hevents⟩
  · rintro hreplies ⟨err, t, hfails⟩
    exact hreplies err (hfails.mem_replies hrun)

/-- An unknown word in the second line keeps the third one from being executed, and a line that waits
does not. -/
theorem sources_run_line_by_line_unknown :
    let s := withPrimitives fun _ => 0
    Reachable Exec.IgnoresQueue s ∧ s.AtRest ∧
    (∃ t, FailsAtOnce s (Text.lines "5\nnope\n7") (.missingWord "nope") t ∧
      t.machine.data = [5] ∧ ∀ e reply u, t.Answers (.event e) reply u → u = t) ∧
    ∃ u replies left, LineByLine s (Text.lines "2 key\n7") [.key 65] replies left u ∧
      u.machine.data = [7, 65, 2] ∧ left = [] ∧ replies.length = 2 := by
  intro s
  have hs : Reachable Exec.IgnoresQueue s := reachable_withPrimitives _
  have hrest : s.AtRest := ⟨rfl, rfl⟩
  refine ⟨hs, hrest, ?_, ?_⟩
  · obtain ⟨t, hload, hdata⟩ : ∃ t : Session,
        s.loadSource 10 "5\nnope\n7" = some (.error (.missingWord "nope"), t) ∧
        t.machine.data = [5] :=
      ⟨_, rfl, rfl⟩
    obtain ⟨hstops, hstopped, -, -⟩ := sources_run_line_by_line hs hrest "5\nnope\n7"
    have hfails := (hstops _ t).1 ⟨10, hload⟩
    exact ⟨t, hfails, hdata, (hstopped _ t hfails).2.2.2⟩
  · obtain ⟨t, u, hload, hwait, hu, hdata, hnone⟩ : ∃ t u : Session,
        s.loadSource 10 "2 key\n7" = some (.ok (), t) ∧ t.machine.wait = some .key ∧
        t.Gives (.event (.key 65)) u ∧ u.machine.data = [7, 65, 2] ∧ u.machine.wait = none :=
      ⟨_, _, rfl, rfl, ⟨_, 20, rfl⟩, rfl, rfl⟩
    obtain ⟨-, -, hloaded, hrun⟩ := sources_run_line_by_line hs hrest "2 key\n7"
    have haccepts : t.AcceptsAll ([Event.key 65].map .event) :=
      .cons (by rw [Accepts, hwait]; rfl) hu trivial
    have hcalls : Calls t ([Event.key 65].map .event) u :=
      calls_cons_iff.2 ⟨u, hu, calls_nil_iff.2 rfl⟩
    obtain ⟨-, replies, left, hlines⟩ := (hloaded _ u).1 ⟨10, t, hload, haccepts, hcalls⟩
    exact ⟨u, replies, left, hlines, hdata, (hrun _ _ _ _ hlines).2 hnone⟩

/-- The first line waits and then fails, and the second one is executed all the same. -/
theorem source_goes_on_after_failure :
    let s := withPrimitives fun _ => 0
    ∃ t u, s.loadSource 10 "key 0 /\n7" = some (.ok (), t) ∧
      t.Answers (.event (.key 65)) (.ok .ok) u ∧ u.machine.data = [7] ∧
      LineByLine s ["key 0 /", "7"] [.key 65] [.error .divisionByZero, .ok .ok] [] u := by
  intro s
  obtain ⟨t, u, v, w, hload, hu, hdata, hkey, hdivide, hnumber, hwait⟩ : ∃ t u v w : Session,
      s.loadSource 10 "key 0 /\n7" = some (.ok (), t) ∧
      t.Answers (.event (.key 65)) (.ok .ok) u ∧ u.machine.data = [7] ∧
      s.Answers (.line "key 0 /") (.ok (.suspended .key)) v ∧
      v.Answers (.event (.key 65)) (.error .divisionByZero) w ∧ w.Answers (.line "7") (.ok .ok) u ∧
      w.line = none ∧ w.machine.wait = none ∧ u.line = none ∧ u.machine.wait = none :=
    ⟨_, _, _, _, rfl, ⟨20, rfl⟩, rfl, ⟨10, rfl⟩, ⟨10, rfl⟩, ⟨10, rfl⟩, rfl, rfl, rfl, rfl⟩
  obtain ⟨hline, hwait, hrest⟩ := hwait
  have hsecond : LineByLine w ["7"] [] [.ok .ok] [] u :=
    .line ⟨hline, hwait⟩ hnumber (.last _ u) (fun _ => nofun) (.finished hrest)
  exact ⟨t, u, hload, hu, hdata, .line ⟨rfl, rfl⟩ hkey
    (.event ⟨.key, rfl, rfl⟩ hdivide (.last _ w)) (fun _ => nofun) hsecond⟩

end Forth.Session
