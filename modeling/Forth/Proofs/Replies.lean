import Forth.Proofs.DefinitionLine

/-!
# What a reply tells

A host learns from the reply to a call whether the session waits, and for what.  A line may end in
many places, and an event may run many queued lines after the one that waited for it, so that the
reply comes from whichever line ran last.  Still it always tells the truth: the session waits for an
event exactly if the reply says so (`Truthful`), and an event is taken exactly if it is waited for
(`replies_tell_the_wait`).

Nothing of this depends on how the host came to the session, nor on what the words do that it added.
-/

namespace Forth

namespace Event

theorem answers_iff_exists {e : Event} {w : Option Wait} :
    e.answers w ↔ ∃ v, w = some v ∧ e.answers (some v) := by
  cases w with
  | none =>
    constructor
    · intro h
      exact absurd rfl (ne_none_of_answers h)
    · rintro ⟨v, h, -⟩
      exact nomatch h
  | some w =>
    constructor
    · intro h
      exact ⟨w, rfl, h⟩
    · rintro ⟨v, h, hv⟩
      rwa [h]

end Event

namespace Session

/-! ## A line that ran -/

/-- The reply of a line that ran tells what became of the session: it waits for what the reply says,
and for nothing if the reply does not say so; and nothing is left of a line that failed. -/
structure Truthful (reply : Reply) (t : Session) : Prop where
  wait : ∀ w, reply = .ok (.suspended w) ↔ t.machine.wait = some w
  ran : reply ≠ .ok .queued
  idle : ∀ e, reply = .error e → t.Idle

theorem idle_abandon (s : Session) (e : Error) : (s.abandon e).2.Idle :=
  ⟨rfl, rfl, rfl, rfl⟩

/-- The reply tells of no wait, and rightly so. -/
theorem Truthful.of_no_wait {reply : Reply} {t : Session} (hwait : t.machine.wait = none)
    (hreply : ∀ w, reply ≠ .ok (.suspended w)) (hran : reply ≠ .ok .queued)
    (hidle : ∀ e, reply = .error e → t.Idle) : Truthful reply t where
  wait w := by
    rw [hwait]
    exact ⟨fun h => absurd h (hreply w), nofun⟩
  ran := hran
  idle := hidle

theorem truthful_abandon (s : Session) (e : Error) : Truthful (.error e) (s.abandon e).2 :=
  .of_no_wait rfl (fun _ => nofun) nofun fun _ _ => s.idle_abandon e

theorem Stopped.truthful {s t : Session} {reply : Reply} (h : Stopped s reply t) :
    Truthful reply t := by
  cases h with
  | @waiting w hwait =>
    refine ⟨fun w' => ?_, nofun, nofun⟩
    rw [hwait]
    constructor
    · intro h
      cases h
      rfl
    · intro h
      cases h
      rfl
  | finished hwait hframes hg => exact .of_no_wait hwait (fun _ => nofun) nofun nofun
  | defining hwait hframes hg => exact .of_no_wait hwait (fun _ => nofun) nofun nofun
  | unclosed hwait hframes hg => exact truthful_abandon s _
  | @failed e u hwait h => exact truthful_abandon u e

theorem truthful_of_ends {s t : Session} {reply : Reply} (h : Ends tick s (reply, t)) :
    Truthful reply t := by
  generalize hr : (reply, t) = r at h
  induction h with
  | done h =>
    subst hr
    exact (stopped_of_tick h).truthful
  | more _ _ ih => exact ih hr

/-- An event runs lines until one of them has to wait or none is left. -/
theorem truthful_of_ends_all {s t : Session} {reply : Reply} (h : Ends tickAll s (reply, t)) :
    Truthful reply t ∧ (t.machine.wait = none → t.machine.queue = []) := by
  generalize hr : (reply, t) = r at h
  induction h with
  | done h =>
    subst hr
    cases allStepped_of_tickAll h with
    | done hstep hrest =>
      exact ⟨(stopped_of_tick hstep).truthful, fun hwait => hrest.resolve_left fun h => h hwait⟩
  | more _ _ ih => exact ih hr

/-- The next event is accepted if the reply said that one of its kind is awaited. -/
theorem Truthful.answers_iff {reply : Reply} {t : Session} (h : Truthful reply t) (e : Event) :
    e.answers t.machine.wait ↔ ∃ w, reply = .ok (.suspended w) ∧ e.answers (some w) := by
  rw [Event.answers_iff_exists]
  exact exists_congr fun w => and_congr_left fun _ => (h.wait w).symm

/-! ## Calls -/

theorem answers_line_of_busy_iff {s t : Session} {text : String} {reply : Reply}
    (hline : s.line ≠ none) :
    s.Answers (.line text) reply t ↔
      reply = .ok .queued ∧ t = s.onMachine fun m => { m with queue := m.queue ++ [text] } := by
  obtain ⟨rest, hrest⟩ := Option.ne_none_iff_exists'.1 hline
  simp only [Answers, call, readLine, hrest, Option.some.injEq, Prod.mk.injEq]
  constructor
  · rintro ⟨-, rfl, rfl⟩
    exact ⟨rfl, rfl⟩
  · rintro ⟨rfl, rfl⟩
    exact ⟨0, rfl, rfl⟩

/-- **Replies tell the truth about the wait.**  While a line is in progress, a line that is submitted
is put behind the queued ones, which is all that happens, and only then the reply says so.  An event
is refused if it is not awaited, with an error that tells whether any event is, and nothing changes.
An event that is awaited is used up: the wait is over, and the lines go on from there.  After each
line that ran and each event that was taken, the session waits for an event exactly if the reply says
so, and it takes an event exactly if the reply said that one of this kind is awaited; if none is, no
line is left in the queue behind the event. -/
theorem replies_tell_the_wait (s : Session) :
    (∀ text reply t, s.line ≠ none → (s.Answers (.line text) reply t ↔
      reply = .ok .queued ∧ t = s.onMachine fun m => { m with queue := m.queue ++ [text] })) ∧
    (∀ text reply t, s.line = none → s.Answers (.line text) reply t →
      reply ≠ .ok .queued ∧ (∀ w, reply = .ok (.suspended w) ↔ t.machine.wait = some w) ∧
        ∀ e : Event, e.answers t.machine.wait ↔
          ∃ w, reply = .ok (.suspended w) ∧ e.answers (some w)) ∧
    (∀ (e : Event) reply t, ¬ e.answers s.machine.wait → (s.Answers (.event e) reply t ↔
      reply = .error (Event.refusal s.machine.wait) ∧ t = s)) ∧
    ∀ (e : Event) reply t, e.answers s.machine.wait →
      (e.received s.machine).wait = none ∧
      (s.Answers (.event e) reply t ↔ Ends tickAll (s.onMachine e.received) (reply, t)) ∧
      (s.Answers (.event e) reply t →
        (∀ w, reply = .ok (.suspended w) ↔ t.machine.wait = some w) ∧
        (t.machine.wait = none → t.machine.queue = []) ∧
        ∀ e' : Event, e'.answers t.machine.wait ↔
          ∃ w, reply = .ok (.suspended w) ∧ e'.answers (some w)) := by
  refine ⟨fun text reply t hline => answers_line_of_busy_iff hline,
    fun text reply t hline h => ?_, fun e reply t h => answers_refused_event_iff h,
    fun e reply t ha => ⟨e.received_wait _, answers_event_iff ha, fun h => ?_⟩⟩
  · have htruthful := truthful_of_ends ((answers_line_iff hline).1 h)
    exact ⟨htruthful.ran, htruthful.wait, htruthful.answers_iff⟩
  · obtain ⟨htruthful, hqueue⟩ := truthful_of_ends_all ((answers_event_iff ha).1 h)
    exact ⟨htruthful.wait, hqueue, htruthful.answers_iff⟩

end Session

end Forth
