import Forth.Proofs.HostInvariants

/-!
# Lines and their turns

A line that is submitted starts at once if none is in progress, and otherwise it is queued.  A word
may submit lines as well; it runs on behalf of a line, so these lines are always queued.  `Logged`
keeps two lists along with a session, the lines that were submitted and those that have started, both
in order.  What is logged is settled by what happens to the queue: what a step puts there is
submitted, and what is taken from there starts.

Queued lines start in the order in which they were submitted, and so do the lines that start at
once.  The two orders fit together as long as no line starts at once while others are queued; then
the lines that were submitted are those that have started and after them the queue
(`Logged.in_turn`).  But only an event works off the queue.  Lines that a word submits on behalf of a
line that the host has just submitted are still queued when that line is over, although nothing is
awaited, and what the host submits next starts before them (`line_out_of_turn`).
-/

namespace Forth

/-! ## Words that submit lines -/

/-- The word may submit lines, and leaves the lines that are queued already where they are. -/
def Primitive.QueuesBehind (p : Primitive) : Prop :=
  ∀ m : Machine, m.queue <+: (finalState (p.run.run m)).queue

/-- Actions between equal machines whose queues begin with these lines. -/
theorem queue_prefix_congruence (texts : List String) :
    Congruence (Fixed (fun m => texts <+: m.queue) True) :=
  Pending.congruence (fun _ _ _ _ _ _ => rfl) True

theorem queue_prefix_survivesWait (texts : List String) :
    SurvivesWait (Fixed (fun m => texts <+: m.queue) True) :=
  fun _ _ _ hm => ⟨by rw [hm.1], hm.2⟩

theorem Primitive.QueuesBehind.respects {p : Primitive} (hp : p.QueuesBehind)
    (texts : List String) : Respects (Fixed (fun m => texts <+: m.queue) True) Anything p.run := by
  rintro m m' ⟨rfl, hm⟩
  have hqueue := (of_eq_true hm).trans (hp m')
  generalize p.run.run m' = r at hqueue
  cases r with
  | ok u t => exact .ok trivial ⟨rfl, eq_true hqueue⟩
  | error e t => exact .error ⟨rfl, eq_true hqueue⟩

/-- The words of the language submit no lines. -/
theorem Primitive.queuesBehind_of_language {p : Primitive} (hp : p.Allowed fun _ => False) :
    p.QueuesBehind := by
  intro m
  have hkeeps : p.run.Keeps Machine.queue := hp.keeps_queue fun _ h => h.elim
  exact ⟨[], (List.append_nil _).trans (hkeeps m).symm⟩

namespace Session

variable {s t : Session}

/-- **A step takes no line off the queue.**  It may put lines there. -/
theorem queue_of_tick (hs : s.UsesOnly Primitive.QueuesBehind) :
    match s.tick with
    | .more t | .done (_, t) => s.machine.queue <+: t.machine.queue := by
  have halike : Alike (Fixed (fun m => s.machine.queue <+: m.queue) True) Primitive.QueuesBehind
      s s := ⟨⟨rfl, eq_true List.prefix_rfl⟩, rfl, hs⟩
  have htick := halike.tick (queue_prefix_congruence _) (queue_prefix_survivesWait _)
    fun p hp => hp.respects _
  generalize s.tick = r at htick
  cases htick with
  | more h => exact of_eq_true h.machine.2
  | done reply h => exact of_eq_true h.machine.2

theorem queue_withPrimitives (random : Nat → UInt64) :
    (withPrimitives random).machine.queue = [] :=
  withPrimitives_invariant (I := fun s => s.machine.queue = []) random rfl fun _ _ _ hs => hs

/-! ## The log -/

/-- How a line was taken when it was submitted. -/
inductive Submission
  | atOnce (text : String)
  | queued (text : String)

/-- The line, if it started at once. -/
def Submission.atOnce? : Submission → Option String
  | atOnce text => some text
  | queued _ => none

/-- The line, if it was queued. -/
def Submission.queued? : Submission → Option String
  | atOnce _ => none
  | queued text => some text

theorem filterMap_queued? (texts : List String) :
    (texts.map Submission.queued).filterMap Submission.queued? = texts := by
  induction texts with
  | nil => rfl
  | cons text texts ih => rw [List.map_cons, List.filterMap_cons, Submission.queued?, ih]

theorem filterMap_atOnce? (texts : List String) :
    (texts.map Submission.queued).filterMap Submission.atOnce? = [] := by
  induction texts with
  | nil => rfl
  | cons text texts ih => rw [List.map_cons, List.filterMap_cons, Submission.atOnce?, ih]

/-- What a new session may become, with the lines that were submitted and the lines that have
started.  The host may add words, change the machine and submit lines between any two steps of a
line, but it leaves the queue alone, and where it submits a line while none is in progress, `turn`
holds. -/
inductive Logged (turn : Session → Prop) : List Submission → List Submission → Session → Prop
  | new (random : Nat → UInt64) : Logged turn [] [] (withPrimitives random)
  | addPrimitive {submitted started : List Submission} {s : Session}
    (h : Logged turn submitted started s) (name : String) {p : Primitive} (hp : p.QueuesBehind) :
    Logged turn submitted started (s.addPrimitive name p)
  | addConstant {submitted started : List Submission} {s : Session}
    (h : Logged turn submitted started s) (name : String) (n : Cell) :
    Logged turn submitted started (s.addConstant name n)
  | adjust {submitted started : List Submission} {s : Session}
    (h : Logged turn submitted started s) {m : Machine} (hqueue : m.queue = s.machine.queue) :
    Logged turn submitted started { s with machine := m }
  | start {submitted started : List Submission} {s : Session}
    (h : Logged turn submitted started s) (hline : s.line = none) (hturn : turn s)
    (text : String) :
    Logged turn (submitted ++ [.atOnce text]) (started ++ [.atOnce text]) (s.startLine text)
  | queue {submitted started : List Submission} {s : Session}
    (h : Logged turn submitted started s) (hline : s.line ≠ none) (text : String) :
    Logged turn (submitted ++ [.queued text]) started (s.queued text)
  | step {submitted started : List Submission} {s t : Session} {texts : List String}
    (h : Logged turn submitted started s) (htick : s.tick = .more t)
    (hqueue : t.machine.queue = s.machine.queue ++ texts) :
    Logged turn (submitted ++ texts.map .queued) started t
  /-- The line in progress ends, or it has to wait. -/
  | stop {submitted started : List Submission} {s t : Session} {reply : Reply}
    {texts : List String} (h : Logged turn submitted started s) (htick : s.tick = .done (reply, t))
    (hqueue : t.machine.queue = s.machine.queue ++ texts) :
    Logged turn (submitted ++ texts.map .queued) started t
  /-- The line in progress is over, and the next of the queued lines starts. -/
  | next {submitted started : List Submission} {s : Session} {text : String} {queue : List String}
    (h : Logged turn submitted started s) (hline : s.line = none) (hwait : s.machine.wait = none)
    (hqueue : s.machine.queue = text :: queue) :
    Logged turn submitted (started ++ [.queued text])
      ((s.onMachine fun m => { m with queue }).startLine text)

namespace Logged

variable {turn : Session → Prop} {submitted started : List Submission}

theorem usesOnly (h : Logged turn submitted started s) : s.UsesOnly Primitive.QueuesBehind := by
  induction h with
  | new random => exact IsNew.usesOnly (fun _ => Primitive.queuesBehind_of_language) (.inl rfl)
  | addPrimitive _ name hp ih => exact ih.define (.primitive hp)
  | addConstant _ name n ih => exact ih.define (.value n)
  | adjust _ _ ih | queue _ _ _ ih => exact ⟨ih.dictionary, ih.frames, ih.gathering⟩
  | start _ _ _ text ih => exact ih.startLine text
  | next _ _ _ _ ih => exact (ih.onMachine _).startLine _
  | step _ htick _ ih | stop _ htick _ ih =>
    have huses := ih.tick
    rwa [htick] at huses

/-- Queued lines start in the order in which they were submitted. -/
theorem queued_in_order (h : Logged turn submitted started s) :
    submitted.filterMap Submission.queued? =
      started.filterMap Submission.queued? ++ s.machine.queue := by
  induction h with
  | new random => exact (queue_withPrimitives random).symm
  | addPrimitive _ _ _ ih | addConstant _ _ _ ih => exact ih
  | adjust _ hqueue ih => exact ih.trans (by rw [hqueue])
  | start _ _ _ text ih =>
    simp only [List.filterMap_append, ih, List.filterMap_cons, Submission.queued?,
      List.filterMap_nil, List.append_nil]
    rfl
  | queue _ _ text ih =>
    rw [List.filterMap_append, ih, List.append_assoc]
    rfl
  | step _ _ hqueue ih | stop _ _ hqueue ih =>
    rw [List.filterMap_append, ih, filterMap_queued?, hqueue, List.append_assoc]
  | next _ _ _ hqueue ih =>
    rw [ih, hqueue, List.filterMap_append, List.append_assoc]
    rfl

/-- Lines that start at once do so when they are submitted. -/
theorem atOnce_in_order (h : Logged turn submitted started s) :
    submitted.filterMap Submission.atOnce? = started.filterMap Submission.atOnce? := by
  induction h with
  | new random => rfl
  | addPrimitive _ _ _ ih | addConstant _ _ _ ih | adjust _ _ ih => exact ih
  | start _ _ _ text ih => rw [List.filterMap_append, List.filterMap_append, ih]
  | queue _ _ text ih =>
    rw [List.filterMap_append, ih]
    exact List.append_nil _
  | step _ _ _ ih | stop _ _ _ ih =>
    rw [List.filterMap_append, ih, filterMap_atOnce?, List.append_nil]
  | next _ _ _ _ ih =>
    rw [ih, List.filterMap_append]
    exact (List.append_nil _).symm

/-- If no line starts at once while others are queued, all lines start in the order in which they
were submitted. -/
theorem in_turn (hturn : ∀ s, turn s → s.machine.queue = []) (h : Logged turn submitted started s) :
    submitted = started ++ s.machine.queue.map .queued := by
  induction h with
  | new random =>
    rw [queue_withPrimitives random]
    rfl
  | addPrimitive _ _ _ ih | addConstant _ _ _ ih => exact ih
  | adjust _ hqueue ih => exact ih.trans (by rw [hqueue])
  | @start _ _ s _ _ hs text ih =>
    have hqueue : (s.startLine text).machine.queue = [] := hturn s hs
    rw [hqueue, ih, hturn s hs]
    simp only [List.map_nil, List.append_nil]
  | queue _ _ text ih =>
    rw [ih, List.append_assoc]
    simp only [queued, onMachine, List.map_append, List.map_cons, List.map_nil]
  | step _ _ hqueue ih | stop _ _ hqueue ih =>
    rw [ih, hqueue, List.map_append, List.append_assoc]
  | next _ _ _ hqueue ih =>
    rw [ih, hqueue, List.append_assoc]
    rfl

/-! ## Runs -/

/-- What the words of a step submit is queued behind what is queued already. -/
theorem exists_step (h : Logged turn submitted started s) (htick : s.tick = .more t) :
    ∃ texts, t.machine.queue = s.machine.queue ++ texts ∧
      Logged turn (submitted ++ texts.map .queued) started t := by
  have hqueue := queue_of_tick h.usesOnly
  rw [htick] at hqueue
  obtain ⟨texts, htexts⟩ := hqueue
  exact ⟨texts, htexts.symm, h.step htick htexts.symm⟩

theorem exists_stop {reply : Reply} (h : Logged turn submitted started s)
    (htick : s.tick = .done (reply, t)) :
    ∃ texts, t.machine.queue = s.machine.queue ++ texts ∧
      Logged turn (submitted ++ texts.map .queued) started t := by
  have hqueue := queue_of_tick h.usesOnly
  rw [htick] at hqueue
  obtain ⟨texts, htexts⟩ := hqueue
  exact ⟨texts, htexts.symm, h.stop htick htexts.symm⟩

/-- What words submit while a line is in progress. -/
theorem leads (h : Logged turn submitted started s) (hrun : Leads tick s t) :
    ∃ texts, t.machine.queue = s.machine.queue ++ texts ∧
      Logged turn (submitted ++ texts.map .queued) started t := by
  induction hrun generalizing submitted with
  | refl s =>
    refine ⟨[], (List.append_nil _).symm, ?_⟩
    rw [List.map_nil, List.append_nil]
    exact h
  | more htick _ ih =>
    obtain ⟨texts, htexts, hnext⟩ := h.exists_step htick
    obtain ⟨later, hlater, hlogged⟩ := ih hnext
    refine ⟨texts ++ later, ?_, ?_⟩
    · rw [hlater, htexts, List.append_assoc]
    · rw [List.map_append, ← List.append_assoc]
      exact hlogged

/-- What words submit up to the end of the line in progress. -/
theorem ends {reply : Reply} (h : Logged turn submitted started s)
    (hrun : Ends tick s (reply, t)) :
    ∃ texts, t.machine.queue = s.machine.queue ++ texts ∧
      Logged turn (submitted ++ texts.map .queued) started t := by
  obtain ⟨u, hleads, hlast⟩ := hrun.exists_last
  obtain ⟨texts, htexts, hlogged⟩ := h.leads hleads
  obtain ⟨later, hlater, hover⟩ := hlogged.exists_stop hlast
  refine ⟨texts ++ later, ?_, ?_⟩
  · rw [hlater, htexts, List.append_assoc]
  · rw [List.map_append, ← List.append_assoc]
    exact hover

/-- Where queued lines are worked off, those that start come from the front of the queue and those
that words submit go to the end of it. -/
theorem leads_all (h : Logged turn submitted started s) (hrun : Leads tickAll s t) :
    ∃ texts begun, s.machine.queue ++ texts = begun ++ t.machine.queue ∧
      Logged turn (submitted ++ texts.map .queued) (started ++ begun.map .queued) t := by
  -- By induction over the steps.  A step adds to the lines that were submitted, and where a line
  -- ends, the first one of the queue is started.
  induction hrun generalizing submitted started with
  | refl s =>
    refine ⟨[], [], List.append_nil _, ?_⟩
    rw [List.map_nil, List.append_nil, List.append_nil]
    exact h
  | more htick _ ih =>
    cases allStepped_of_tickAll htick with
    | more hstep =>
      obtain ⟨texts, htexts, hnext⟩ := h.exists_step hstep
      obtain ⟨later, begun, hlater, hlogged⟩ := ih hnext
      refine ⟨texts ++ later, begun, ?_, ?_⟩
      · rw [← List.append_assoc, ← htexts, hlater]
      · rw [List.map_append, ← List.append_assoc]
        exact hlogged
    | @next _ _ text queue hstep hwait hqueue =>
      obtain ⟨texts, htexts, hover⟩ := h.exists_stop hstep
      obtain ⟨later, begun, hlater, hlogged⟩ :=
        ih (hover.next ((stopped_of_tick hstep).line hwait) hwait hqueue)
      change queue ++ later = _ at hlater
      refine ⟨texts ++ later, text :: begun, ?_, ?_⟩
      · rw [← List.append_assoc, ← htexts, hqueue, List.cons_append, hlater, List.cons_append]
      · rw [List.map_append, ← List.append_assoc, List.map_cons, List.append_cons]
        exact hlogged

/-- The same up to the end of all of them. -/
theorem ends_all {reply : Reply} (h : Logged turn submitted started s)
    (hrun : Ends tickAll s (reply, t)) :
    ∃ texts begun, s.machine.queue ++ texts = begun ++ t.machine.queue ∧
      Logged turn (submitted ++ texts.map .queued) (started ++ begun.map .queued) t := by
  obtain ⟨u, hleads, hlast⟩ := hrun.exists_last
  obtain ⟨texts, begun, htexts, hlogged⟩ := h.leads_all hleads
  cases allStepped_of_tickAll hlast with
  | done hstep _ =>
    obtain ⟨later, hlater, hover⟩ := hlogged.exists_stop hstep
    refine ⟨texts ++ later, begun, ?_, ?_⟩
    · rw [← List.append_assoc, htexts, hlater, List.append_assoc]
    · rw [List.map_append, ← List.append_assoc]
      exact hover

end Logged

end Session

/-! ## Calls -/

/-- The words that the host adds leave queued lines where they are, its own operations leave the wait
and the queue alone, and where it submits a line while none is in progress, `turn` holds. -/
def HostCall.TakesTurns (turn : Session → Prop) (s : Session) : HostCall → Prop
  | readLine _ => s.line = none → turn s
  | readLines texts => Session.MaySubmit (fun s _ => s.line = none → turn s) s texts
  | loadSource source =>
    Session.MaySubmit (fun s _ => s.line = none → turn s) s (Text.lines source)
  | exec action => action.Keeps Machine.wait ∧ action.Keeps Machine.queue
  | addPrimitive _ p => p.QueuesBehind
  | _ => True

namespace Session

variable {turn : Session → Prop} {s t : Session}

/-- There is a log of what has become of the session. -/
def HasLog (turn : Session → Prop) (s : Session) : Prop :=
  ∃ submitted started, Logged turn submitted started s

theorem HasLog.adjust (hs : HasLog turn s) {m : Machine} (hqueue : m.queue = s.machine.queue) :
    HasLog turn { s with machine := m } := by
  obtain ⟨submitted, started, h⟩ := hs
  exact ⟨submitted, started, h.adjust hqueue⟩

theorem HasLog.addConstant (hs : HasLog turn s) (name : String) (n : Cell) :
    HasLog turn (s.addConstant name n) := by
  obtain ⟨submitted, started, h⟩ := hs
  exact ⟨submitted, started, h.addConstant name n⟩

/-- A log can be continued through each call of a host that takes turns. -/
theorem survives_hasLog (turn : Session → Prop) :
    Survives (fun s c => c.TakesTurns turn s) (HasLog turn) where
  step hs htick := by
    obtain ⟨submitted, started, h⟩ := hs
    obtain ⟨texts, -, ht⟩ := h.exists_step htick
    exact ⟨_, _, ht⟩
  stop hs htick := by
    obtain ⟨submitted, started, h⟩ := hs
    obtain ⟨texts, -, ht⟩ := h.exists_stop htick
    exact ⟨_, _, ht⟩
  start hs hline hc := by
    obtain ⟨submitted, started, h⟩ := hs
    exact ⟨_, _, h.start hline (hc hline) _⟩
  queued text hs hline := by
    obtain ⟨submitted, started, h⟩ := hs
    exact ⟨_, _, h.queue hline text⟩
  -- A line from the queue was logged when it was submitted, so only its start is new.
  next hs hline hwait hqueue := by
    obtain ⟨submitted, started, h⟩ := hs
    exact ⟨_, _, h.next hline hwait hqueue⟩
  received e hs := hs.adjust (e.received_queue _)
  recordKey code hs := hs.adjust (Machine.recordKey_queue _ code)
  suspend w hs := hs.adjust rfl
  exec {s action} hs hc := by
    rw [exec_snd]
    exact hs.adjust (hc.2 s.machine)
  addVariable {s} name hs := by
    have hadjusted := hs.adjust
      (m := { s.machine with memory := (s.machine.memory.addVariable name).2 }) rfl
    exact hadjusted.addConstant name _
  addConstant name n hs := hs.addConstant name n
  addPrimitive hs hc := by
    obtain ⟨submitted, started, h⟩ := hs
    exact ⟨submitted, started, h.addPrimitive _ hc⟩
  wait hc := hc.1
  readLines hc := hc
  loadSource hc := hc

/-- No word of a new session submits lines, so a host may submit one line after the other to it. -/
theorem maySubmit_of_reachable (hturn : ∀ s, s.machine.queue = [] → turn s)
    (hs : Reachable (fun _ => False) s) (texts : List String) :
    MaySubmit (fun s _ => s.line = none → turn s) s texts := by
  induction texts generalizing s with
  | nil => trivial
  | cons text texts ih =>
    refine ⟨fun hline => hturn s ?_, fun fuel reply t hread => ih (hs.readLine hread)⟩
    exact (hs.resting fun _ h => h.elim).queue hline

theorem hasLog_of_isNew (hturn : ∀ s, s.machine.queue = [] → turn s) {random : Nat → UInt64}
    (hnew : IsNew random s) : HasLog turn s := by
  have hprimitives : HasLog turn (withPrimitives random) := ⟨[], [], .new random⟩
  cases hnew with
  | inl h =>
    rw [h]
    exact hprimitives
  | inr h =>
    rw [h]
    rcases boot_cases random with hboot | ⟨t, hload, hboot⟩
    · rw [hboot]
      exact hprimitives
    · rw [hboot]
      have ht := (survives_hasLog turn).loadLines hprimitives
        (maySubmit_of_reachable hturn (reachable_withPrimitives random) preludeLines) hload
      exact ht.adjust rfl

/-- **Lines take their turns.**  Let `turn` tell where a host may submit a line while none is in
progress; it may do so at least where no line is queued.  Whatever a host calls that started from a
new session and takes turns, and whatever lines its words submit, there is a log of the lines that
were submitted and of those that have started, each of them while no other line was in progress.

Queued lines start in the order in which they were submitted, and so do the others; and if no line
starts at once while others are queued, all lines start in the order in which they were submitted.

A line that is submitted while none is in progress starts at once, whatever is queued, and it leaves
the queue with what its words have put there, also when it is over.  A line that is submitted while
another one is in progress is queued.  After an event that is awaited, lines start from the front of
the queue until one of them has to wait or none is left.  The log can be told at each step on the
way. -/
theorem lines_take_turns :
    ∀ turn : Session → Prop, (∀ s, s.machine.queue = [] → turn s) →
      (∀ random new calls s, IsNew random new →
        HostRun (fun s c => c.TakesTurns turn s) new calls s →
          ∃ submitted started, Logged turn submitted started s) ∧
      ∀ submitted started s, Logged turn submitted started s →
        submitted.filterMap Submission.queued? =
          started.filterMap Submission.queued? ++ s.machine.queue ∧
        submitted.filterMap Submission.atOnce? = started.filterMap Submission.atOnce? ∧
        ((∀ s, turn s → s.machine.queue = []) →
          submitted = started ++ s.machine.queue.map .queued) ∧
        (∀ text reply t, s.line = none → turn s → s.Answers (.line text) reply t →
          ∃ texts, t.machine.queue = s.machine.queue ++ texts ∧
            Logged turn (submitted ++ [.atOnce text] ++ texts.map .queued)
              (started ++ [.atOnce text]) t) ∧
        (∀ text reply t, s.line ≠ none → s.Answers (.line text) reply t →
          reply = .ok .queued ∧ Logged turn (submitted ++ [.queued text]) started t) ∧
        (∀ (e : Event) reply t, e.answers s.machine.wait → s.Answers (.event e) reply t →
          (t.machine.wait = none → t.machine.queue = []) ∧
          ∃ texts begun, s.machine.queue ++ texts = begun ++ t.machine.queue ∧
            Logged turn (submitted ++ texts.map .queued) (started ++ begun.map .queued) t) ∧
        (∀ t, Leads tick s t → ∃ texts, t.machine.queue = s.machine.queue ++ texts ∧
          Logged turn (submitted ++ texts.map .queued) started t) ∧
        ∀ t, Leads tickAll s t →
          ∃ texts begun, s.machine.queue ++ texts = begun ++ t.machine.queue ∧
            Logged turn (submitted ++ texts.map .queued) (started ++ begun.map .queued) t := by
  intro turn hturn
  refine ⟨fun random new calls s hnew hrun => ?_, fun submitted started s h => ?_⟩
  · exact (survives_hasLog turn).hostRun hnew (hasLog_of_isNew hturn hnew) hrun
  · refine ⟨h.queued_in_order, h.atOnce_in_order, fun hempty => h.in_turn hempty,
      fun text reply t hline hs ht => ?_, fun text reply t hline ht => ?_,
      fun e reply t ha ht => ?_, fun t => h.leads, fun t => h.leads_all⟩
    · exact (h.start hline hs text).ends ((answers_line_iff hline).1 ht)
    · obtain ⟨hreply, rfl⟩ := (answers_line_of_busy_iff hline).1 ht
      exact ⟨hreply, h.queue hline text⟩
    · have hends := (answers_event_iff ha).1 ht
      obtain ⟨texts, begun, hqueue, hlogged⟩ := (h.adjust (e.received_queue _)).ends_all hends
      change (e.received s.machine).queue ++ texts = _ at hqueue
      rw [e.received_queue] at hqueue
      exact ⟨(truthful_of_ends_all hends).2, texts, begun, hqueue, hlogged⟩

/-- A word that submits a line and tells so. -/
def submitNumbers : Primitive :=
  .host do
    Exec.submit "111 222"
    Exec.pushData (-1)

theorem queuesBehind_submitNumbers : submitNumbers.QueuesBehind :=
  fun m => List.prefix_append m.queue ["111 222"]

/-- The word runs after an event, so the line that it submits starts when its own line is over. -/
theorem lines_take_turns_numbers :
    let turn (s : Session) : Prop := s.machine.queue = []
    ∃ s, HostRun (fun s c => c.TakesTurns turn s) (withPrimitives fun _ => 0)
        [.addPrimitive "sub" submitNumbers, .readLine "key sub", .deliver (.key 65)] s ∧
      s.machine.data = [222, 111, -1, 65] ∧
      ∃ submitted started, Logged turn submitted started s ∧ submitted = started := by
  intro turn
  let start := (withPrimitives fun _ => 0).addPrimitive "sub" submitNumbers
  obtain ⟨s, t, hread, hdeliver, hdata, hqueue⟩ : ∃ s t : Session,
      start.readLine 10 "key sub" = some (.ok (.suspended .key), s) ∧
      s.deliver 10 (.key 65) = some (.ok .ok, t) ∧
      t.machine.data = [222, 111, -1, 65] ∧ t.machine.queue = [] :=
    ⟨_, _, rfl, rfl, rfl, rfl⟩
  have hrun : HostRun (fun s c => c.TakesTurns turn s) (withPrimitives fun _ => 0)
      [.addPrimitive "sub" submitNumbers, .readLine "key sub", .deliver (.key 65)] t :=
    .cons queuesBehind_submitNumbers (.addPrimitive _ _) (.cons (fun _ => rfl) (.readLine hread)
      (.cons trivial (.deliver hdeliver) (.nil t)))
  obtain ⟨hlogs, hlogged⟩ := lines_take_turns turn fun _ h => h
  obtain ⟨submitted, started, h⟩ := hlogs _ _ _ _ (.inl rfl) hrun
  obtain ⟨-, -, hturns, -⟩ := hlogged _ _ _ h
  have horder := hturns fun _ h => h
  rw [hqueue] at horder
  exact ⟨t, hrun, hdata, submitted, started, h, horder.trans (List.append_nil _)⟩

/-- Without an event, the line that the word submits is still queued when its own line is over, and
the next line that the host submits starts before it. -/
theorem line_out_of_turn :
    ∃ s t, ((withPrimitives fun _ => 0).addPrimitive "sub" submitNumbers).Answers (.line "sub")
        (.ok .ok) s ∧
      s.machine.wait = none ∧ s.machine.queue = ["111 222"] ∧
      s.Answers (.line "3") (.ok .ok) t ∧ t.machine.data = [3, -1] ∧
      t.machine.queue = ["111 222"] ∧
      Logged (fun _ => True) [.atOnce "sub", .queued "111 222", .atOnce "3"]
        [.atOnce "sub", .atOnce "3"] t := by
  let start := (withPrimitives fun _ => 0).addPrimitive "sub" submitNumbers
  obtain ⟨s₁, s, t₁, t, hstep, hstop, hstep', hstop', hstate⟩ : ∃ s₁ s t₁ t : Session,
      (start.startLine "sub").tick = .more s₁ ∧ s₁.tick = .done (.ok .ok, s) ∧
      (s.startLine "3").tick = .more t₁ ∧ t₁.tick = .done (.ok .ok, t) ∧
      s₁.machine.queue = ["111 222"] ∧ s.machine.queue = ["111 222"] ∧
      t₁.machine.queue = ["111 222"] ∧ t.machine.queue = ["111 222"] ∧
      s.line = none ∧ s.machine.wait = none ∧ t.machine.data = [3, -1] :=
    ⟨_, _, _, _, rfl, rfl, rfl, rfl, rfl, rfl, rfl, rfl, rfl, rfl, rfl⟩
  obtain ⟨hs₁, hs, ht₁, ht, hline, hwait, hdata⟩ := hstate
  have hnew : Logged (fun _ => True) [] [] start :=
    (Logged.new _).addPrimitive _ queuesBehind_submitNumbers
  -- The queue changes in the first step only.
  have hquiet : s.machine.queue = s₁.machine.queue ++ [] := by rw [hs, hs₁, List.append_nil]
  have hquiet' : t₁.machine.queue = (s.startLine "3").machine.queue ++ [] :=
    ht₁.trans (hs.symm.trans (List.append_nil _).symm)
  have hquiet'' : t.machine.queue = t₁.machine.queue ++ [] := by rw [ht, ht₁, List.append_nil]
  have hfirst : Logged (fun _ => True) [.atOnce "sub", .queued "111 222"] [.atOnce "sub"] s :=
    ((hnew.start rfl trivial "sub").step hstep hs₁).stop hstop hquiet
  have hboth : Logged (fun _ => True) [.atOnce "sub", .queued "111 222", .atOnce "3"]
      [.atOnce "sub", .atOnce "3"] t :=
    ((hfirst.start hline trivial "3").step hstep' hquiet').stop hstop' hquiet''
  have hanswer := (answers_line_iff (s := start) rfl).2 (.more hstep (.done hstop))
  have hanswer' := (answers_line_iff hline).2 (.more hstep' (.done hstop'))
  exact ⟨s, t, hanswer, hwait, hs, hanswer', hdata, ht, hboth⟩

end Session

end Forth
