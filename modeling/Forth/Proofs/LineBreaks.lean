import Forth.Proofs.ClosedText
import Forth.Proofs.DirectAndCompiled
import Forth.Proofs.Replies

/-!
# Line breaks

A line break between two tokens makes no difference.  A line that comes to its end leaves the session
where a blank in the place of the break would leave it, except that ` ok` is printed if nothing is
being defined, and that the next line starts with a depth of the return stack of its own, which only
a line that fails looks at.

The longer line is compared with the two lines in two stages.  As long as it is in the text of the
first one, it takes the same steps with more text behind it (`Served.append`).  From there it takes
the steps of the second line on a machine that has printed something else before
(`Served.alongside`).  Both stages replace the text in front of the interpreter by one with the same
tokens (`TokenByToken`).
-/

namespace Forth.Session

open Token (isClosed)
open Text (isBlank)

variable {s t u : Session}

/-! ## The same step in front of another text -/

/-- Related texts go on with the same token, and are related again behind it. -/
def TokenByToken (L : Option (List Char) → Option (List Char) → Prop) : Prop :=
  ∀ {line line' : Option (List Char)} {token : Token} {rest : List Char}, L line line' →
    line.bind Token.next? = some (token, rest) →
      ∃ rest', line'.bind Token.next? = some (token, rest') ∧ L (some rest) (some rest')

/-- The session with another text in front of it, which started at another depth. -/
def inFrontOf (s : Session) (line : Option (List Char)) (depth : Nat) : Session :=
  { s with line, returnDepth := depth }

section

variable {L : Option (List Char) → Option (List Char) → Prop} {line : Option (List Char)}

theorem Dispatched.inFrontOf {a : Action} (depth : Nat) (hL : TokenByToken L)
    (hline : L s.line line) (h : Dispatched s a (.ok () t)) :
    ∃ line', L t.line line' ∧
      Dispatched (s.inFrontOf line depth) a (.ok () (t.inFrontOf line' depth)) := by
  cases h with
  | gathered hg ha => exact ⟨line, hline, .gathered hg ha⟩
  | defined hg hbody => exact ⟨line, hline, .defined hg hbody⟩
  | nested hg hdepth => exact ⟨line, hline, .nested hg hdepth⟩
  | closed hg hdepth hbody => exact ⟨line, hline, .closed hg hdepth hbody⟩
  | performed hg h => exact ⟨line, hline, .performed hg h⟩
  | opened hg hc => exact ⟨line, hline, .opened hg hc⟩
  | colon hg hname =>
    obtain ⟨rest', hname', hrest⟩ := hL hline hname
    exact ⟨some rest', hrest, .colon hg hname'⟩
  | «variable» hg hname =>
    obtain ⟨rest', hname', hrest⟩ := hL hline hname
    exact ⟨some rest', hrest, .variable hg hname'⟩
  | constant hg hname hdata =>
    obtain ⟨rest', hname', hrest⟩ := hL hline hname
    exact ⟨some rest', hrest, .constant hg hname' hdata⟩

/-- A step that succeeds depends on the text in front of it by its next tokens only. -/
theorem tick_inFrontOf (depth : Nat) (hL : TokenByToken L) (hline : L s.line line)
    (h : s.tick = .more t) :
    ∃ line', L t.line line' ∧
      (s.inFrontOf line depth).tick = .more (t.inFrontOf line' depth) := by
  obtain ⟨hwait, hadvanced⟩ := advanced_of_tick h
  cases hadvanced with
  | frame hframes hrun =>
    have hstep : Advanced (s.inFrontOf line depth) _ := .frame hframes hrun
    exact ⟨line, hline, hstep.tick_eq hwait⟩
  | dispatched hframes hnext ht h =>
    obtain ⟨rest', hnext', hrest⟩ := hL hline hnext
    obtain ⟨line', hline', hdispatched⟩ := h.inFrontOf depth hL hrest
    have hstep : Advanced (s.inFrontOf line depth) _ := .dispatched hframes hnext' ht hdispatched
    exact ⟨line', hline', hstep.tick_eq hwait⟩

end

/-! ## The end of a line -/

/-- Nothing is left of the line in progress. -/
structure Through (s : Session) : Prop where
  wait : s.machine.wait = none
  frames : s.frames = []
  line : s.line.bind Token.next? = none

theorem through_of_tick {status : Status} (hwait : s.machine.wait = none)
    (h : s.tick = .done (.ok status, t)) : s.Through ∧ s.finishLine = (.ok status, t) := by
  have hadvanced := advance_spec s
  unfold tick at h
  simp only [hwait] at h
  cases hrun : advance.run s with
  | error e u =>
    rw [hrun] at h
    exact nomatch congrArg Prod.fst (Progress.done.inj h)
  | ok goesOn u =>
    rw [hrun] at h hadvanced
    cases hadvanced with
    | frame _ _ | dispatched _ _ _ _ => exact nomatch h
    | finished hframes hline => exact ⟨⟨hwait, hframes, hline⟩, Progress.done.inj h⟩

/-- What a line prints at its end. -/
def closing : Status → String
  | .ok => " ok"
  | _ => ""

/-- The line ended without an error, in these two ways. -/
theorem finishLine_ok {status : Status} (h : s.finishLine = (.ok status, t)) :
    (status = .ok ∨ status = .defining) ∧ (∀ actions depth, s.gathering ≠ .block actions depth) ∧
      t = ({ s with line := none } : Session).print (closing status) := by
  unfold finishLine at h
  cases hg : s.gathering with
  | block actions depth =>
    rw [hg] at h
    cases congrArg Prod.fst h
  | definition name actions =>
    rw [hg] at h
    obtain ⟨hstatus, rfl⟩ := Prod.mk.inj h
    obtain rfl := Except.ok.inj hstatus
    refine ⟨.inr rfl, fun _ _ => Gathering.noConfusion, ?_⟩
    simp only [print, onMachine, closing, Output.print_empty]
  | nothing =>
    rw [hg] at h
    obtain ⟨hstatus, rfl⟩ := Prod.mk.inj h
    obtain rfl := Except.ok.inj hstatus
    exact ⟨.inl rfl, fun _ _ => Gathering.noConfusion, rfl⟩

theorem finishLine_inFrontOf {status : Status} (h : s.finishLine = (.ok status, t))
    (line : Option (List Char)) (depth : Nat) :
    (s.inFrontOf line depth).finishLine = (.ok status, { t with returnDepth := depth }) := by
  unfold finishLine inFrontOf at *
  cases hg : s.gathering with
  | block actions depth =>
    rw [hg] at h
    cases congrArg Prod.fst h
  | definition name actions | nothing =>
    rw [hg] at h
    obtain ⟨hstatus, rfl⟩ := Prod.mk.inj h
    exact Prod.ext hstatus rfl

/-! ## A line and its events -/

/-- The line in progress runs to its end without an error.  It is given these events on its way, and
the host is told these replies before the last one.  An event that is not the one that is awaited is
refused. -/
inductive Served : Session → List Event → List Reply → Status → Session → Prop
  | ends {s t : Session} {status : Status} (hwait : s.machine.wait = none)
    (h : s.tick = .done (.ok status, t)) : Served s [] [] status t
  | step {s t u : Session} {events : List Event} {replies : List Reply} {status : Status}
    (h : s.tick = .more t) (rest : Served t events replies status u) :
    Served s events replies status u
  | event {s u : Session} {w : Wait} {refused events : List Event} {e : Event}
    {replies : List Reply} {status : Status} (hwait : s.machine.wait = some w)
    (hrefused : ∀ r ∈ refused, ¬ r.answers (some w)) (he : e.answers (some w))
    (rest : Served (s.onMachine e.received) events replies status u) :
    Served s (refused ++ e :: events)
      (.ok (.suspended w) :: refused.map (fun _ => .error .unexpectedEvent) ++ replies) status u

variable {events events' : List Event} {replies replies' : List Reply} {status status' : Status}

theorem Served.of_leads (h : Leads tick s t) (ht : Served t events replies status u) :
    Served s events replies status u := by
  induction h with
  | refl s => exact ht
  | more hstep _ ih => exact .step hstep (ih ht)

/-! ### Alike for the whole line -/

/-- Sessions that are alike stay alike when both get the same event. -/
theorem alike_onEvent {o o' : Output} {s' : Session} (h : Alike (Printed o o') Discreet s s')
    (e : Event) :
    Alike (Printed o o') Discreet (s.onMachine e.received) (s'.onMachine e.received) where
  machine := h.machine.received e
  rest := by
    rw [h.rest]
    rfl
  uses := ⟨h.uses.dictionary, h.uses.frames, h.uses.gathering⟩

theorem alike_tick {o o' : Output} {s' : Session} (h : Alike (Printed o o') Discreet s s') :
    StepsAlike (Printed o o') Discreet s.tick s'.tick :=
  h.tick Printed.congruence Printed.survivesWait fun _ hp => hp.respects

/-! ### The first of two lines -/

/-- The text goes on with a blank and more text, behind a place between tokens. -/
def GoesOn (c : Char) (more : List Char) (line line' : Option (List Char)) : Prop :=
  ∃ l, line = some l ∧ isClosed l = true ∧ line' = some (l ++ c :: more)

theorem GoesOn.tokenByToken {c : Char} {more : List Char} (hc : isBlank c = true) :
    TokenByToken (GoesOn c more) := by
  rintro _ _ token rest ⟨l, rfl, hclosed, rfl⟩ hnext
  obtain ⟨happend, hrest⟩ := Token.next?_append_of_some more hc hclosed hnext
  exact ⟨_, happend, rest, rfl, hrest, rfl⟩

/-- A line with more text behind it comes to where the line would end, in the same way.  From there
it goes on with that text. -/
theorem Served.append {o : Output} {c : Char} {more : List Char} {line : Option (List Char)}
    (hc : isBlank c = true) (h : Served s events replies status t)
    (hs : Alike (Printed o o) Discreet s s) (hline : GoesOn c more s.line line) :
    ∃ v line', v.Through ∧ v.finishLine = (.ok status, t) ∧ Alike (Printed o o) Discreet v v ∧
      GoesOn c more v.line line' ∧
      ∀ {events' replies' status' u},
        Served (v.inFrontOf line' s.returnDepth) events' replies' status' u →
        Served (s.inFrontOf line s.returnDepth) (events ++ events') (replies ++ replies') status'
          u := by
  -- By induction over the steps of the line: each of them is taken with the longer text as well,
  -- until the line is through.
  induction h generalizing line with
  | @ends s t status hwait h =>
    obtain ⟨hthrough, hfinish⟩ := through_of_tick hwait h
    exact ⟨s, line, hthrough, hfinish, hs, hline, fun hrest => hrest⟩
  | @step s t u events replies status h _ ih =>
    obtain ⟨line₁, hline₁, htick⟩ :=
      tick_inFrontOf s.returnDepth (GoesOn.tokenByToken hc) hline h
    have ht : Alike (Printed o o) Discreet t t := by
      have hsteps := alike_tick hs
      rw [h] at hsteps
      cases hsteps with
      | more ht => exact ht
    have hdepth : t.returnDepth = s.returnDepth := (advanced_of_tick h).2.kept.1
    obtain ⟨v, line', hthrough, hfinish, hv, hline', hserved⟩ := ih ht hline₁
    rw [hdepth] at hserved
    exact ⟨v, line', hthrough, hfinish, hv, hline', fun hrest => .step htick (hserved hrest)⟩
  | @event s u w refused events e replies status hwait hrefused he _ ih =>
    obtain ⟨v, line', hthrough, hfinish, hv, hline', hserved⟩ := ih (alike_onEvent hs e) hline
    refine ⟨v, line', hthrough, hfinish, hv, hline', fun hrest => ?_⟩
    have hevent := Served.event (s := s.inFrontOf line s.returnDepth) hwait hrefused he
      (hserved hrest)
    simpa only [List.append_assoc, List.cons_append] using hevent

/-! ### The second of two lines -/

/-- Both texts go on with the same token, and are the same behind it. -/
def SameNext (line line' : Option (List Char)) : Prop :=
  line'.bind Token.next? = line.bind Token.next?

theorem SameNext.tokenByToken : TokenByToken SameNext := by
  intro line line' token rest hline hnext
  exact ⟨rest, hline.trans hnext, rfl⟩

/-- A line that succeeds does not look at what has been printed before, nor at the depth of the
return stack at its start. -/
theorem Served.alongside {o o' : Output} {s' : Session} {line : Option (List Char)} (depth : Nat)
    (h : Served s events replies status t) (hs : Alike (Printed o o') Discreet s s')
    (hline : SameNext s.line line) :
    ∃ m, Printed o o' t.machine m ∧
      Served (s'.inFrontOf line depth) events replies status
        { t with machine := m, returnDepth := depth } := by
  -- By induction over the steps of the line.  What was printed before and the depth of the return
  -- stack are carried along, and neither is looked at.
  induction h generalizing s' line with
  | @ends s t status hwait h =>
    have hsteps := alike_tick hs
    rw [h] at hsteps
    generalize hr : s'.tick = r at hsteps
    cases hsteps with
    | @done _ t' _ ht =>
      have hwait' : s'.machine.wait = none := (Printed.congruence.wait hs.machine).trans hwait
      obtain ⟨⟨-, hframes, hnext⟩, hfinish⟩ := through_of_tick hwait' hr
      have hline' : s'.line = s.line := by rw [hs.rest]
      have htick := tick_eq_finishLine (s := s'.inFrontOf line depth) hwait' hframes
        (hline.trans (hline' ▸ hnext))
      rw [finishLine_inFrontOf hfinish] at htick
      refine ⟨t'.machine, ht.machine, ?_⟩
      rw [ht.rest] at htick
      exact .ends hwait' htick
  | @step s t u events replies status h _ ih =>
    have hsteps := alike_tick hs
    rw [h] at hsteps
    generalize hr : s'.tick = r at hsteps
    cases hsteps with
    | @more _ t' ht =>
      have hline' : s'.line = s.line := by rw [hs.rest]
      have hsame : SameNext s'.line line := hline'.symm ▸ hline
      obtain ⟨line₁, hline₁, htick⟩ := tick_inFrontOf depth SameNext.tokenByToken hsame hr
      have hline₂ : t'.line = t.line := by rw [ht.rest]
      obtain ⟨m, hm, hserved⟩ := ih ht (hline₂ ▸ hline₁)
      exact ⟨m, hm, .step htick hserved⟩
  | @event s u w refused events e replies status hwait hrefused he _ ih =>
    have hwait' : s'.machine.wait = some w := (Printed.congruence.wait hs.machine).trans hwait
    obtain ⟨m, hm, hserved⟩ := ih (alike_onEvent hs e) hline
    exact ⟨m, hm, .event (s := s'.inFrontOf line depth) hwait' hrefused he hserved⟩

/-! ## Calls that serve a line -/

/-- A line runs and no other one is queued. -/
structure RunsAlone (s : Session) : Prop where
  running : Running Discreet s
  queue : s.machine.queue = []

theorem RunsAlone.of_leads (hs : RunsAlone s) (h : Leads tick s t) : RunsAlone t := by
  induction h with
  | refl s => exact hs
  | more hstep _ ih =>
    have htick := hs.running.tick Discreet.keeps_queue
    rw [hstep] at htick
    exact ih ⟨htick.1, htick.2.trans hs.queue⟩

theorem RunsAlone.settled {w : Wait} (hs : RunsAlone s) (hwait : s.machine.wait = some w) :
    Settled Discreet s := by
  have htick := hs.running.tick Discreet.keeps_queue
  rw [tick_of_wait hwait] at htick
  exact htick.1

theorem RunsAlone.onEvent {w : Wait} (hs : RunsAlone s) (hwait : s.machine.wait = some w)
    (e : Event) : RunsAlone (s.onMachine e.received) where
  running := (hs.settled hwait).onEvent e
  queue := (e.received_queue _).trans hs.queue

/-- An event that is awaited lets the line go on. -/
theorem RunsAlone.answers_iff {w : Wait} {e : Event} {reply : Reply} (hs : RunsAlone s)
    (hwait : s.machine.wait = some w) (he : e.answers (some w)) :
    s.Answers (.event e) reply t ↔ Ends tick (s.onMachine e.received) (reply, t) := by
  have hevent := hs.onEvent hwait e
  rw [answers_event_iff (hwait ▸ he),
    hevent.running.ends_tickAll_iff Discreet.keeps_queue hevent.queue]

theorem answers_refused {w : Wait} {e : Event} (hwait : s.machine.wait = some w)
    (he : ¬ e.answers (some w)) : s.Answers (.event e) (.error .unexpectedEvent) s := by
  rw [answers_refused_event_iff (hwait ▸ he), hwait]
  exact ⟨rfl, rfl⟩

/-- The line in progress runs, and then the events are delivered, with these replies. -/
def Plays (s : Session) (events : List Event) (replies : List Reply) (t : Session) : Prop :=
  ∃ reply u rest, Ends tick s (reply, u) ∧ Replies u (events.map .event) rest t ∧
    replies = reply :: rest

theorem replies_line_iff {text : String} (hline : s.line = none) :
    Replies s (.line text :: events.map .event) replies t ↔
      Plays (s.startLine text) events replies t := by
  constructor
  · intro h
    cases h with
    | cons h rest => exact ⟨_, _, _, (answers_line_iff hline).1 h, rest, rfl⟩
  · rintro ⟨reply, u, rest, hends, hrest, rfl⟩
    exact .cons ((answers_line_iff hline).2 hends) hrest

theorem replies_refused {w : Wait} {refused : List Event} {calls : List Call}
    (hwait : s.machine.wait = some w) (hrefused : ∀ r ∈ refused, ¬ r.answers (some w))
    (h : Replies s calls replies t) :
    Replies s (refused.map .event ++ calls)
      (refused.map (fun _ => .error .unexpectedEvent) ++ replies) t := by
  induction refused with
  | nil => exact h
  | cons r refused ih =>
    exact .cons (answers_refused hwait (hrefused r (.head _)))
      (ih fun r hr => hrefused r (.tail _ hr))

theorem Served.plays (h : Served s events replies status t) (hs : RunsAlone s) :
    Plays s events (replies ++ [.ok status]) t := by
  induction h with
  | @ends s t status _ h => exact ⟨_, _, _, .done h, .nil t, rfl⟩
  | step h _ ih =>
    obtain ⟨reply, u, rest, hends, hrest, heq⟩ := ih (hs.of_leads (.one h))
    exact ⟨reply, u, rest, .more h hends, hrest, heq⟩
  | @event s _ w refused events e replies status hwait hrefused he _ ih =>
    obtain ⟨reply, u, rest, hends, hrest, heq⟩ := ih (hs.onEvent hwait e)
    have hrefusals := replies_refused hwait hrefused
      (.cons ((hs.answers_iff hwait he).2 hends) hrest)
    refine ⟨_, s, _, .done (tick_of_wait hwait), ?_, rfl⟩
    rw [← heq, ← List.append_assoc] at hrefusals
    rwa [List.map_append]

/-! ### From the replies back to the line -/

/-- Without a wait, no event is taken. -/
theorem replies_of_no_wait (hwait : s.machine.wait = none)
    (h : Replies s (events.map .event) replies t) : ∀ reply ∈ replies, ∃ e, reply = .error e := by
  induction events generalizing replies with
  | nil =>
    cases h
    exact fun _ hr => nomatch hr
  | cons e events ih =>
    cases h with
    | cons h rest =>
      have he : ¬ e.answers s.machine.wait := fun he => Event.ne_none_of_answers he hwait
      obtain ⟨rfl, rfl⟩ := (answers_refused_event_iff he).1 h
      exact List.forall_mem_cons.2 ⟨⟨_, rfl⟩, ih rest⟩

theorem leads_of_ends {w : Wait} (h : Ends tick s (.ok (.suspended w), t)) : Leads tick s t := by
  generalize hr : ((.ok (.suspended w) : Reply), t) = r at h
  induction h with
  | @done s _ h =>
    subst hr
    cases stopped_of_tick h with
    | waiting _ => exact .refl t
  | more h _ ih => exact .more h (ih hr)

theorem served_of_ends (hwait : t.machine.wait = none) (h : Ends tick s (.ok status, t)) :
    Served s [] [] status t := by
  generalize hr : ((.ok status : Reply), t) = r at h
  induction h with
  | @done s _ h =>
    subst hr
    cases hs : s.machine.wait with
    | none => exact .ends hs h
    | some w =>
      rw [tick_of_wait hs] at h
      obtain ⟨-, rfl⟩ := Prod.mk.inj (Progress.done.inj h)
      exact nomatch hs.symm.trans hwait
  | more h _ ih => exact .step h (ih hr)

/-- One more event that is refused. -/
theorem Served.refuse {w : Wait} {e : Event} (hwait : s.machine.wait = some w)
    (he : ¬ e.answers (some w)) (h : Served s events (.ok (.suspended w) :: replies) status t) :
    Served s (e :: events) (.ok (.suspended w) :: .error .unexpectedEvent :: replies) status t := by
  generalize hreplies : Except.ok (.suspended w) :: replies = all at h
  cases h with
  | ends h _ => exact nomatch hwait.symm.trans h
  | step h _ => exact nomatch (tick_of_wait hwait).symm.trans h
  | @event _ _ v refused events e' replies' _ hv hrefused he' rest =>
    obtain rfl := Option.some.inj (hwait.symm.trans hv)
    obtain rfl : replies = _ := List.cons.inj hreplies |>.2
    have hall : ∀ r ∈ e :: refused, ¬ r.answers (some w) := List.forall_mem_cons.2 ⟨he, hrefused⟩
    exact .event hwait hall he' rest

theorem cases_of_append_last {reply : Reply} {rest : List Reply}
    (h : replies ++ [.ok status] = reply :: rest) :
    (replies = [] ∧ reply = .ok status ∧ rest = []) ∨
      ∃ replies', replies = reply :: replies' ∧ rest = replies' ++ [.ok status] := by
  cases replies with
  | nil =>
    obtain ⟨rfl, rfl⟩ := List.cons.inj h
    exact .inl ⟨rfl, rfl, rfl⟩
  | cons r replies =>
    obtain ⟨rfl, rfl⟩ := List.cons.inj h
    exact .inr ⟨replies, rfl, rfl⟩

/-- If the last of the events lets the line end without an error, then the line was served. -/
theorem served_of_plays (hs : RunsAlone s) (hended : status = .ok ∨ status = .defining)
    (h : Plays s events (replies ++ [.ok status]) t) : Served s events replies status t := by
  obtain ⟨reply, u, rest, hends, hrest, heq⟩ := h
  -- By induction over the events.  The run before each of them either is over, and then no event is
  -- taken any more, or waits for one.
  induction events generalizing s reply u rest replies with
  | nil =>
    cases hrest
    obtain ⟨rfl, rfl, -⟩ := (cases_of_append_last heq).resolve_right (by simp)
    refine served_of_ends (Option.eq_none_iff_forall_ne_some.2 fun w hwait => ?_) hends
    have hreply := ((truthful_of_ends hends).wait w).2 hwait
    rcases hended with rfl | rfl <;> cases hreply
  | cons e events ih =>
    have hsome : rest ≠ [] := by
      rintro rfl
      cases hrest
    obtain ⟨replies, rfl, rfl⟩ :=
      (cases_of_append_last heq).resolve_left fun h => hsome h.2.2
    cases hwait : u.machine.wait with
    | none =>
      obtain ⟨_, he⟩ := replies_of_no_wait hwait hrest (.ok status) (by simp)
      cases he
    | some w =>
      obtain rfl := ((truthful_of_ends hends).wait w).2 hwait
      have hleads := leads_of_ends hends
      have hu := hs.of_leads hleads
      refine .of_leads hleads ?_
      generalize hreplies : replies ++ [.ok status] = rest at hrest
      cases hrest with
      | cons h hrest =>
        by_cases he : e.answers (some w)
        · have hserved := ih (hu.onEvent hwait e) _ _ _ ((hu.answers_iff hwait he).1 h) hrest
            hreplies
          exact @Served.event _ _ _ [] _ _ _ _ hwait (by simp) he hserved
        · obtain ⟨rfl, rfl⟩ := (answers_refused_event_iff (hwait ▸ he)).1 h
          rw [hwait] at hreplies
          obtain ⟨replies, rfl, rfl⟩ :=
            (cases_of_append_last hreplies).resolve_left fun h => by cases h.2.1
          exact .refuse hwait he (ih hu _ _ _ (.done (tick_of_wait hwait)) hrest rfl)

/-! ## Two lines in one -/

/-- The line is submitted and its events are delivered, and it ends without an error.  The replies
are those before the last one, which tells the status. -/
def Entered (s : Session) (text : String) (events : List Event) (replies : List Reply)
    (status : Status) (t : Session) : Prop :=
  Replies s (.line text :: events.map .event) (replies ++ [.ok status]) t ∧
    (status = .ok ∨ status = .defining)

theorem Entered.served {text : String} (hs : Resting Discreet s) (hline : s.line = none)
    (h : Entered s text events replies status t) :
    Served (s.startLine text) events replies status t :=
  served_of_plays ⟨hs.startLine text, hs.queue hline⟩ h.2 ((replies_line_iff hline).1 h.1)

theorem Served.entered {text : String} (hs : Resting Discreet s) (hline : s.line = none)
    (h : Served (s.startLine text) events replies status t)
    (hended : status = .ok ∨ status = .defining) : Entered s text events replies status t :=
  ⟨(replies_line_iff hline).2 (h.plays ⟨hs.startLine text, hs.queue hline⟩), hended⟩

/-- A line that ends without an error brings the session back to rest. -/
theorem Served.resting (h : Served s events replies status t) (hs : RunsAlone s) :
    Resting Discreet t ∧ t.AtRest := by
  induction h with
  | @ends s t status hwait h =>
    have htick := hs.running.tick Discreet.keeps_queue
    rw [h] at htick
    obtain ⟨hsettled, -, hqueue⟩ := htick
    obtain ⟨-, -, rfl⟩ := finishLine_ok (through_of_tick hwait h).2
    exact ⟨⟨hsettled, fun _ => hqueue.trans hs.queue⟩, rfl, hwait⟩
  | step h _ ih => exact ih (hs.of_leads (.one h))
  | event hwait _ _ _ ih => exact ih (hs.onEvent hwait _)

theorem toList_joined (a b : String) (c : Char) :
    (a ++ String.singleton c ++ b).toList = a.toList ++ c :: b.toList := by
  simp

/-- Two lines come to the same as one line that has a blank for the break between them. -/
theorem Entered.join {a b : String} {c : Char} (hs : Resting Discreet s) (hline : s.line = none)
    (hc : isBlank c = true) (ha : isClosed a.toList = true)
    (hfirst : Entered s a events replies status t)
    (hsecond : Entered t b events' replies' status' u) :
    ∃ x y depth, t.machine.output = s.machine.output.print (x ++ closing status) ∧
      u.machine.output = t.machine.output.print y ∧
      Entered s (a ++ String.singleton c ++ b) (events ++ events') (replies ++ replies') status'
        { u with
          machine := { u.machine with output := s.machine.output.print (x ++ y) }
          returnDepth := depth } := by
  have hserved := hfirst.served hs hline
  have hstart : Alike (Printed s.machine.output s.machine.output) Discreet (s.startLine a)
      (s.startLine a) := by
    refine ⟨⟨hs.queue hline, "", (Output.print_empty _).symm, ?_⟩, rfl,
      (hs.startLine a).uses⟩
    rw [Output.print_empty]
    rfl
  have hgoes : GoesOn c b.toList (s.startLine a).line (some (a.toList ++ c :: b.toList)) :=
    ⟨a.toList, rfl, ha, rfl⟩
  obtain ⟨v, _, hthrough, hfinish, hv, ⟨l, hl, hclosed, rfl⟩, hjoined⟩ :=
    hserved.append hc hstart hgoes
  obtain ⟨hqueue, x, hx, -⟩ := hv.machine
  obtain ⟨ht, htline, -⟩ := hserved.resting ⟨hs.startLine a, hs.queue hline⟩
  obtain ⟨-, -, rfl⟩ := finishLine_ok hfinish
  -- The longer line has come to the place of the break, with another output than the second line.
  have hbreak : Alike (Printed (v.machine.output.print (closing status)) v.machine.output) Discreet
      ((({ v with line := none } : Session).print (closing status)).startLine b)
      { (({ v with line := none } : Session).print (closing status)).startLine b with
        machine := v.machine } := by
    refine ⟨⟨hqueue, "", (Output.print_empty _).symm, ?_⟩, rfl, (ht.startLine b).uses⟩
    rw [Output.print_empty]
    rfl
  have hnext : SameNext (some b.toList) (some (l ++ c :: b.toList)) := by
    refine Token.next?_append_of_none _ hc hclosed ?_
    rw [← hthrough.line, hl, Option.bind_some]
  obtain ⟨_, ⟨-, y, hy, rfl⟩, hsecond'⟩ :=
    (hsecond.served ht htline).alongside s.machine.returns.length hbreak hnext
  refine ⟨x, y, s.machine.returns.length, ?_, hy, ?_⟩
  · rw [← Output.print_print, ← hx]
    rfl
  · have hall := hjoined hsecond'
    rw [hx, Output.print_print] at hall
    refine Served.entered hs hline ?_ hsecond.2
    rw [startLine, toList_joined]
    exact hall

/-- The lines with a blank for every break between them. -/
def joined (c : Char) (texts : List String) (last : String) : String :=
  texts.foldr (fun text rest => text ++ String.singleton c ++ rest) last

theorem entered_joined {texts : List String} {last : String} {c : Char} (hs : Resting Discreet s)
    (hline : s.line = none) (hc : isBlank c = true)
    (htexts : ∀ text ∈ texts, isClosed text.toList = true)
    (h : Replies s ((texts ++ [last]).map .line)
      (texts.map (fun _ => .ok .defining) ++ [.ok status]) u)
    (hended : status = .ok ∨ status = .defining) :
    ∃ depth, Entered s (joined c texts last) [] [] status { u with returnDepth := depth } := by
  induction texts generalizing s with
  | nil => exact ⟨u.returnDepth, h, hended⟩
  | cons text texts ih =>
    cases h with
    | @cons _ t _ _ _ _ _ h hrest =>
      have hfirst : Entered s text [] [] .defining t := ⟨.cons h (.nil t), .inr rfl⟩
      obtain ⟨ht, htline, -⟩ :=
        (hfirst.served hs hline).resting ⟨hs.startLine text, hs.queue hline⟩
      obtain ⟨depth, hsecond⟩ := ih ht htline (fun x hx => htexts x (.tail _ hx)) hrest
      obtain ⟨x, y, depth', hx, hy, hall⟩ :=
        hfirst.join hs hline hc (htexts text (.head _)) hsecond
      have hy : u.machine.output = t.machine.output.print y := hy
      have hnothing : closing .defining = "" := rfl
      rw [hx, Output.print_print, hnothing, String.append_empty] at hy
      rw [← hy] at hall
      exact ⟨depth', hall⟩

/-- **Line breaks do not matter between tokens.**  If two lines are submitted one after the other,
each with the events that it waits for, and both end without an error, then they can be put together
with a blank for the break between them, provided that the first one ends between tokens.  The
longer line has the same replies to the same events, but for the reply at the break, and it leaves
the same session: the only trace of the break is what the first line prints at its end and the depth
of the return stack at the start of the last line.  In particular a definition may be spread over any
number of lines. -/
theorem line_breaks_make_no_difference {c : Char} (hs : Reachable Exec.Discreet s)
    (hrest : s.AtRest) (hc : isBlank c = true) :
    (∀ (a b : String) (events events' : List Event) (replies replies' : List Reply)
        (status status' : Status) (t u : Session), isClosed a.toList = true →
      Entered s a events replies status t → Entered t b events' replies' status' u →
      ∃ x y depth, t.machine.output = s.machine.output.print (x ++ closing status) ∧
        u.machine.output = t.machine.output.print y ∧
        Entered s (a ++ String.singleton c ++ b) (events ++ events') (replies ++ replies') status'
          { u with
            machine := { u.machine with output := s.machine.output.print (x ++ y) }
            returnDepth := depth }) ∧
    ∀ (texts : List String) (last : String) (status : Status) (u : Session),
      (∀ text ∈ texts, isClosed text.toList = true) →
      Replies s ((texts ++ [last]).map .line) (texts.map (fun _ => .ok .defining) ++ [.ok status]) u →
      status = .ok ∨ status = .defining →
      ∃ depth, Replies s [.line (joined c texts last)] [.ok status]
        { u with returnDepth := depth } := by
  have hresting : Resting Discreet s := hs.resting fun _ h => h.queue
  constructor
  · intro a b events events' replies replies' status status' t u ha hfirst hsecond
    exact hfirst.join hresting hrest.1 hc ha hsecond
  · intro texts last status u htexts h hended
    obtain ⟨depth, hall⟩ := entered_joined hresting hrest.1 hc htexts h hended
    exact ⟨depth, hall.1⟩

/-- A break between a line that waits for a delay and one that defines a word and waits for a key,
and a definition on three lines. -/
theorem line_breaks_make_no_difference_pause :
    let s := withPrimitives fun _ => 0
    (∃ (t u : Session) (x y : String) (depth : Nat),
      Entered s "10 sleep ( pause ) 1 ." [.timer] [.ok (.suspended (.timer 10))] .ok t ∧
      Entered t ": add + ; 2 key add ." [.key 3] [.ok (.suspended .key)] .ok u ∧
      t.machine.output = s.machine.output.print (x ++ " ok") ∧
      u.machine.output = t.machine.output.print y ∧
      Entered s "10 sleep ( pause ) 1 .\n: add + ; 2 key add ." [.timer, .key 3]
        [.ok (.suspended (.timer 10)), .ok (.suspended .key)] .ok
        { u with
          machine := { u.machine with output := s.machine.output.print (x ++ y) }
          returnDepth := depth }) ∧
    ∃ (u : Session) (depth : Nat),
      Replies s [.line ": add", .line "+ .", .line ";"]
        [.ok .defining, .ok .defining, .ok .ok] u ∧
      Replies s [.line ": add\n+ .\n;"] [.ok .ok] { u with returnDepth := depth } := by
  intro s
  have hs : Reachable Exec.Discreet s := reachable_withPrimitives _
  obtain ⟨hbreak, hspread⟩ :=
    line_breaks_make_no_difference (c := '\n') hs ⟨rfl, rfl⟩ (by decide)
  constructor
  · have hrun : (s.callAll 20 [.line "10 sleep ( pause ) 1 .", .event .timer]).any (fun r =>
        r.1 = [.ok (.suspended (.timer 10)), .ok .ok] ∧
        (r.2.callAll 20 [.line ": add + ; 2 key add .", .event (.key 3)]).map Prod.fst =
          some [.ok (.suspended .key), .ok .ok]) = true := by
      decide +kernel
    obtain ⟨⟨first, t⟩, ht, hrun⟩ := (Option.any_eq_true _ _).1 hrun
    obtain ⟨rfl, hu⟩ := of_decide_eq_true hrun
    obtain ⟨⟨_, u⟩, hu, rfl⟩ := Option.map_eq_some_iff.1 hu
    have hfirst : Entered s "10 sleep ( pause ) 1 ." [.timer] [.ok (.suspended (.timer 10))] .ok t :=
      ⟨replies_iff.2 ⟨20, ht⟩, .inl rfl⟩
    have hsecond : Entered t ": add + ; 2 key add ." [.key 3] [.ok (.suspended .key)] .ok u :=
      ⟨replies_iff.2 ⟨20, hu⟩, .inl rfl⟩
    obtain ⟨x, y, depth, hx, hy, hall⟩ :=
      hbreak _ _ _ _ _ _ _ _ _ _ (by decide) hfirst hsecond
    exact ⟨t, u, x, y, depth, hfirst, hsecond, hx, hy, hall⟩
  · have hrun : (s.callAll 20 [.line ": add", .line "+ .", .line ";"]).map Prod.fst =
        some [.ok .defining, .ok .defining, .ok .ok] := by
      decide +kernel
    obtain ⟨⟨_, u⟩, hu, rfl⟩ := Option.map_eq_some_iff.1 hrun
    have hreplies : Replies s [.line ": add", .line "+ .", .line ";"]
        [.ok .defining, .ok .defining, .ok .ok] u := replies_iff.2 ⟨20, hu⟩
    obtain ⟨depth, hall⟩ :=
      hspread [": add", "+ ."] ";" .ok u (by decide) hreplies (.inl rfl)
    exact ⟨u, depth, hreplies, hall⟩

end Forth.Session
