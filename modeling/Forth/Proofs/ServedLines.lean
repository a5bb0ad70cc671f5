import Forth.CommandLine
import Forth.Proofs.BalancedBodies
import Forth.Proofs.Gathering
import Forth.Proofs.HostInvariants
import Forth.Proofs.Serving
import Forth.Proofs.Yields

/-!
# Lines and scripts that are served

Serving goes by the replies alone, so it depends on them.  If a reply told of a wait that is none, the
event would be refused, and the refusal would pass for the error of the line.  That does not happen:
every reply on the way tells the truth (`Heard`), each event is awaited when it is delivered, and what
a line can fail with on its own account is never a refusal (`Error.OfLine`).  Only a word that the
host adds could pretend that an event was refused, for it may fail with anything.

The lines of a script are served one after the other, from one supply of keys.  Since a line that is
over leaves the session at rest, whether it failed or not, the next one is not queued but runs at once
(`runLines_iff`).
-/

namespace Forth

/-! ## What a line can fail with -/

/-- The errors of lines, apart from those of words that the host adds. -/
inductive Error.OfLine : Error → Prop
  | runTime {e : Error} (h : e.RunTime) : OfLine e
  | missingWord (name : String) : OfLine (.missingWord name)
  | unbalancedControl : OfLine .unbalancedControl
  | interpretOnly (name : String) : OfLine (.interpretOnly name)
  | expectingName : OfLine .expectingName

theorem Error.OfLine.of_compile {actions : List Action} {e : Error}
    (h : compile actions = .error e) : e.OfLine := by
  obtain rfl | ⟨c, rfl⟩ := error_of_compile h
  · exact .unbalancedControl
  · exact .interpretOnly c.name

theorem Error.OfLine.of_resolve {token : Token} {d : Dictionary} {e : Error}
    (h : token.resolve d = .error e) : e.OfLine := by
  obtain ⟨name, rfl⟩ := Token.eq_missingWord_of_resolve h
  exact .missingWord name

namespace Session

section

variable {P : Primitive → Prop} {E : Error → Prop} {s t u : Session} {e : Error}
  (hP : ∀ p, P p → Yields E Anything p.run) (hE : ∀ e : Error, e.OfLine → E e)

include hP hE

theorem Dispatched.error {a : Action} (ha : a.UsesOnly P) (h : Dispatched s a (.error e u)) :
    E e := by
  cases h with
  | undefined _ he | unbalanced _ _ he => exact hE e (.of_compile he)
  | failed _ hrun =>
    exact (Operation.UsesOnly.perform_yields hP (fun e he => hE e (.runTime he)) ha).error hrun
  | misplaced _ _ _ => exact hE _ .unbalancedControl
  | valueless _ _ _ => exact hE _ (.runTime .stackUnderflow)
  | nameless _ _ _ | misnamed _ _ _ => exact hE _ .expectingName

theorem Advanced.error (hs : s.UsesOnly P) (h : Advanced s (.error e u)) : E e := by
  cases h with
  | frameFailed hframes hrun =>
    have hframe := hs.frames _ (hframes ▸ List.mem_cons_self)
    exact (hframe.step_yields hP (fun e he => hE e (.runTime he)) _).error hrun
  | unknown _ _ htoken => exact hE e (.of_resolve htoken)
  | refused _ _ htoken h => exact h.error hP hE (Token.resolve_usesOnly hs.dictionary htoken)

/-- A line fails with an error of its own or with that of a word. -/
theorem Stopped.error (hs : s.UsesOnly P) (h : Stopped s (.error e) t) : E e := by
  cases h with
  | unclosed _ _ _ => exact hE _ .unbalancedControl
  | failed _ h => exact h.error hP hE hs

end

end Session

/-- The error does not say that an event was refused. -/
def Error.IsNoRefusal (e : Error) : Prop :=
  ∀ w, e ≠ Event.refusal w

theorem Error.OfLine.isNoRefusal {e : Error} (h : e.OfLine) : e.IsNoRefusal := by
  rintro (_ | w) rfl
  · cases h with
    | runTime h => cases h
  · cases h with
    | runTime h => cases h

/-- The word never pretends that an event was refused. -/
def Primitive.NeverRefuses (p : Primitive) : Prop :=
  Yields Error.IsNoRefusal Anything p.run

theorem Primitive.neverRefuses_of_language {p : Primitive} (hp : p.Allowed fun _ => False) :
    p.NeverRefuses := by
  have hlanguage : ∀ action, p ≠ .host action := by
    rintro action rfl
    exact hp
  exact (p.run_yields hlanguage).weaken fun e he => (Error.OfLine.runTime he).isNoRefusal

namespace Session

/-! ## Replies on the way -/

variable {word : Primitive → Prop} {new s t u : Session} {reply : Reply} {text : String} {e : Event}

/-- What a host is told by the reply to a call that ran lines, in a session that it came to. -/
structure Heard (word : Primitive → Prop) (new : Session) (reply : Reply) (t : Session) : Prop where
  between : Between word Freely new t
  truthful : Truthful reply t
  noRefusal (hword : ∀ p, word p → p.NeverRefuses) : ∀ e, reply = .error e → e.IsNoRefusal

/-- If the reply tells of no wait, the next line can be submitted. -/
theorem Heard.atRest (h : Heard word new reply t) (hreply : ∀ w, reply ≠ .ok (.suspended w)) :
    t.AtRest := by
  have hwait : t.machine.wait = none := by
    cases hw : t.machine.wait with
    | none => rfl
    | some w => exact absurd ((h.truthful.wait w).2 hw) (hreply w)
  exact ⟨h.between.2 hwait, hwait⟩

section

variable (hnew : new.UsesOnly Primitive.NeverRefuses)

include hnew

theorem Onward.isNoRefusal {e : Error} (hs : Onward word Freely new s)
    (hword : ∀ p, word p → p.NeverRefuses) (h : Stopped s (.error e) t) : e.IsNoRefusal :=
  h.error (fun _ hp => hp) (fun _ he => he.isNoRefusal) (hs.usesOnly hword hnew)

theorem Between.heard_line (hs : Between word Freely new s) (hline : s.line = none)
    (h : s.Answers (.line text) reply t) : Heard word new reply t := by
  have hends := (answers_line_iff hline).1 h
  obtain ⟨fuel, hread⟩ := h
  refine ⟨hs.readLine respectsReturns_freely hread, truthful_of_ends hends, fun hword e he => ?_⟩
  subst he
  obtain ⟨u, hleads, hlast⟩ := hends.exists_last
  have hu := (hs.1.startLine hline text).leads hleads
  exact hu.isNoRefusal hnew hword (stopped_of_tick hlast)

theorem Between.heard_event (hs : Between word Freely new s) (he : e.answers s.machine.wait)
    (h : s.Answers (.event e) reply t) : Heard word new reply t := by
  have hends := (answers_event_iff he).1 h
  obtain ⟨fuel, hdeliver⟩ := h
  refine ⟨hs.deliver respectsReturns_freely hdeliver, (truthful_of_ends_all hends).1,
    fun hword e he => ?_⟩
  subst he
  obtain ⟨u, hleads, hlast⟩ := hends.exists_last
  have hu := (hs.1.received respectsReturns_freely _).leads_all respectsReturns_freely hleads
  cases allStepped_of_tickAll hlast with
  | done hstep _ => exact hu.isNoRefusal hnew hword (stopped_of_tick hstep)

/-- As long as the events are those that the replies ask for, none is refused. -/
theorem Heard.replies {first : Reply} {events : List Event} {replies later : List Reply}
    (hs : Heard word new first s) (hasked : List.Forall₂ Event.IsAskedFor replies events)
    (hlist : first :: later = replies ++ [reply]) (h : Replies s (events.map .event) later t) :
    Heard word new reply t := by
  induction hasked generalizing first s later with
  | nil =>
    obtain ⟨rfl, rfl⟩ := List.cons.inj hlist
    cases h
    exact hs
  | cons hfirst _ ih =>
    obtain ⟨rfl, hlater⟩ := List.cons.inj hlist
    obtain ⟨w, hw, he⟩ := hfirst
    cases h with
    | cons h hrest =>
      -- The reply before the event tells the truth, so the event is awaited.
      rw [← (hs.truthful.wait w).1 hw] at he
      exact ih (hs.between.heard_event hnew he h) hlater hrest

theorem ByHand.heard {κ : Type} {next : κ → Option (Cell × κ)} {supply rest : κ}
    (hs : Between word Freely new s) (hline : s.line = none)
    (h : ByHand next s text supply reply t rest) : Heard word new reply t := by
  obtain ⟨events, replies, hcalls, hevents⟩ := h
  generalize hlist : replies ++ [reply] = all at hcalls
  cases hcalls with
  | cons h hrest => exact (hs.heard_line hnew hline h).replies hnew hevents.asked hlist.symm hrest

end

/-! ## Scripts -/

/-- The host submits the lines one after the other, each while the session is at rest, and delivers
their events by hand.  It goes on after a line that failed, and stops after one that is left without a
key. -/
inductive LinesByHand {κ : Type} (next : κ → Option (Cell × κ)) :
    List String → Session → κ → Session → κ → Prop
  | done (s : Session) (supply : κ) : LinesByHand next [] s supply s supply
  | starved {text : String} {texts : List String} {s t : Session} {supply rest : κ}
    (hrest : s.AtRest) (h : ByHand next s text supply (.ok (.suspended .key)) t rest) :
    LinesByHand next (text :: texts) s supply t rest
  | line {text : String} {texts : List String} {s t u : Session} {supply between rest : κ}
    {reply : Reply} (hrest : s.AtRest) (h : ByHand next s text supply reply t between)
    (hreply : ∀ w, reply ≠ .ok (.suspended w)) (hlater : LinesByHand next texts t between u rest) :
    LinesByHand next (text :: texts) s supply u rest

end Session

open Session

namespace CommandLine

variable {word : Primitive → Prop} {new s t : Session} {input rest : List String} {reply : Reply}
  {fuel : Nat} {text : String} {texts : List String}

/-- A line that is left without a key is the last one. -/
theorem runLines_of_suspended {w : Wait}
    (h : s.readAndServe fuel nextLineKey input text = some (.ok (.suspended w), t, rest)) :
    runLines fuel (text :: texts) (s, input) = some (t, rest) := by
  simp only [runLines, h]
  rfl

/-- After any other line the script goes on. -/
theorem runLines_of_ended
    (h : s.readAndServe fuel nextLineKey input text = some (reply, t, rest))
    (hreply : ∀ w, reply ≠ .ok (.suspended w)) :
    runLines fuel (text :: texts) (s, input) = runLines fuel texts (t, rest) := by
  simp only [runLines, h, Option.bind_eq_bind, Option.bind_some]

theorem exists_readAndServe_of_runLines {q : Terminal}
    (h : runLines fuel (text :: texts) (s, input) = some q) :
    ∃ reply t rest, s.readAndServe fuel nextLineKey input text = some (reply, t, rest) := by
  simp only [runLines] at h
  obtain ⟨⟨reply, t, rest⟩, hserve, -⟩ := Option.bind_eq_some_iff.1 h
  exact ⟨reply, t, rest, hserve⟩

theorem runLines_mono {q : Terminal} {more : Nat}
    (h : runLines fuel texts (s, input) = some q) (hle : fuel ≤ more) :
    runLines more texts (s, input) = some q := by
  induction texts generalizing s input with
  | nil => exact h
  | cons text texts ih =>
    obtain ⟨reply, t, rest, hserve⟩ := exists_readAndServe_of_runLines h
    have hmore := readAndServe_mono hserve hle
    obtain ⟨w, rfl⟩ | hended := suspended_or reply
    · rw [runLines_of_suspended hserve] at h
      rwa [runLines_of_suspended hmore]
    · rw [runLines_of_ended hserve hended] at h
      rw [runLines_of_ended hmore hended]
      exact ih h

theorem exists_runLines_of_byHand (h : LinesByHand nextLineKey texts s input t rest) :
    ∃ fuel, runLines fuel texts (s, input) = some (t, rest) := by
  induction h with
  | done s supply => exact ⟨0, rfl⟩
  | starved _ h =>
    obtain ⟨fuel, hserve⟩ := readAndServe_iff_byHand.2 h
    exact ⟨fuel, runLines_of_suspended hserve⟩
  | line _ h hreply _ ih =>
    obtain ⟨fuel, hserve⟩ := readAndServe_iff_byHand.2 h
    obtain ⟨fuel', hlater⟩ := ih
    refine ⟨max fuel fuel', ?_⟩
    rw [runLines_of_ended (readAndServe_mono hserve (Nat.le_max_left _ _)) hreply]
    exact runLines_mono hlater (Nat.le_max_right _ _)

/-- Serving the lines of a script comes to what a host comes to that goes by the replies. -/
theorem runLines_iff (hnew : new.UsesOnly Primitive.NeverRefuses)
    (hs : Between word Freely new s) (hrest : s.AtRest) :
    (∃ fuel, runLines fuel texts (s, input) = some (t, rest)) ↔
      LinesByHand nextLineKey texts s input t rest := by
  refine ⟨?_, exists_runLines_of_byHand⟩
  rintro ⟨fuel, h⟩
  induction texts generalizing s input with
  | nil =>
    obtain ⟨rfl, rfl⟩ := Prod.mk.inj (Option.some.inj h)
    exact .done s input
  | cons text texts ih =>
    obtain ⟨reply, u, between, hserve⟩ := exists_readAndServe_of_runLines h
    have hhand := readAndServe_iff_byHand.1 ⟨fuel, hserve⟩
    obtain ⟨w, rfl⟩ | hended := suspended_or reply
    · obtain ⟨rfl, -⟩ := hhand.starved
      rw [runLines_of_suspended hserve] at h
      obtain ⟨rfl, rfl⟩ := Prod.mk.inj (Option.some.inj h)
      exact .starved hrest hhand
    · have hheard := hhand.heard hnew hs hrest.1
      rw [runLines_of_ended hserve hended] at h
      exact .line hrest hhand hended (ih hheard.between (hheard.atRest hended) h)

theorem runScript_iff {source : String} (hnew : new.UsesOnly Primitive.NeverRefuses)
    (hs : Between word Freely new s) (hrest : s.AtRest) :
    (∃ fuel, runScript fuel source (s, input) = some (t, rest)) ↔
      ∃ u, LinesByHand nextLineKey (Text.lines source) s input u rest ∧ t = u.print "\n" := by
  constructor
  · rintro ⟨fuel, h⟩
    obtain ⟨⟨u, input'⟩, hlines, hprint⟩ := Option.bind_eq_some_iff.1 h
    obtain ⟨rfl, rfl⟩ := Prod.mk.inj (Option.some.inj hprint)
    exact ⟨u, (runLines_iff hnew hs hrest).1 ⟨fuel, hlines⟩, rfl⟩
  · rintro ⟨u, hlines, rfl⟩
    obtain ⟨fuel, h⟩ := (runLines_iff hnew hs hrest).2 hlines
    exact ⟨fuel, Option.bind_eq_some_iff.2 ⟨(u, rest), h, rfl⟩⟩

end CommandLine

namespace Session

open CommandLine

/-- **Serving a line is delivering its events by hand.**  A host that starts from a new session has
come to a session at rest.  A line that is served from any supply of keys comes to its end exactly if
it does when its events are delivered by hand, each one that the last reply asks for, with the keys of
the supply in order; the last reply, the session and what is left of the supply are the same.  That
reply never asks for a delay, and it asks for a key exactly if the session waits for one and the
supply has none.  It does not say that an event was refused either, unless a word of the host says so.
A script comes to what its lines come to that are submitted and have their events delivered by hand,
from the one supply of keys: lines that fail do not stop it, and the first line that is left without a
key does. -/
theorem serving_delivers_by_hand {word : Primitive → Prop} {random : Nat → UInt64}
    {new s : Session} {calls : List HostCall} (hnew : new.IsNew random)
    (hrun : HostRun (fun s c => c.Within word Freely s) new calls s) (hrest : s.AtRest) :
    (∀ {κ : Type} (next : κ → Option (Cell × κ)) text supply reply t rest,
      ((∃ fuel, s.readAndServe fuel next supply text = some (reply, t, rest)) ↔
        ByHand next s text supply reply t rest) ∧
      ∀ fuel, s.readAndServe fuel next supply text = some (reply, t, rest) →
        (∀ ms, reply ≠ .ok (.suspended (.timer ms))) ∧
        (reply = .ok (.suspended .key) ↔ t.machine.wait = some .key ∧ next rest = none) ∧
        ((∀ p, word p → p.NeverRefuses) →
          reply ≠ .error .notSuspended ∧ reply ≠ .error .unexpectedEvent)) ∧
    ∀ source input t rest, (∃ fuel, runScript fuel source (s, input) = some (t, rest)) ↔
      ∃ u, LinesByHand nextLineKey (Text.lines source) s input u rest ∧ t = u.print "\n" := by
  -- The words of the language never refuse an event on their own account.
  have huses : (withPrimitives random).UsesOnly Primitive.NeverRefuses :=
    IsNew.usesOnly (fun _ hp => Primitive.neverRefuses_of_language hp) (.inl rfl)
  have hs := hrun.between respectsReturns_freely hnew
  refine ⟨fun next text supply reply t rest => ⟨readAndServe_iff_byHand, fun fuel h => ?_⟩,
    fun source input t rest => runScript_iff huses hs hrest⟩
  have hhand := readAndServe_iff_byHand.1 ⟨fuel, h⟩
  have hheard := hhand.heard huses hs hrest.1
  refine ⟨?_, ⟨?_, fun h => (hheard.truthful.wait _).2 h.1⟩, fun hword => ?_⟩
  · rintro ms rfl
    exact nomatch hhand.starved.1
  · rintro rfl
    exact ⟨(hheard.truthful.wait _).1 rfl, hhand.starved.2⟩
  -- A refusal would be the reply of a word, and the words are asked not to refuse.
  · have hno := hheard.noRefusal hword
    exact ⟨fun he => hno _ he none rfl, fun he => hno _ he (some .key) rfl⟩

theorem stumble_neverRefuses : Primitive.NeverRefuses (.host stumble) := by
  refine .bind (V := Anything) (.modified _) fun _ _ => .throw ?_
  rintro (_ | w)
  · simp [Event.refusal]
  · simp [Event.refusal]

theorem serving_delivers_by_hand_stumble :
    let s := (withPrimitives fun _ => 0).addPrimitive "stumble" (.host stumble)
    s.AtRest ∧
      HostRun (fun s c => c.Within Primitive.NeverRefuses Freely s) (withPrimitives fun _ => 0)
        [.addPrimitive "stumble" (.host stumble)] s ∧
      (∃ t, ByHand nextKey s "key 0 sleep key . ." [65, 66, 67] (.ok .ok) t [67] ∧
        t.machine.output.console = "66 65  ok") ∧
      (∃ t, s.readAndServe 40 nextKey [65] "key key" = some (.ok (.suspended .key), t, []) ∧
        t.machine.wait = some .key ∧ nextKey [] = none) ∧
      ∃ t u, LinesByHand nextLineKey (Text.lines "stumble\nkey .\nkey\n1 .") s ["A"] u [] ∧
        t = u.print "\n" ∧ t.machine.output.console = " Division by zero65  ok\n" ∧
        t.machine.wait = some .key := by
  intro s
  have hrest : s.AtRest := ⟨rfl, rfl⟩
  have hrun : HostRun (fun s c => c.Within Primitive.NeverRefuses Freely s)
      (withPrimitives fun _ => 0) [.addPrimitive "stumble" (.host stumble)] s :=
    .cons stumble_neverRefuses (.addPrimitive _ _) (.nil s)
  obtain ⟨hserved, hscript⟩ := serving_delivers_by_hand (.inl rfl) hrun hrest
  have hline := (hserved nextKey "key 0 sleep key . ." [65, 66, 67] _ _ _).1.1 ⟨40, rfl⟩
  have hstarved := (hserved nextKey "key key" [65] (.ok (.suspended .key)) _ _).2 40 rfl
  obtain ⟨u, hlines, hprint⟩ :=
    (hscript "stumble\nkey .\nkey\n1 ." ["A"] _ _).1 ⟨40, rfl⟩
  exact ⟨hrest, hrun, ⟨_, hline, rfl⟩, ⟨_, rfl, hstarved.2.1.1 rfl⟩, _, u, hlines, hprint, rfl, rfl⟩

end Session

end Forth
