import Forth.Proofs.SideBySide
import Forth.Proofs.Writing

/-!
# Direct and compiled code

Running tokens directly and calling a word with these tokens as its body come to the same, whatever
events arrive on the way (`direct_iff_compiled`).  This needs that `:` and `;` still stand for the
control words: once a program has given `;` another meaning, no definition can be ended any more
(`shadowed_semicolon`).
-/

namespace Forth

open Token (tokens Resolve)

/-- Whatever the first can come to, the second can come to something that goes with it, and
conversely. -/
def Correspond {α β : Type} (X : α → Prop) (Y : β → Prop) (Q : α → β → Prop) : Prop :=
  (∀ x, X x → ∃ y, Y y ∧ Q x y) ∧ ∀ y, Y y → ∃ x, X x ∧ Q x y

theorem Correspond.mono {α β : Type} {X : α → Prop} {Y : β → Prop} {Q Q' : α → β → Prop}
    (h : Correspond X Y Q) (hQ : ∀ x y, Q x y → Q' x y) : Correspond X Y Q' := by
  constructor
  · intro x hx
    obtain ⟨y, hy, hxy⟩ := h.1 x hx
    exact ⟨y, hy, hQ x y hxy⟩
  · intro y hy
    obtain ⟨x, hx, hxy⟩ := h.2 y hy
    exact ⟨x, hx, hQ x y hxy⟩

namespace Session

variable {o o' : Output} {entry : String × Meaning} {s t u : Session}

/-- Sessions that are in step come to the same. -/
theorem InStep.ends (h : InStep o o' entry t u) :
    Correspond (Ends tick t) (Ends tick u) (Together o o' entry) :=
  ⟨fun _ hr => Ends.simulated (fun _ _ h => h.matched) h hr,
    fun _ hr => Ends.simulated (R := fun u t => InStep o o' entry t u)
      (fun _ _ h => h.matched.symm) h hr⟩

/-- If a first call on each side comes to corresponding sessions, and the calls after it do from
there, then all of the calls do. -/
theorem replies_cons_correspond {J J' : Session → Session → Prop} {c c' : Call}
    {calls calls' : List Call} (h : ∀ reply, Correspond (t.Answers c reply) (u.Answers c' reply) J)
    (hrest : ∀ t' u', J t' u' → ∀ replies,
      Correspond (Replies t' calls replies) (Replies u' calls' replies) J')
    (replies : List Reply) :
    Correspond (Replies t (c :: calls) replies) (Replies u (c' :: calls') replies) J' := by
  constructor
  · rintro t' hreplies
    cases hreplies with
    | cons hfirst hcalls =>
      obtain ⟨v, hv, hjoined⟩ := (h _).1 _ hfirst
      obtain ⟨u', hu', hlast⟩ := (hrest _ _ hjoined _).1 _ hcalls
      exact ⟨u', .cons hv hu', hlast⟩
  · rintro u' hreplies
    cases hreplies with
    | cons hfirst hcalls =>
      obtain ⟨v, hv, hjoined⟩ := (h _).2 _ hfirst
      obtain ⟨t', ht', hlast⟩ := (hrest _ _ hjoined _).2 _ hcalls
      exact ⟨t', .cons hv ht', hlast⟩

/-! ## Events -/

/-- Both sessions are between calls, and in step if an event is awaited. -/
structure Joined (o o' : Output) (entry : String × Meaning) (t u : Session) : Prop where
  direct : Resting Discreet t
  called : Resting Discreet u
  beside : Beside o o' entry t u
  inStep : t.machine.wait ≠ none → InStep o o' entry t u

/-- Two lines that are in step come to the same reply. -/
theorem InStep.joined (h : InStep o o' entry t u) (ht : Running Discreet t)
    (hu : Running Discreet u) (reply : Reply) :
    Correspond (fun t' => Ends tick t (reply, t')) (fun u' => Ends tick u (reply, u'))
      (Joined o o' entry) := by
  have hjoined : ∀ r r', Ends tick t r → Ends tick u r' → Together o o' entry r r' →
      Joined o o' entry r.2 r'.2 := by
    rintro ⟨reply, t'⟩ ⟨reply', u'⟩ hends hends' ⟨-, hbeside, hstep⟩
    obtain ⟨hqueue, hqueue'⟩ := hbeside.machine.queues
    obtain ⟨hsettled, -⟩ := ht.ends Discreet.keeps_queue hends
    obtain ⟨hsettled', -⟩ := hu.ends Discreet.keeps_queue hends'
    exact ⟨⟨hsettled, fun _ => hqueue⟩, ⟨hsettled', fun _ => hqueue'⟩, hbeside, hstep⟩
  constructor
  · intro t' hends
    obtain ⟨⟨reply', u'⟩, hends', htogether⟩ := h.ends.1 _ hends
    obtain rfl : reply' = reply := htogether.1
    exact ⟨u', hends', hjoined _ _ hends hends' htogether⟩
  · intro u' hends'
    obtain ⟨⟨reply', t'⟩, hends, htogether⟩ := h.ends.2 _ hends'
    obtain rfl : reply = reply' := htogether.1
    exact ⟨t', hends, hjoined _ _ hends hends' htogether⟩

theorem InStep.onEvent (h : InStep o o' entry t u) (e : Event) :
    InStep o o' entry (t.onMachine e.received) (u.onMachine e.received) := by
  obtain ⟨hbeside, frames, rest, hleft⟩ := h
  refine ⟨⟨hbeside.machine.received e, hbeside.dictionary, hbeside.returnDepth, hbeside.lastError,
    hbeside.direct, hbeside.called⟩, frames, rest, ?_⟩
  exact ⟨hleft.direct, hleft.called, hleft.uses, hleft.line, hleft.ended⟩

section

variable {e : Event} {reply : Reply}

/-- With an empty queue, an event lets the line in progress go on and nothing else. -/
theorem answers_event_iff_of_queue (hs : Resting Discreet s) (hqueue : s.machine.queue = [])
    (ha : e.answers s.machine.wait) :
    s.Answers (.event e) reply t ↔ Ends tick (s.onMachine e.received) (reply, t) := by
  have hrunning : Running Discreet (s.onMachine e.received) := hs.onEvent e
  have hempty : (s.onMachine e.received).machine.queue = [] := (e.received_queue _).trans hqueue
  rw [answers_event_iff ha, hrunning.ends_tickAll_iff Discreet.keeps_queue hempty]

/-- Both sessions answer an event alike. -/
theorem Joined.answers (h : Joined o o' entry t u) (e : Event) (reply : Reply) :
    Correspond (t.Answers (.event e) reply) (u.Answers (.event e) reply) (Joined o o' entry) := by
  have hwait : u.machine.wait = t.machine.wait := h.beside.wait
  obtain ⟨hqueue, hqueue'⟩ := h.beside.machine.queues
  by_cases ha : e.answers t.machine.wait
  · have ha' : e.answers u.machine.wait := by rwa [hwait]
    have hstep := h.inStep (Event.ne_none_of_answers ha)
    have hnext := (hstep.onEvent e).joined (h.direct.onEvent e) (h.called.onEvent e) reply
    simpa only [Correspond, answers_event_iff_of_queue h.direct hqueue ha,
      answers_event_iff_of_queue h.called hqueue' ha'] using hnext
  · have ha' : ¬ e.answers u.machine.wait := by rwa [hwait]
    constructor
    · intro t' ht'
      obtain ⟨rfl, rfl⟩ := (answers_refused_event_iff ha).1 ht'
      exact ⟨u, (answers_refused_event_iff ha').2 ⟨by rw [hwait], rfl⟩, h⟩
    · intro u' hu'
      obtain ⟨rfl, rfl⟩ := (answers_refused_event_iff ha').1 hu'
      exact ⟨t, (answers_refused_event_iff ha).2 ⟨by rw [hwait], rfl⟩, h⟩

end

theorem Joined.replies (h : Joined o o' entry t u) (events : List Event) (replies : List Reply) :
    Correspond (Replies t (events.map .event) replies) (Replies u (events.map .event) replies)
      (Joined o o' entry) := by
  induction events generalizing t u replies with
  | nil =>
    constructor
    · intro t' ht'
      cases ht'
      exact ⟨u, .nil u, h⟩
    · intro u' hu'
      cases hu'
      exact ⟨t, .nil t, h⟩
  | cons e events ih =>
    exact replies_cons_correspond (h.answers e) (fun _ _ hnext => ih hnext) replies

/-! ## The direct line and the call -/

/-- A line that calls the new word begins with its body, in step with the direct line. -/
theorem tick_called {name direct called : String} {actions : List Action} {body : Body}
    (hidle : s.Idle) (hrest : Resting Discreet s) (hcalled : tokens called.toList = [.word name])
    (hactions : Resolve s.dictionary (tokens direct.toList) actions)
    (hcompile : compile actions = .ok body) :
    ∃ u, ((s.withWord name body).startLine called).tick = .more u ∧
      InStep s.machine.output (s.machine.output.print " ok")
        (Text.lowerCase name, .word (.compiled body)) (s.startLine direct) u := by
  have hline : (s.startLine direct).line = some direct.toList := rfl
  have hword : (Token.word name).resolve (s.withWord name body).dictionary =
      .ok (.perform (.invoke name (.compiled body))) := by
    have hfind : (s.withWord name body).dictionary.find? name = some (.word (.compiled body)) := by
      change (s.dictionary.add name (.word (.compiled body))).find? name = _
      rw [Dictionary.find?_add, if_pos rfl]
    simp only [Token.resolve, hfind]
  obtain ⟨l, hl, htick⟩ := tick_of_operation (s := (s.withWord name body).startLine called)
    hidle.wait hidle.frames hidle.gathering rfl hcalled hword
  -- Nothing of the body has run yet, so the direct line is at its first token and the call at the
  -- first tree.
  refine ⟨_, htick, ⟨⟨hrest.queue hidle.line, "", ?_, ?_⟩, rfl, rfl, rfl, hidle.gathering,
    hidle.gathering⟩, [], body, ⟨[], .inl rfl, hidle.frames⟩, rfl, ?_,
    ⟨_, actions, hline, hactions, hcompile⟩, ⟨l, rfl, hl⟩⟩
  · exact (Output.print_empty _).symm
  · rw [Output.print_empty]
    rfl
  · have huses := compile_usesOnly (hactions.usesOnly hrest.uses.dictionary) hcompile
    exact .cons huses .nil

/-- Interpreting tokens directly and calling a word with these tokens as its body agree.  The line
that defines the word only adds it to the dictionary.  After that, for the same events, the call has
the same replies as the direct line, and the sessions differ only by the new entry and by what had
been printed before. -/
theorem direct_iff_compiled {name direct definition called : String} {ts : List Token}
    {actions : List Action} {body : Body} (hs : Reachable Exec.Discreet s) (hidle : s.Idle)
    (hcolon : s.dictionary.find? ":" = some (.control .colon))
    (hsemicolon : s.dictionary.find? ";" = some (.control .semicolon))
    (hdirect : tokens direct.toList = ts)
    (hdefinition : tokens definition.toList = .word ":" :: .word name :: ts ++ [.word ";"])
    (hcalled : tokens called.toList = [.word name]) (hactions : Resolve s.dictionary ts actions)
    (hcompile : compile actions = .ok body) :
    s.Answers (.line definition) (.ok .ok) (s.withWord name body) ∧
      ∀ (events : List Event) (replies : List Reply),
        Correspond (Replies s (.line direct :: events.map .event) replies)
          (Replies (s.withWord name body) (.line called :: events.map .event) replies)
          (Beside s.machine.output (s.machine.output.print " ok")
            (Text.lowerCase name, .word (.compiled body))) := by
  have hdefines : s.Answers (.line definition) (.ok .ok) (s.withWord name body) :=
    (answers_line_iff hidle.line).2
      (ends_definition hidle hcolon hsemicolon hdefinition hactions hcompile)
  have hrest : Resting Discreet s := hs.resting fun _ h => h.queue
  have hrest' : Resting Discreet (s.withWord name body) := by
    obtain ⟨fuel, hread⟩ := hdefines
    exact hrest.readLine Discreet.keeps_queue hread
  refine ⟨hdefines, fun events replies => ?_⟩
  subst hdirect
  -- The call takes one step more, which schedules the body.  From there on the two lines run in
  -- step.
  obtain ⟨u, htick, hstep⟩ := tick_called hidle hrest hcalled hactions hcompile
  have hrunning : Running Discreet u := by
    have hstarted := (hrest'.startLine called).tick Discreet.keeps_queue
    rw [htick] at hstarted
    exact hstarted.1
  have hfirst : ∀ reply, Correspond (s.Answers (.line direct) reply)
      ((s.withWord name body).Answers (.line called) reply)
      (Joined s.machine.output (s.machine.output.print " ok")
        (Text.lowerCase name, .word (.compiled body))) := by
    intro reply
    have hjoined := hstep.joined (hrest.startLine direct) hrunning reply
    have hline : (s.withWord name body).line = none := hidle.line
    simpa only [Correspond, answers_line_iff hidle.line, answers_line_iff hline,
      ends_of_more_iff htick] using hjoined
  have hall := replies_cons_correspond hfirst (fun _ _ h => h.replies events) replies
  exact hall.mono fun _ _ h => h.beside

/-- The tokens of `2 0 do key . loop`. -/
def echoTokens : List Token :=
  [.word "2", .word "0", .word "do", .word "key", .word ".", .word "loop"]

/-- Their actions in a session whose words are the primitive ones. -/
def echoActions : List Action :=
  [.perform (.number 2), .perform (.number 0), .control .do,
    .perform (.invoke "key" (.primitive .key)), .perform (.invoke "." (.primitive .print)),
    .control .loop]

def echoBody : Body :=
  [.leaf (.number 2), .leaf (.number 0),
    .counted [.leaf (.invoke "key" (.primitive .key)), .leaf (.invoke "." (.primitive .print))]
      false]

theorem direct_iff_compiled_echo :
    let s := withPrimitives fun _ => 0
    s.Answers (.line ": echo 2 0 do key . loop ;") (.ok .ok) (s.withWord "echo" echoBody) ∧
      ∀ (events : List Event) (replies : List Reply),
        Correspond (Replies s (.line "2 0 do key . loop" :: events.map .event) replies)
          (Replies (s.withWord "echo" echoBody) (.line "echo" :: events.map .event) replies)
          (Beside .empty (Output.empty.print " ok") ("echo", .word (.compiled echoBody))) := by
  have hidle : (withPrimitives fun _ => 0).Idle := ⟨rfl, rfl, rfl, rfl⟩
  have hdirect : tokens "2 0 do key . loop".toList = echoTokens :=
    Token.tokens_eq (by decide +kernel)
  have hdefinition : tokens ": echo 2 0 do key . loop ;".toList =
      .word ":" :: .word "echo" :: echoTokens ++ [.word ";"] := Token.tokens_eq (by decide +kernel)
  have hcalled : tokens "echo".toList = [.word "echo"] := Token.tokens_eq (by decide +kernel)
  have hactions : Resolve (withPrimitives fun _ => 0).dictionary echoTokens echoActions := rfl
  have hcompile : compile echoActions = .ok echoBody := rfl
  exact direct_iff_compiled (reachable_withPrimitives _) hidle rfl rfl hdirect hdefinition hcalled
    hactions hcompile

/-! ## Without a semicolon -/

/-- Once `;` stands for a word, it ends no definition any more, and code that runs directly cannot be
made the body of a word. -/
theorem shadowed_semicolon :
    ∃ s t u, (boot fun _ => 0).Answers (.line ": ; 5 ;") (.ok .ok) s ∧ s.Idle ∧
      Resolve s.dictionary (tokens "1".toList) [.perform (.number 1)] ∧
      compile [.perform (.number 1)] = .ok [.leaf (.number 1)] ∧
      tokens ": n 1 ;".toList = .word ":" :: .word "n" :: tokens "1".toList ++ [.word ";"] ∧
      tokens "n".toList = [.word "n"] ∧
      Replies s [.line "1"] [.ok .ok] t ∧
      Replies s [.line ": n 1 ;", .line "n"] [.ok .defining, .error (.missingWord "n")] u := by
  -- All that has to be computed is computed at once, as it takes a run of the prelude.
  have hrun : ((boot fun _ => 0).readLine 10 ": ; 5 ;").any (fun r =>
      r.1 = .ok .ok ∧ r.2.line = none ∧ r.2.machine.wait = none ∧ r.2.isDefining = false ∧
      (r.2.dictionary.find? "1").isNone ∧
      (r.2.callAll 10 [.line "1"]).map Prod.fst = some [.ok .ok] ∧
      (r.2.callAll 10 [.line ": n 1 ;", .line "n"]).map Prod.fst =
        some [.ok .defining, .error (.missingWord "n")]) = true := by
    decide +kernel
  obtain ⟨⟨reply, s⟩, hread, hs⟩ := (Option.any_eq_true _ _).1 hrun
  obtain ⟨rfl, hline, hwait, hdefining, hone, hdirect, hcalled⟩ := of_decide_eq_true hs
  obtain ⟨⟨replies, t⟩, ht, rfl⟩ := Option.map_eq_some_iff.1 hdirect
  obtain ⟨⟨replies', u⟩, hu, rfl⟩ := Option.map_eq_some_iff.1 hcalled
  have hrest : Resting Discreet s :=
    ((reachable_boot _).readLine hread).resting fun _ h => h.queue
  have hgathering : s.gathering = .nothing := by
    cases hg : s.gathering with
    | nothing => rfl
    | definition name actions => simp [isDefining, hg] at hdefining
    | block actions depth => exact absurd hg (hrest.block actions depth)
  have htokens : tokens "1".toList = [.word "1"] := Token.tokens_eq (by decide +kernel)
  have hresolve : (Token.word "1").resolve s.dictionary = .ok (.perform (.number 1)) := by
    simp only [Token.resolve, Option.isNone_iff_eq_none.1 hone]
    rfl
  refine ⟨s, t, u, ⟨10, hread⟩, ⟨hline, hwait, hrest.frames hline, hgathering⟩, ?_, rfl, ?_,
    Token.tokens_eq (by decide +kernel), replies_iff.2 ⟨10, ht⟩, replies_iff.2 ⟨10, hu⟩⟩
  · rw [htokens, Resolve, List.map_singleton, hresolve, List.map_singleton]
  · rw [htokens]
    exact Token.tokens_eq (by decide +kernel)

end Session

end Forth
