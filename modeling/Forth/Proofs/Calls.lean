import Forth.Session.Call

/-!
# Calls of a host

What a host does to a session is a sequence of calls: it submits lines and delivers events.  `Event`
tells the kinds of events, `deliver` treats them alike, and `Replies` tells what a sequence of calls
comes to, reply by reply.  A call that runs for ever gives nothing.  A batch of lines is submitted
line by line, so it keeps what each of its lines keeps.
-/

namespace Forth

instance : DecidableEq Reply
  | .ok status, .ok status' => decidable_of_iff (status = status') (by simp)
  | .error e, .error e' => decidable_of_iff (e = e') (by simp)
  | .ok _, .error _ => isFalse nofun
  | .error _, .ok _ => isFalse nofun

/-! ## Events -/

/-- What a host delivers: a key press, or the end of a delay. -/
inductive Event
  | key (code : Cell)
  | timer
  deriving DecidableEq, Repr

namespace Event

/-- The event is one that is awaited. -/
def answers : Event → Option Wait → Bool
  | key _, some .key | timer, some (.timer _) => true
  | _, _ => false

theorem ne_none_of_answers {e : Event} {w : Option Wait} (h : e.answers w) : w ≠ none := by
  rintro rfl
  cases e <;> exact nomatch h

/-- Why an event is refused that does not answer what is awaited. -/
def refusal : Option Wait → Error
  | none => .notSuspended
  | some _ => .unexpectedEvent

/-- The machine after the event. -/
def received (e : Event) (m : Machine) : Machine :=
  match e with
  | key code =>
    let m := { m with wait := none }.recordKey code
    { m with data := code :: m.data }
  | timer => { m with wait := none }

@[simp] theorem received_returns (e : Event) (m : Machine) :
    (e.received m).returns = m.returns := by
  cases e with
  | key code => exact Machine.recordKey_returns _ code
  | timer => rfl

@[simp] theorem received_wait (e : Event) (m : Machine) : (e.received m).wait = none := by
  cases e with
  | key code => exact Machine.recordKey_wait _ code
  | timer => rfl

@[simp] theorem received_queue (e : Event) (m : Machine) : (e.received m).queue = m.queue := by
  cases e with
  | key code => exact Machine.recordKey_queue _ code
  | timer => rfl

end Event

namespace Session

/-- Delivers an event. -/
def deliver (s : Session) (fuel : Nat) : Event → Option (Reply × Session)
  | .key code => s.deliverKey fuel code
  | .timer => s.deliverTimer fuel

theorem deliver_of_answers {s : Session} {e : Event} (h : e.answers s.machine.wait) (fuel : Nat) :
    s.deliver fuel e = (s.onMachine e.received).resume fuel := by
  cases e with
  | key code =>
    have hwait : s.machine.wait = some .key := by
      unfold Event.answers at h
      split at h <;> simp_all
    simp only [deliver, deliverKey, hwait]
    rfl
  | timer =>
    obtain ⟨ms, hwait⟩ : ∃ ms, s.machine.wait = some (.timer ms) := by
      unfold Event.answers at h
      split at h <;> simp_all
    simp only [deliver, deliverTimer, hwait]
    rfl

/-- An event that is not awaited changes nothing. -/
theorem deliver_of_not_answers {s : Session} {e : Event} (h : ¬ e.answers s.machine.wait)
    (fuel : Nat) : s.deliver fuel e = some (.error (Event.refusal s.machine.wait), s) := by
  cases e with
  | key code =>
    simp only [deliver, deliverKey]
    rcases hwait : s.machine.wait with _ | _ | ms
    · rfl
    · exact absurd (by rw [hwait]; rfl) h
    · rfl
  | timer =>
    simp only [deliver, deliverTimer]
    rcases hwait : s.machine.wait with _ | _ | ms
    · rfl
    · rfl
    · exact absurd (by rw [hwait]; rfl) h

theorem deliver_mono {s : Session} {e : Event} {r : Reply × Session} {fuel more : Nat}
    (h : s.deliver fuel e = some r) (hle : fuel ≤ more) : s.deliver more e = some r := by
  by_cases ha : e.answers s.machine.wait
  · rw [deliver_of_answers ha] at h ⊢
    exact runSteps_mono h hle
  · rw [deliver_of_not_answers ha] at h ⊢
    exact h

end Session

/-! ## Sequences of calls -/

/-- What a host does: it submits a line or delivers an event. -/
inductive Call
  | line (text : String)
  | event (e : Event)

namespace Call

/-- The line that is submitted, if it is one. -/
def line? : Call → Option String
  | line text => some text
  | event _ => none

/-- The event that is delivered, if it is one. -/
def event? : Call → Option Event
  | line _ => none
  | event e => some e

end Call

namespace Session

def call (s : Session) (fuel : Nat) : Call → Option (Reply × Session)
  | .line text => s.readLine fuel text
  | .event e => s.deliver fuel e

/-- The call comes to an end with this reply and leaves the session in the second state. -/
def Answers (s : Session) (c : Call) (reply : Reply) (t : Session) : Prop :=
  ∃ fuel, s.call fuel c = some (reply, t)

/-- The calls come to an end, one after the other, with these replies, and leave the session in the
second state. -/
inductive Replies : Session → List Call → List Reply → Session → Prop
  | nil (s : Session) : Replies s [] [] s
  | cons {s t u : Session} {c : Call} {calls : List Call} {reply : Reply} {replies : List Reply}
    (h : s.Answers c reply t) (rest : Replies t calls replies u) :
    Replies s (c :: calls) (reply :: replies) u

/-- The call comes to an end and leaves the session in the second state. -/
def Gives (s : Session) (c : Call) (t : Session) : Prop :=
  ∃ reply, s.Answers c reply t

/-- The calls come to an end, one after the other, and leave the session in the second state. -/
def Calls (s : Session) (calls : List Call) (t : Session) : Prop :=
  ∃ replies, Replies s calls replies t

variable {s t u : Session} {text : String} {c : Call} {calls : List Call}

theorem calls_nil_iff : Calls s [] u ↔ u = s := by
  constructor
  · rintro ⟨replies, h⟩
    cases h
    rfl
  · rintro rfl
    exact ⟨[], .nil u⟩

theorem calls_cons_iff : Calls s (c :: calls) u ↔ ∃ t, s.Gives c t ∧ Calls t calls u := by
  constructor
  · rintro ⟨replies, h⟩
    cases h with
    | cons h rest => exact ⟨_, ⟨_, h⟩, _, rest⟩
  · rintro ⟨t, ⟨reply, h⟩, replies, rest⟩
    exact ⟨_, .cons h rest⟩

theorem calls_append_iff {calls' : List Call} :
    Calls s (calls ++ calls') u ↔ ∃ t, Calls s calls t ∧ Calls t calls' u := by
  induction calls generalizing s with
  | nil =>
    simp only [List.nil_append, calls_nil_iff, exists_eq_left]
  | cons c calls ih =>
    simp only [List.cons_append, calls_cons_iff, ih]
    constructor
    · rintro ⟨v, hv, t, ht, hu⟩
      exact ⟨t, ⟨v, hv, ht⟩, hu⟩
    · rintro ⟨t, ⟨v, hv, ht⟩, hu⟩
      exact ⟨v, hv, t, ht, hu⟩

theorem readLine_mono {r : Reply × Session} {fuel more : Nat} (h : s.readLine fuel text = some r)
    (hle : fuel ≤ more) : s.readLine more text = some r := by
  unfold readLine at h ⊢
  cases hline : s.line with
  | some rest =>
    rw [hline] at h
    exact h
  | none =>
    simp only [hline] at h ⊢
    exact runSteps_mono h hle

theorem call_mono {r : Reply × Session} {fuel more : Nat} (h : s.call fuel c = some r)
    (hle : fuel ≤ more) : s.call more c = some r := by
  cases c with
  | line text => exact readLine_mono h hle
  | event e => exact deliver_mono h hle

theorem Gives.unique (ht : s.Gives c t) (hu : s.Gives c u) : t = u := by
  obtain ⟨reply, fuel, ht⟩ := ht
  obtain ⟨reply', fuel', hu⟩ := hu
  have ht := call_mono ht (Nat.le_max_left fuel fuel')
  have hu := call_mono hu (Nat.le_max_right fuel fuel')
  exact (Prod.mk.inj (Option.some.inj (ht.symm.trans hu))).2

theorem Calls.unique (ht : Calls s calls t) (hu : Calls s calls u) : t = u := by
  induction calls generalizing s with
  | nil =>
    obtain rfl := calls_nil_iff.1 ht
    exact (calls_nil_iff.1 hu).symm
  | cons c calls ih =>
    obtain ⟨v, hv, ht⟩ := calls_cons_iff.1 ht
    obtain ⟨v', hv', hu⟩ := calls_cons_iff.1 hu
    obtain rfl := hv.unique hv'
    exact ih ht hu

/-! ## Running a sequence of calls -/

/-- Makes the calls one after the other, each with this bound on the number of steps. -/
def callAll (s : Session) (fuel : Nat) : List Call → Option (List Reply × Session)
  | [] => some ([], s)
  | c :: calls => do
    let (reply, s) ← s.call fuel c
    let (replies, s) ← s.callAll fuel calls
    return (reply :: replies, s)

variable {replies : List Reply}

theorem callAll_cons_iff {fuel : Nat} {r : List Reply × Session} :
    s.callAll fuel (c :: calls) = some r ↔
      ∃ reply t replies u, s.call fuel c = some (reply, t) ∧
        t.callAll fuel calls = some (replies, u) ∧ r = (reply :: replies, u) := by
  simp only [callAll, Option.bind_eq_bind, Option.bind_eq_some_iff, Prod.exists, Option.pure_def,
    Option.some.injEq]
  constructor
  · rintro ⟨reply, t, ht, replies, u, hu, hr⟩
    exact ⟨reply, t, replies, u, ht, hu, hr.symm⟩
  · rintro ⟨reply, t, replies, u, ht, hu, hr⟩
    exact ⟨reply, t, ht, replies, u, hu, hr.symm⟩

theorem callAll_mono {r : List Reply × Session} {fuel more : Nat}
    (h : s.callAll fuel calls = some r) (hle : fuel ≤ more) : s.callAll more calls = some r := by
  induction calls generalizing s r with
  | nil => exact h
  | cons c calls ih =>
    obtain ⟨reply, t, replies, u, ht, hu, rfl⟩ := callAll_cons_iff.1 h
    exact callAll_cons_iff.2 ⟨reply, t, replies, u, call_mono ht hle, ih hu, rfl⟩

/-- What calls come to can be computed, with enough steps for each of them. -/
theorem replies_iff :
    Replies s calls replies t ↔ ∃ fuel, s.callAll fuel calls = some (replies, t) := by
  constructor
  · intro h
    induction h with
    | nil s => exact ⟨0, rfl⟩
    | cons hfirst _ ih =>
      obtain ⟨fuel, hfirst⟩ := hfirst
      obtain ⟨fuel', hrest⟩ := ih
      exact ⟨max fuel fuel', callAll_cons_iff.2 ⟨_, _, _, _,
        call_mono hfirst (Nat.le_max_left fuel fuel'),
        callAll_mono hrest (Nat.le_max_right fuel fuel'), rfl⟩⟩
  · rintro ⟨fuel, h⟩
    induction calls generalizing s replies with
    | nil =>
      obtain ⟨rfl, rfl⟩ := Prod.mk.inj (Option.some.inj h)
      exact .nil s
    | cons c calls ih =>
      obtain ⟨reply, u, rest, v, hu, hv, hr⟩ := callAll_cons_iff.1 h
      obtain ⟨rfl, rfl⟩ := Prod.mk.inj hr
      exact .cons ⟨fuel, hu⟩ (ih hv)

/-! ## Batches of lines -/

/-- Induction over the lines of a batch.  Before its first line the reply is that nothing went
wrong, and after that it is the reply of the last line so far. -/
theorem readLines_induction {I : List String → Reply → Session → Prop} {fuel : Nat}
    (hline : ∀ s text texts last reply t, I (text :: texts) last s →
      s.readLine fuel text = some (reply, t) → I texts reply t)
    {texts : List String} {reply : Reply} (hs : I texts (.ok .ok) s)
    (h : s.readLines fuel texts = some (reply, t)) : I [] reply t := by
  have hfold : ∀ (first : Reply × Session), I texts first.1 first.2 → ∀ last,
      texts.foldlM (fun (_, s) text => s.readLine fuel text) first = some last →
        I [] last.1 last.2 := by
    clear h hs
    induction texts with
    | nil =>
      intro first hfirst last h
      obtain rfl := Option.some.inj h
      exact hfirst
    | cons text texts ih =>
      intro first hfirst last h
      rw [List.foldlM_cons] at h
      obtain ⟨next, hnext, hrest⟩ := Option.bind_eq_some_iff.1 h
      exact ih next (hline _ _ _ _ _ _ hfirst hnext) last hrest
  exact hfold (.ok .ok, s) hs (reply, t) h

/-- What each line that is submitted keeps for the lines after it, a batch of them keeps. -/
theorem readLines_invariant_rest {I : List String → Session → Prop}
    (hline : ∀ s fuel text texts reply t, I (text :: texts) s →
      s.readLine fuel text = some (reply, t) → I texts t)
    {fuel : Nat} {texts : List String} {reply : Reply} (hs : I texts s)
    (h : s.readLines fuel texts = some (reply, t)) : I [] t :=
  readLines_induction (I := fun texts _ s => I texts s)
    (fun s text texts _ reply t => hline s fuel text texts reply t) hs h

/-- What is kept by every line that is submitted is kept by a batch of them. -/
theorem readLines_invariant {I : Session → Prop} {ok : String → Prop}
    (hline : ∀ s fuel text reply t, I s → ok text → s.readLine fuel text = some (reply, t) → I t)
    {fuel : Nat} {texts : List String} {reply : Reply} (htexts : ∀ text ∈ texts, ok text) (hs : I s)
    (h : s.readLines fuel texts = some (reply, t)) : I t := by
  have hlast := readLines_invariant_rest (I := fun texts s => I s ∧ ∀ text ∈ texts, ok text)
    (fun s fuel text texts reply t hs hread =>
      ⟨hline s fuel text reply t hs.1 (hs.2 text (.head _)) hread,
        fun text h => hs.2 text (.tail _ h)⟩) ⟨hs, htexts⟩ h
  exact hlast.1

/-- A batch that ends with an error does so because its last line failed. -/
theorem exists_readLine_of_readLines {fuel : Nat} {texts : List String} {e : Error}
    (h : s.readLines fuel texts = some (.error e, t)) :
    ∃ (u : Session) (text : String), u.readLine fuel text = some (.error e, t) := by
  have hlast := readLines_induction
    (I := fun _ last u => ∀ e, last = .error e →
      ∃ (v : Session) (text : String), v.readLine fuel text = some (.error e, u))
    (fun u text _ _ reply v _ hread e he => ⟨u, text, he ▸ hread⟩) (by simp) h
  exact hlast e rfl

theorem loadLines_cons {fuel : Nat} {text : String} {texts : List String}
    {r : Except Error Unit × Session} (h : s.loadLines fuel (text :: texts) = some r) :
    ∃ reply u, s.readLine fuel text = some (reply, u) ∧
      match reply with
      | .error e => r = (.error e, u)
      | .ok _ => u.loadLines fuel texts = some r := by
  rw [loadLines] at h
  obtain ⟨⟨reply, u⟩, hread, hrest⟩ := Option.bind_eq_some_iff.1 h
  refine ⟨reply, u, hread, ?_⟩
  cases reply with
  | error e => exact (Option.some.inj hrest).symm
  | ok status => exact hrest

/-- The same for lines of which the first one that fails is the last one. -/
theorem loadLines_invariant_rest {I : List String → Session → Prop}
    (hline : ∀ s fuel text texts reply t, I (text :: texts) s →
      s.readLine fuel text = some (reply, t) → I texts t)
    {fuel : Nat} {texts : List String} {reply : Except Error Unit} (hs : I texts s)
    (h : s.loadLines fuel texts = some (reply, t)) : ∃ rest, I rest t := by
  induction texts generalizing s with
  | nil =>
    obtain ⟨-, rfl⟩ := Prod.mk.inj (Option.some.inj h)
    exact ⟨[], hs⟩
  | cons text texts ih =>
    obtain ⟨first, u, hread, hrest⟩ := loadLines_cons h
    have hu := hline _ _ _ _ _ _ hs hread
    cases first with
    | error e =>
      obtain ⟨-, rfl⟩ := Prod.mk.inj hrest
      exact ⟨texts, hu⟩
    | ok status => exact ih hu hrest

theorem loadLines_invariant {I : Session → Prop} {ok : String → Prop}
    (hline : ∀ s fuel text reply t, I s → ok text → s.readLine fuel text = some (reply, t) → I t)
    {fuel : Nat} {texts : List String} {reply : Except Error Unit}
    (htexts : ∀ text ∈ texts, ok text) (hs : I s)
    (h : s.loadLines fuel texts = some (reply, t)) : I t := by
  obtain ⟨rest, ht, -⟩ := loadLines_invariant_rest (I := fun texts s => I s ∧ ∀ text ∈ texts, ok text)
    (fun s fuel text texts reply t hs hread =>
      ⟨hline s fuel text reply t hs.1 (hs.2 text (.head _)) hread,
        fun text h => hs.2 text (.tail _ h)⟩) ⟨hs, htexts⟩ h
  exact ht

theorem exists_readLine_of_loadLines {fuel : Nat} {texts : List String} {e : Error}
    (h : s.loadLines fuel texts = some (.error e, t)) :
    ∃ (u : Session) (text : String), u.readLine fuel text = some (.error e, t) := by
  induction texts generalizing s with
  | nil => exact nomatch congrArg Prod.fst (Option.some.inj h)
  | cons text texts ih =>
    obtain ⟨first, u, hread, hrest⟩ := loadLines_cons h
    cases first with
    | error e' =>
      obtain ⟨he, rfl⟩ := Prod.mk.inj hrest
      obtain rfl := Except.error.inj he
      exact ⟨s, text, hread⟩
    | ok status => exact ih hrest

end Session

end Forth
