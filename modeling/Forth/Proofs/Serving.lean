import Forth.Proofs.Calls
import Forth.Session.Serve
import Mathlib.Data.List.Forall2

/-!
# Serving is delivering by hand

`Session.serve` goes by the replies: as long as one says that an event is awaited, it delivers a
delay that has passed, or the next key of a supply.  A host without it would submit the line, read the
reply, deliver the event that the reply asks for, and go on so.  `ByHand` says what that comes to, as
a sequence of calls with its replies, and `readAndServe_iff_byHand` says that serving comes to the
same, for any supply of keys.
-/

namespace Forth

/-- The code that the event delivers, if it is a key press. -/
def Event.key? : Event → Option Cell
  | key code => some code
  | timer => none

/-- The reply says that an event of this kind is awaited. -/
def Event.IsAskedFor (reply : Reply) (e : Event) : Prop :=
  ∃ w, reply = .ok (.suspended w) ∧ e.answers (some w)

namespace Session

variable {κ : Type} {next : κ → Option (Cell × κ)} {supply rest : κ} {s t : Session}
  {reply : Reply} {w : Wait} {e : Event}

/-! ## Supplies of keys -/

/-- The supply gives these codes in this order, and the rest is left of it. -/
inductive Takes (next : κ → Option (Cell × κ)) : κ → List Cell → κ → Prop
  | nil (supply : κ) : Takes next supply [] supply
  | cons {supply between rest : κ} {code : Cell} {codes : List Cell}
    (h : next supply = some (code, between)) (hrest : Takes next between codes rest) :
    Takes next supply (code :: codes) rest

/-- The event with which a wait is answered, and what is left of the supply. -/
def answerFrom (next : κ → Option (Cell × κ)) : Wait → κ → Option (Event × κ)
  | .key, supply => (next supply).map (Prod.map .key id)
  | .timer _, supply => some (.timer, supply)

theorem answerFrom_eq_none_iff : answerFrom next w supply = none ↔ w = .key ∧ next supply = none := by
  cases w with
  | key => simp [answerFrom]
  | timer ms => simp [answerFrom]

/-- A wait for a key takes one key from the supply, and a delay takes none. -/
theorem answerFrom_eq_some_iff {between : κ} : answerFrom next w supply = some (e, between) ↔
    e.answers (some w) ∧ Takes next supply e.key?.toList between := by
  cases w with
  | key =>
    cases e with
    | key code =>
      simp only [answerFrom, Option.map_eq_some_iff, Prod.map, Prod.exists, Prod.mk.injEq,
        Event.key.injEq, id_eq, Event.answers, Event.key?, Option.toList_some, true_and]
      constructor
      · rintro ⟨_, _, h, rfl, rfl⟩
        exact .cons h (.nil _)
      · intro h
        cases h with
        | cons h hrest =>
          cases hrest
          exact ⟨_, _, h, rfl, rfl⟩
    | timer => simp [answerFrom, Event.answers]
  | timer ms =>
    cases e with
    | key code => simp [answerFrom, Event.answers]
    | timer =>
      simp only [answerFrom, Option.some.injEq, Prod.mk.injEq, true_and, Event.answers, Event.key?,
        Option.toList_none]
      constructor
      · rintro rfl
        exact .nil _
      · intro h
        cases h
        rfl

theorem takes_append_iff {codes codes' : List Cell} : Takes next supply (codes ++ codes') rest ↔
    ∃ between, Takes next supply codes between ∧ Takes next between codes' rest := by
  induction codes generalizing supply with
  | nil =>
    constructor
    · intro h
      exact ⟨supply, .nil supply, h⟩
    · rintro ⟨_, h, h'⟩
      cases h
      exact h'
  | cons code codes ih =>
    constructor
    · intro h
      cases h with
      | cons h hrest =>
        obtain ⟨between, hcodes, hcodes'⟩ := ih.1 hrest
        exact ⟨between, .cons h hcodes, hcodes'⟩
    · rintro ⟨between, h, h'⟩
      cases h with
      | cons h hrest => exact .cons h (ih.2 ⟨between, hrest, h'⟩)

theorem takes_keys_cons_iff {events : List Event} :
    Takes next supply ((e :: events).filterMap Event.key?) rest ↔
      ∃ between, Takes next supply e.key?.toList between ∧
        Takes next between (events.filterMap Event.key?) rest := by
  rw [← takes_append_iff]
  cases e <;> rfl

/-! ## One round of serving -/

theorem serve_answered {between : κ} (s : Session) (fuel : Nat)
    (h : answerFrom next w supply = some (e, between)) :
    serve next (fuel + 1) supply (.ok (.suspended w), s) =
      (s.deliver fuel e).bind (serve next fuel between) := by
  cases w with
  | key =>
    obtain ⟨⟨code, between'⟩, hnext, h⟩ := Option.map_eq_some_iff.1 h
    obtain ⟨rfl, rfl⟩ := Prod.mk.inj h
    simp only [serve, hnext]
    rfl
  | timer ms =>
    obtain ⟨rfl, rfl⟩ := Prod.mk.inj (Option.some.inj h)
    rfl

theorem serve_starved (s : Session) (fuel : Nat) (h : answerFrom next w supply = none) :
    serve next (fuel + 1) supply (.ok (.suspended w), s) =
      some (.ok (.suspended w), s, supply) := by
  obtain ⟨rfl, hnext⟩ := answerFrom_eq_none_iff.1 h
  simp only [serve, hnext]

theorem serve_of_ended (supply : κ) (s : Session) (fuel : Nat)
    (h : ∀ w, reply ≠ .ok (.suspended w)) :
    serve next (fuel + 1) supply (reply, s) = some (reply, s, supply) := by
  unfold serve
  split
  · exact absurd rfl (h _)
  · exact absurd rfl (h _)
  · rfl

theorem suspended_or (reply : Reply) :
    (∃ w, reply = .ok (.suspended w)) ∨ ∀ w, reply ≠ .ok (.suspended w) := by
  by_cases h : ∃ w, reply = .ok (.suspended w)
  · exact .inl h
  · exact .inr fun w hw => h ⟨w, hw⟩

/-- What a round of serving makes of a reply. -/
inductive Round (next : κ → Option (Cell × κ)) (supply : κ) : Reply → Prop
  | answered {w : Wait} {e : Event} {between : κ}
    (h : answerFrom next w supply = some (e, between)) : Round next supply (.ok (.suspended w))
  | starved {w : Wait} (h : answerFrom next w supply = none) :
    Round next supply (.ok (.suspended w))
  | ended {reply : Reply} (h : ∀ w, reply ≠ .ok (.suspended w)) : Round next supply reply

theorem round (next : κ → Option (Cell × κ)) (supply : κ) (reply : Reply) :
    Round next supply reply := by
  obtain ⟨w, rfl⟩ | hended := suspended_or reply
  · cases h : answerFrom next w supply with
    | none => exact .starved h
    | some answer => exact .answered h
  · exact .ended hended

theorem serve_mono {r : Reply × Session} {q : Reply × Session × κ} {fuel more : Nat}
    (h : serve next fuel supply r = some q) (hle : fuel ≤ more) :
    serve next more supply r = some q := by
  induction fuel generalizing supply r more with
  | zero => exact nomatch h
  | succ fuel ih =>
    obtain ⟨more, rfl⟩ : ∃ k, more = k + 1 := ⟨more - 1, by omega⟩
    have hle : fuel ≤ more := by omega
    obtain ⟨reply, s⟩ := r
    cases round next supply reply with
    | answered hanswer =>
      rw [serve_answered s _ hanswer] at h ⊢
      obtain ⟨r', hr', hserve⟩ := Option.bind_eq_some_iff.1 h
      exact Option.bind_eq_some_iff.2 ⟨r', deliver_mono hr' hle, ih hserve hle⟩
    | starved hanswer =>
      rw [serve_starved s _ hanswer] at h ⊢
      exact h
    | ended hended =>
      rw [serve_of_ended supply s _ hended] at h ⊢
      exact h

/-! ## Call by call -/

/-- What a host does about the replies to its calls.  Each of them but the last one asks for an event,
which the host delivers next; the keys among these events are the next ones of the supply, in order;
and it stops where nothing is asked for that it could give. -/
structure AnswersFrom (next : κ → Option (Cell × κ)) (supply : κ) (replies : List Reply)
    (events : List Event) (last : Reply) (rest : κ) : Prop where
  asked : List.Forall₂ Event.IsAskedFor replies events
  keys : Takes next supply (events.filterMap Event.key?) rest
  last : ∀ w, last = .ok (.suspended w) → w = .key ∧ next rest = none

/-- The host submits the line and delivers the events that the replies ask for, call by call.  That
comes to the last reply, to the session after it, and to what is left of the supply. -/
def ByHand (next : κ → Option (Cell × κ)) (s : Session) (text : String) (supply : κ)
    (reply : Reply) (t : Session) (rest : κ) : Prop :=
  ∃ (events : List Event) (replies : List Reply),
    Replies s (.line text :: events.map .event) (replies ++ [reply]) t ∧
      AnswersFrom next supply replies events reply rest

/-- A host is left with a wait only for want of a key. -/
theorem ByHand.starved {text : String} (h : ByHand next s text supply (.ok (.suspended w)) t rest) :
    w = .key ∧ next rest = none := by
  obtain ⟨events, replies, -, hevents⟩ := h
  exact hevents.last w rfl

theorem answersFrom_nil_iff {events : List Event} : AnswersFrom next supply [] events reply rest ↔
    events = [] ∧ rest = supply ∧ ∀ w, reply = .ok (.suspended w) → w = .key ∧ next rest = none := by
  constructor
  · rintro ⟨hasked, hkeys, hlast⟩
    cases hasked
    cases hkeys
    exact ⟨rfl, rfl, hlast⟩
  · rintro ⟨rfl, rfl, hlast⟩
    exact ⟨.nil, .nil _, hlast⟩

theorem answersFrom_cons_iff {first : Reply} {replies : List Reply} {events : List Event} :
    AnswersFrom next supply (first :: replies) events reply rest ↔
      ∃ w e between later, first = .ok (.suspended w) ∧ events = e :: later ∧
        answerFrom next w supply = some (e, between) ∧
        AnswersFrom next between replies later reply rest := by
  constructor
  · rintro ⟨hasked, hkeys, hlast⟩
    cases hasked with
    | cons hfirst hlater =>
      obtain ⟨w, hw, he⟩ := hfirst
      obtain ⟨between, hkey, hkeys⟩ := takes_keys_cons_iff.1 hkeys
      exact ⟨w, _, between, _, hw, rfl, answerFrom_eq_some_iff.2 ⟨he, hkey⟩, hlater, hkeys, hlast⟩
  · rintro ⟨w, e, between, later, hw, rfl, hanswer, hlater⟩
    obtain ⟨he, hkey⟩ := answerFrom_eq_some_iff.1 hanswer
    exact ⟨.cons ⟨w, hw, he⟩ hlater.asked, takes_keys_cons_iff.2 ⟨between, hkey, hlater.keys⟩,
      hlater.last⟩

/-- Serving delivers what a host would deliver that goes by the replies, from the first one on. -/
theorem serve_iff {first : Reply} :
    (∃ fuel, serve next fuel supply (first, s) = some (reply, t, rest)) ↔
      ∃ (events : List Event) (replies later : List Reply), first :: later = replies ++ [reply] ∧
        Replies s (events.map .event) later t ∧
        AnswersFrom next supply replies events reply rest := by
  constructor
  · rintro ⟨fuel, h⟩
    -- Each unit of the bound is one round, and a round that is answered puts one event in front of
    -- those of the later rounds.
    induction fuel generalizing supply first s with
    | zero => exact nomatch h
    | succ fuel ih =>
      cases round next supply first with
      | @answered w e between hanswer =>
        rw [serve_answered s _ hanswer] at h
        obtain ⟨⟨second, u⟩, hdeliver, hserve⟩ := Option.bind_eq_some_iff.1 h
        obtain ⟨events, replies, later, hlist, hcalls, hevents⟩ := ih hserve
        refine ⟨e :: events, .ok (.suspended w) :: replies, second :: later, ?_,
          .cons ⟨fuel, hdeliver⟩ hcalls, ?_⟩
        · rw [hlist, List.cons_append]
        · exact answersFrom_cons_iff.2 ⟨w, e, between, events, rfl, rfl, hanswer, hevents⟩
      | starved hanswer =>
        rw [serve_starved s _ hanswer] at h
        obtain ⟨rfl, rfl, rfl⟩ : .ok (.suspended _) = reply ∧ s = t ∧ supply = rest := by
          simpa using h
        refine ⟨[], [], [], rfl, .nil s, answersFrom_nil_iff.2 ⟨rfl, rfl, fun w hw => ?_⟩⟩
        cases hw
        exact answerFrom_eq_none_iff.1 hanswer
      | ended hended =>
        rw [serve_of_ended supply s _ hended] at h
        obtain ⟨rfl, rfl, rfl⟩ : first = reply ∧ s = t ∧ supply = rest := by simpa using h
        exact ⟨[], [], [], rfl, .nil s,
          answersFrom_nil_iff.2 ⟨rfl, rfl, fun w hw => absurd hw (hended w)⟩⟩
  · rintro ⟨events, replies, later, hlist, hcalls, hevents⟩
    -- Here the replies tell how many rounds there are, and the bounds of the deliveries are put
    -- together.
    induction replies generalizing supply first s events later with
    | nil =>
      obtain ⟨rfl, rfl, hlast⟩ := answersFrom_nil_iff.1 hevents
      obtain ⟨rfl, rfl⟩ := List.cons.inj hlist
      cases hcalls
      refine ⟨1, ?_⟩
      cases round next rest first with
      | @answered w _ _ hanswer =>
        have hnone := answerFrom_eq_none_iff.2 (hlast w rfl)
        exact nomatch hnone.symm.trans hanswer
      | starved hanswer => exact serve_starved t 0 hanswer
      | ended hended => exact serve_of_ended rest t 0 hended
    | cons r replies ih =>
      obtain ⟨w, e, between, others, hw, rfl, hanswer, hothers⟩ := answersFrom_cons_iff.1 hevents
      obtain ⟨rfl, hlater⟩ := List.cons.inj hlist
      cases hcalls with
      | cons hfirst hcalls =>
        obtain ⟨fuel, hdeliver⟩ := hfirst
        obtain ⟨fuel', hserve⟩ := ih others _ hlater hcalls hothers
        refine ⟨max fuel fuel' + 1, ?_⟩
        rw [hw, serve_answered s _ hanswer]
        exact Option.bind_eq_some_iff.2 ⟨_, deliver_mono hdeliver (Nat.le_max_left _ _),
          serve_mono hserve (Nat.le_max_right _ _)⟩

theorem readAndServe_mono {text : String} {q : Reply × Session × κ} {fuel more : Nat}
    (h : s.readAndServe fuel next supply text = some q) (hle : fuel ≤ more) :
    s.readAndServe more next supply text = some q := by
  obtain ⟨r, hread, hserve⟩ := Option.bind_eq_some_iff.1 h
  exact Option.bind_eq_some_iff.2 ⟨r, readLine_mono hread hle, serve_mono hserve hle⟩

/-- Serving a line comes to what submitting it and delivering its events by hand comes to. -/
theorem readAndServe_iff_byHand {text : String} :
    (∃ fuel, s.readAndServe fuel next supply text = some (reply, t, rest)) ↔
      ByHand next s text supply reply t rest := by
  constructor
  · rintro ⟨fuel, h⟩
    obtain ⟨⟨first, u⟩, hread, hserve⟩ := Option.bind_eq_some_iff.1 h
    obtain ⟨events, replies, later, hlist, hcalls, hevents⟩ := serve_iff.1 ⟨fuel, hserve⟩
    exact ⟨events, replies, hlist ▸ .cons ⟨fuel, hread⟩ hcalls, hevents⟩
  · rintro ⟨events, replies, hcalls, hevents⟩
    generalize hlist : replies ++ [reply] = all at hcalls
    cases hcalls with
    | cons hread hcalls =>
      obtain ⟨fuel, hread⟩ := hread
      obtain ⟨fuel', hserve⟩ := serve_iff.2 ⟨events, replies, _, hlist.symm, hcalls, hevents⟩
      exact ⟨max fuel fuel', Option.bind_eq_some_iff.2 ⟨_,
        readLine_mono hread (Nat.le_max_left _ _), serve_mono hserve (Nat.le_max_right _ _)⟩⟩

end Session

end Forth
