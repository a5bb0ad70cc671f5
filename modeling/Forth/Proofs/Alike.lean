import Forth.Proofs.Vocabulary
import Forth.Session.Interpret

/-!
# Interpreting on related machines

Sessions are alike if they are equal but for their machines, which are related.  As long as the
words that they can come to respect the relation, the interpreter takes the same steps in sessions
that are alike, and they stay alike (`Alike.advance`, `Alike.tick`).
-/

namespace Forth

variable {P : Primitive → Prop}

theorem Meaning.usesOnly_of_find? {d : Dictionary} {name : String} {meaning : Meaning}
    (hd : ∀ entry ∈ d, entry.1 = Text.lowerCase name → entry.2.UsesOnly P)
    (h : d.find? name = some meaning) : meaning.UsesOnly P := by
  unfold Dictionary.find? at h
  induction d with
  | nil => exact nomatch h
  | cons entry d ih =>
    rw [List.lookup_cons] at h
    split at h
    · rename_i hname
      obtain rfl := Option.some.inj h
      exact hd entry (.head _) (beq_iff_eq.1 hname).symm
    · exact ih (fun e he => hd e (.tail _ he)) h

/-- What a token stands for uses only the words that the dictionary has under its name. -/
theorem Token.resolve_usesOnly_of_name {d : Dictionary} {t : Token} {a : Action}
    (hd : ∀ name, t = .word name → ∀ entry ∈ d, entry.1 = Text.lowerCase name →
      entry.2.UsesOnly P)
    (h : t.resolve d = .ok a) : a.UsesOnly P := by
  cases t with
  | string text =>
    obtain rfl := Except.ok.inj h
    exact .string text
  | word name =>
    rw [Token.resolve] at h
    -- A name that is not found can only be a numeral.
    cases hfind : d.find? name with
    | none =>
      rw [hfind] at h
      cases hnumeral : Numeral.parse? name with
      | none => simp [hnumeral] at h
      | some n =>
        simp only [hnumeral, Except.ok.injEq] at h
        subst h
        exact .number n
    | some meaning =>
      have hmeaning := Meaning.usesOnly_of_find? (hd name rfl) hfind
      rw [hfind] at h
      cases meaning with
      | control c =>
        obtain rfl := Except.ok.inj h
        exact trivial
      | word definition =>
        obtain rfl := Except.ok.inj h
        exact .invoke hmeaning

/-- What a token stands for uses only the words of the dictionary. -/
theorem Token.resolve_usesOnly {d : Dictionary} {t : Token} {a : Action}
    (hd : ∀ entry ∈ d, entry.2.UsesOnly P) (h : t.resolve d = .ok a) : a.UsesOnly P :=
  resolve_usesOnly_of_name (fun _ _ entry hentry _ => hd entry hentry) h

namespace Session

/-- The sessions are equal but for their machines, which are related, and all words that they can
come to satisfy `P`. -/
structure Alike (R : Machine → Machine → Prop) (P : Primitive → Prop) (s s' : Session) : Prop where
  machine : R s.machine s'.machine
  rest : s' = { s with machine := s'.machine }
  uses : s.UsesOnly P

variable {R : Machine → Machine → Prop}

theorem lift_respects {α : Type} {V : α → Prop} {action : Exec α} (h : Respects R V action) :
    Respects (Alike R P) V (lift action) := by
  intro s s' hs
  have hrun := h s.machine s'.machine hs.machine
  rw [hs.rest]
  simp only [lift, EStateM.run]
  generalize ha : action s.machine = r, ha' : action s'.machine = r'
  simp only [EStateM.run, ha, ha'] at hrun
  cases hrun with
  | ok hx ht => exact .ok hx ⟨ht, rfl, hs.uses.dictionary, hs.uses.frames, hs.uses.gathering⟩
  | error ht => exact .error ⟨ht, rfl, hs.uses.dictionary, hs.uses.frames, hs.uses.gathering⟩

theorem lift_run {α : Type} (action : Exec α) (s : Session) :
    (lift action).run s =
      match action.run s.machine with
      | .ok x m => .ok x { s with machine := m }
      | .error e m => .error e { s with machine := m } := rfl

theorem takeToken_run (s : Session) :
    takeToken.run s =
      match s.line.bind Token.next? with
      | none => .ok none s
      | some (t, rest) => .ok (some t) { s with line := some rest } := rfl

theorem takeToken_respects : Respects (Alike R P) Anything takeToken := by
  intro s s' hs
  have hline : s'.line = s.line := by rw [hs.rest]
  simp only [takeToken, EStateM.run, hline]
  cases s.line.bind Token.next? with
  | none => exact .ok trivial hs
  | some taken =>
    rw [hs.rest]
    exact .ok trivial ⟨hs.machine, rfl, hs.uses.dictionary, hs.uses.frames, hs.uses.gathering⟩

theorem takeName_respects : Respects (Alike R P) Anything takeName := by
  refine .bind takeToken_respects fun t _ => ?_
  rcases t with _ | name | text
  · exact .throw _
  · exact .pure trivial
  · exact .throw _

theorem schedule_respects {frames : List Frame} (h : Frame.AllUseOnly P frames) :
    Respects (Alike R P) Anything (schedule frames) :=
  .modified fun s s' hs => by
    rw [hs.rest]
    exact ⟨hs.machine, rfl, hs.uses.dictionary, h.append hs.uses.frames, hs.uses.gathering⟩

theorem gather_respects {g : Gathering} (h : g.UsesOnly P) :
    Respects (Alike R P) Anything (gather g) :=
  .modified fun s s' hs => by
    rw [hs.rest]
    exact ⟨hs.machine, rfl, hs.uses.dictionary, hs.uses.frames, h⟩

theorem UsesOnly.define {s : Session} {name : String} {meaning : Meaning} (hs : s.UsesOnly P)
    (h : meaning.UsesOnly P) : (s.define name meaning).UsesOnly P := by
  refine ⟨fun entry hentry => ?_, hs.frames, hs.gathering⟩
  obtain rfl | hentry := List.mem_cons.1 hentry
  · exact h
  · exact hs.dictionary entry hentry

theorem UsesOnly.onMachine {s : Session} (hs : s.UsesOnly P) (f : Machine → Machine) :
    (s.onMachine f).UsesOnly P :=
  ⟨hs.dictionary, hs.frames, hs.gathering⟩

theorem UsesOnly.startLine {s : Session} (hs : s.UsesOnly P) (text : String) :
    (s.startLine text).UsesOnly P :=
  ⟨hs.dictionary, hs.frames, hs.gathering⟩

theorem Alike.define {s s' : Session} {name : String} {meaning : Meaning} (hs : Alike R P s s')
    (h : meaning.UsesOnly P) : Alike R P (s.define name meaning) (s'.define name meaning) := by
  rw [hs.rest]
  exact ⟨hs.machine, rfl, hs.uses.define h⟩

/-! ## One step, case by case -/

section

variable {s : Session} {t : Token} {rest : List Char}

theorem advance_run_frames {f : Frame} {below : List Frame} (h : s.frames = f :: below) :
    advance.run s = (do
      let frames ← lift (f.step below)
      modify fun s => { s with frames }
      return true : Interpretation Bool).run s := by
  obtain ⟨machine, dictionary, line, returnDepth, frames, gathering, lastError⟩ := s
  obtain rfl : frames = f :: below := h
  rfl

theorem advance_run_end (hframes : s.frames = []) (hline : s.line.bind Token.next? = none) :
    advance.run s = .ok false s := by
  obtain ⟨machine, dictionary, line, returnDepth, frames, gathering, lastError⟩ := s
  obtain rfl : frames = [] := hframes
  simp only [advance, EStateM.run_bind, EStateM.run_get, takeToken_run, hline, EStateM.run_pure]

theorem advance_run_unknown {e : Error} (hframes : s.frames = [])
    (hline : s.line.bind Token.next? = some (t, rest)) (ht : t.resolve s.dictionary = .error e) :
    advance.run s = .error e { s with line := some rest } := by
  obtain ⟨machine, dictionary, line, returnDepth, frames, gathering, lastError⟩ := s
  obtain rfl : frames = [] := hframes
  simp only [advance, EStateM.run_bind, EStateM.run_get, takeToken_run, hline, ht]
  rfl

theorem advance_run_token {a : Action} (hframes : s.frames = [])
    (hline : s.line.bind Token.next? = some (t, rest)) (ht : t.resolve s.dictionary = .ok a) :
    advance.run s = (do dispatch a; return true : Interpretation Bool).run
      { s with line := some rest } := by
  obtain ⟨machine, dictionary, line, returnDepth, frames, gathering, lastError⟩ := s
  obtain rfl : frames = [] := hframes
  simp only [advance, EStateM.run_bind, EStateM.run_get, takeToken_run, hline, ht]

end

/-! ## The next primitive word -/

/-- The primitive word that the next step runs, if it runs one, and the session in which it does. -/
def nextPrimitive? (s : Session) : Option (Primitive × Session) :=
  match s.frames, s.gathering with
  | .block (.leaf (.invoke _ (.primitive p)) :: rest) :: below, _ =>
    some (p, { s with frames := .block rest :: below })
  | [], .nothing =>
    match s.line.bind Token.next? with
    | none => none
    | some (t, rest) =>
      match t.resolve s.dictionary with
      | .ok (.perform (.invoke _ (.primitive p))) => some (p, { s with line := some rest })
      | _ => none
  | _, _ => none

section

variable {s t : Session} {p : Primitive}

theorem nextPrimitive?_of_frames {name : String} {rest : Body}
    {below : List Frame}
    (h : s.frames = .block (.leaf (.invoke name (.primitive p)) :: rest) :: below) :
    s.nextPrimitive? = some (p, { s with frames := .block rest :: below }) := by
  simp only [nextPrimitive?, h]

theorem nextPrimitive?_of_token {name : String} {token : Token}
    {rest : List Char} (hframes : s.frames = []) (hg : s.gathering = .nothing)
    (hline : s.line.bind Token.next? = some (token, rest))
    (ht : token.resolve s.dictionary = .ok (.perform (.invoke name (.primitive p)))) :
    s.nextPrimitive? = some (p, { s with line := some rest }) := by
  simp only [nextPrimitive?, hframes, hg, hline, ht]

/-- Before a primitive word runs, only its call is taken off. -/
theorem nextPrimitive?_rest (h : s.nextPrimitive? = some (p, t)) :
    t = { s with frames := t.frames, line := t.line } := by
  unfold nextPrimitive? at h
  split at h
  · rw [← (Prod.mk.inj (Option.some.inj h)).2]
  · split at h
    · exact nomatch h
    · split at h
      · rw [← (Prod.mk.inj (Option.some.inj h)).2]
      · exact nomatch h
  · exact nomatch h

/-- The session in which a frame calls a primitive word is left without the call. -/
theorem exists_call_of_nextPrimitive? (hframes : s.frames ≠ [])
    (h : s.nextPrimitive? = some (p, t)) :
    ∃ name rest below, s.frames = .block (.leaf (.invoke name (.primitive p)) :: rest) :: below ∧
      t = { s with frames := .block rest :: below } := by
  unfold nextPrimitive? at h
  split at h
  · rename_i hs
    obtain ⟨rfl, rfl⟩ := Prod.mk.inj (Option.some.inj h)
    exact ⟨_, _, _, hs, rfl⟩
  · rename_i hs _
    exact absurd hs hframes
  · exact nomatch h

end

theorem nextPrimitive?_usesOnly {s s' : Session} {p : Primitive} (hs : s.UsesOnly P)
    (h : s.nextPrimitive? = some (p, s')) : P p := by
  unfold nextPrimitive? at h
  split at h
  · rename_i hframes
    obtain ⟨rfl, -⟩ := Prod.mk.inj (Option.some.inj h)
    have hused := hs.frames
    rw [hframes] at hused
    exact (hused _ (.head _) _ (.head _)).operation.word
  · split at h
    · exact nomatch h
    · split at h
      · rename_i p' hresolve
        obtain ⟨rfl, -⟩ := Prod.mk.inj (Option.some.inj h)
        have hused := Token.resolve_usesOnly hs.dictionary hresolve
        exact hused.word
      · exact nomatch h
  · exact nomatch h

/-! ## What an action does -/

theorem dispatchDefining_respects {name : String} {actions : List Action} {a : Action}
    (hactions : ∀ b ∈ actions, b.UsesOnly P) (ha : a.UsesOnly P) :
    Respects (Alike R P) Anything (dispatchDefining name actions a) := by
  have hgather : Respects (Alike R P) Anything (gather (.definition name (actions ++ [a]))) := by
    refine gather_respects fun b hb => ?_
    obtain hb | hb := List.mem_append.1 hb
    · exact hactions b hb
    · exact List.mem_singleton.1 hb ▸ ha
  unfold dispatchDefining
  split
  · refine .bind (gather_respects trivial) fun _ _ => ?_
    cases hcompile : compile actions with
    | error e => exact .throw e
    | ok body =>
      exact .modified fun s s' hs => hs.define (.compiled (compile_usesOnly hactions hcompile))
  · exact hgather

theorem dispatchGathering_respects {actions : List Action} {depth : Nat} {a : Action}
    (hactions : ∀ b ∈ actions, b.UsesOnly P) (ha : a.UsesOnly P) :
    Respects (Alike R P) Anything (dispatchGathering actions depth a) := by
  have hall : ∀ b ∈ actions ++ [a], b.UsesOnly P := by
    intro b hb
    obtain hb | hb := List.mem_append.1 hb
    · exact hactions b hb
    · exact List.mem_singleton.1 hb ▸ ha
  unfold dispatchGathering
  by_cases hdepth : depthAfter depth a = 0
  · rw [if_pos hdepth]
    refine .bind (gather_respects trivial) fun _ _ => ?_
    cases hcompile : compile (actions ++ [a]) with
    | error e => exact .throw e
    | ok body => exact schedule_respects (.cons (compile_usesOnly hall hcompile) .nil)
  · rw [if_neg hdepth]
    exact gather_respects hall

section

variable (hR : Congruence R)

include hR

theorem dispatchDirect_respects {a : Action} (ha : a.UsesOnly P)
    (hp : ∀ name p, a = .perform (.invoke name (.primitive p)) → Respects R Anything p.run) :
    Respects (Alike R P) Anything (dispatchDirect a) := by
  cases a with
  | perform operation =>
    have hperform := ha.perform_respects hR fun name p h => hp name p (by rw [h])
    exact .bind (lift_respects hperform) fun frames hframes => schedule_respects hframes
  | control c =>
    -- All control words but the three that take a name begin a block or are out of place.
    have hother : Respects (Alike R P) Anything
        (if c.isOpener then gather (.block [.control c] 1) else throw .unbalancedControl) := by
      by_cases hopener : c.isOpener
      · rw [if_pos hopener]
        exact gather_respects fun b hb => List.mem_singleton.1 hb ▸ trivial
      · rw [if_neg hopener]
        exact .throw _
    cases c with
    | colon => exact .bind takeName_respects fun name _ => gather_respects fun _ hb => nomatch hb
    | «variable» =>
      refine .bind takeName_respects fun name _ => .modified fun s s' hs => ?_
      simp only [addVariable]
      rw [hs.rest]
      simp only [hR.memory hs.machine]
      refine ⟨hR.setMemory _ hs.machine, rfl, ?_⟩
      exact UsesOnly.define ⟨hs.uses.dictionary, hs.uses.frames, hs.uses.gathering⟩ (.value _)
    | constant =>
      exact .bind takeName_respects fun name _ => .bind (lift_respects hR.popData) fun n _ =>
        .modified fun s s' hs => hs.define (.value n)
    | semicolon | «if» | «else» | «then» | «do» | loop | plusLoop | begin | «until» => exact hother

theorem Alike.dispatch {s s' : Session} (hs : Alike R P s s') {a : Action} (ha : a.UsesOnly P)
    (hp : s.gathering = .nothing → ∀ name p, a = .perform (.invoke name (.primitive p)) →
      Respects R Anything p.run) :
    Agree (Alike R P) Anything ((dispatch a).run s) ((dispatch a).run s') := by
  have hgathering : s'.gathering = s.gathering := by rw [hs.rest]
  have huses := hs.uses.gathering
  simp only [Session.dispatch, EStateM.run_bind, EStateM.run_get, hgathering]
  cases hg : s.gathering with
  | nothing => exact dispatchDirect_respects hR ha (hp hg) s s' hs
  | definition name actions =>
    rw [hg] at huses
    exact dispatchDefining_respects huses ha s s' hs
  | block actions depth =>
    rw [hg] at huses
    exact dispatchGathering_respects huses ha s s' hs

/-- One step of the interpreter is the same in sessions that are alike, if the primitive word is
that it may have to run. -/
theorem Alike.advance {s s' : Session} (hs : Alike R P s s')
    (hp : ∀ p rest, s.nextPrimitive? = some (p, rest) → Respects R Anything p.run) :
    Agree (Alike R P) Anything (advance.run s) (advance.run s') := by
  have hframes' : s'.frames = s.frames := by rw [hs.rest]
  have hline' : s'.line = s.line := by rw [hs.rest]
  have hdictionary' : s'.dictionary = s.dictionary := by rw [hs.rest]
  have huses := hs.uses.frames
  -- A step runs a frame if there is one.  Otherwise it takes a token, which both sessions read
  -- alike since they have the same line and the same dictionary.
  cases hframes : s.frames with
  | cons f below =>
    rw [hframes] at huses
    have hstep := Frame.UsesOnly.step_respects hR (huses f (.head _))
      (fun g hg => huses g (.tail _ hg)) fun name p rest h => by
        subst h
        exact hp p _ (by rw [nextPrimitive?, hframes])
    rw [advance_run_frames hframes, advance_run_frames (hframes'.trans hframes)]
    refine Respects.bind (lift_respects hstep) (fun frames hframes => ?_) s s' hs
    refine .bind (.modified fun s s' hs => ?_) fun _ _ => .pure trivial
    rw [hs.rest]
    exact ⟨hs.machine, rfl, hs.uses.dictionary, hframes, hs.uses.gathering⟩
  | nil =>
    have hnone := hframes'.trans hframes
    cases hnext : s.line.bind Token.next? with
    | none =>
      rw [advance_run_end hframes hnext, advance_run_end hnone (by rw [hline', hnext])]
      exact .ok trivial hs
    | some taken =>
      obtain ⟨t, rest⟩ := taken
      have hnext' : s'.line.bind Token.next? = some (t, rest) := by rw [hline', hnext]
      have htaken : Alike R P { s with line := some rest } { s' with line := some rest } := by
        rw [hs.rest]
        exact ⟨hs.machine, rfl, hs.uses.dictionary, hs.uses.frames, hs.uses.gathering⟩
      cases hresolve : t.resolve s.dictionary with
      | error e =>
        rw [advance_run_unknown hframes hnext hresolve,
          advance_run_unknown hnone hnext' (by rw [hdictionary', hresolve])]
        exact .error htaken
      | ok a =>
        rw [advance_run_token hframes hnext hresolve,
          advance_run_token hnone hnext' (by rw [hdictionary', hresolve])]
        have ha := Token.resolve_usesOnly hs.uses.dictionary hresolve
        have hdispatch := htaken.dispatch hR ha fun hg name p h => by
          subst h
          have hgathering : s.gathering = .nothing := hg
          exact hp p { s with line := some rest } (by
            rw [nextPrimitive?, hframes, hgathering]
            simp only [hnext, hresolve])
        simp only [EStateM.run_bind, EStateM.run_pure]
        generalize (Session.dispatch a).run { s with line := some rest } = r,
          (Session.dispatch a).run { s' with line := some rest } = r' at hdispatch
        cases hdispatch with
        | ok _ ht => exact .ok trivial ht
        | error ht => exact .error ht

end

/-! ## The line in progress -/

theorem Alike.abandon {s s' : Session} (hR : Congruence R) (hwait : SurvivesWait R)
    (hs : Alike R P s s') (e : Error) : Alike R P (s.abandon e).2 (s'.abandon e).2 := by
  rw [hs.rest]
  simp only [Session.abandon, hR.returns hs.machine]
  have hreturns := hR.setReturns (s.machine.returns.truncate s.returnDepth) hs.machine
  have hprint := hR.print (" " ++ e.message) (hwait none _ _ hreturns)
  exact ⟨hprint, rfl, hs.uses.dictionary, .nil, trivial⟩

/-- Steps to sessions that are alike, or ends with the same reply in sessions that are alike. -/
inductive StepsAlike (R : Machine → Machine → Prop) (P : Primitive → Prop) :
    Progress Session (Reply × Session) → Progress Session (Reply × Session) → Prop
  | more {s s' : Session} (h : Alike R P s s') : StepsAlike R P (.more s) (.more s')
  | done {s s' : Session} (reply : Reply) (h : Alike R P s s') :
    StepsAlike R P (.done (reply, s)) (.done (reply, s'))

theorem Alike.finishLine {s s' : Session} (hR : Congruence R) (hwait : SurvivesWait R)
    (hs : Alike R P s s') : StepsAlike R P (.done s.finishLine) (.done s'.finishLine) := by
  have hgathering : s'.gathering = s.gathering := by rw [hs.rest]
  unfold Session.finishLine
  rw [hgathering]
  have huses := hs.uses.gathering
  cases hg : s.gathering with
  | block actions depth => exact .done _ (hs.abandon hR hwait .unbalancedControl)
  | definition name actions =>
    refine .done _ ?_
    rw [hg] at huses
    rw [hs.rest]
    exact ⟨hs.machine, rfl, hs.uses.dictionary, hs.uses.frames, huses⟩
  | nothing =>
    refine .done _ ?_
    rw [hs.rest]
    exact ⟨hR.print " ok" hs.machine, rfl, hs.uses.dictionary, hs.uses.frames, trivial⟩

/-- One step of the line in progress is the same in sessions that are alike. -/
theorem Alike.tick {s s' : Session} (hR : Congruence R) (hwait : SurvivesWait R)
    (hP : ∀ p, P p → Respects R Anything p.run) (hs : Alike R P s s') :
    StepsAlike R P s.tick s'.tick := by
  have hadvance := hs.advance hR fun p _ hp => hP p (nextPrimitive?_usesOnly hs.uses hp)
  unfold Session.tick
  rw [hR.wait hs.machine]
  cases hw : s.machine.wait with
  | some w => exact .done _ hs
  | none =>
    generalize Session.advance.run s = r, Session.advance.run s' = r' at hadvance
    cases hadvance with
    | @ok goesOn t t' _ ht =>
      cases goesOn with
      | true => exact .more ht
      | false => exact ht.finishLine hR hwait
    | @error e t t' ht => exact .done _ (ht.abandon hR hwait e)

end Session

end Forth
