import Forth.Proofs.Alike

/-!
# What a step can do

One step of the interpreter runs the innermost frame, or it takes a token off the line and does what
the token's action asks for.  `Advanced` lists all that can come of it, each case with its condition
and with the session that it leaves, failures included; `Dispatched` does the same for the action of
a token, and `Stopped` lists the ways in which a line comes to its end or finds that it has to wait.
An invariant of the interpreter is shown case by case from these lists, without looking into the
interpreter again.
-/

namespace Forth.Session

/-! ## The action of a token -/

/-- What an action comes to.  The line of the session begins behind the token of the action. -/
inductive Dispatched (s : Session) : Action → EStateM.Result Error Session Unit → Prop
  /-- The action becomes part of the definition that is open. -/
  | gathered {name : String} {actions : List Action} {a : Action}
    (hg : s.gathering = .definition name actions) (ha : a ≠ .control .semicolon) :
    Dispatched s a (.ok () { s with gathering := .definition name (actions ++ [a]) })
  | defined {name : String} {actions : List Action} {body : Body}
    (hg : s.gathering = .definition name actions) (hbody : compile actions = .ok body) :
    Dispatched s (.control .semicolon)
      (.ok () ({ s with gathering := .nothing }.define name (.word (.compiled body))))
  | undefined {name : String} {actions : List Action} {e : Error}
    (hg : s.gathering = .definition name actions) (he : compile actions = .error e) :
    Dispatched s (.control .semicolon) (.error e { s with gathering := .nothing })
  /-- The action becomes part of the control structure that is open. -/
  | nested {actions : List Action} {depth : Nat} {a : Action}
    (hg : s.gathering = .block actions depth) (hdepth : depthAfter depth a ≠ 0) :
    Dispatched s a (.ok () { s with gathering := .block (actions ++ [a]) (depthAfter depth a) })
  /-- The action closes the control structure, which runs next. -/
  | closed {actions : List Action} {depth : Nat} {a : Action} {body : Body}
    (hg : s.gathering = .block actions depth) (hdepth : depthAfter depth a = 0)
    (hbody : compile (actions ++ [a]) = .ok body) :
    Dispatched s a (.ok () { s with gathering := .nothing, frames := .block body :: s.frames })
  | unbalanced {actions : List Action} {depth : Nat} {a : Action} {e : Error}
    (hg : s.gathering = .block actions depth) (hdepth : depthAfter depth a = 0)
    (he : compile (actions ++ [a]) = .error e) :
    Dispatched s a (.error e { s with gathering := .nothing })
  | performed {operation : Operation} {frames : List Frame} {m : Machine}
    (hg : s.gathering = .nothing) (h : operation.perform.run s.machine = .ok frames m) :
    Dispatched s (.perform operation)
      (.ok () { s with machine := m, frames := frames ++ s.frames })
  | failed {operation : Operation} {e : Error} {m : Machine}
    (hg : s.gathering = .nothing) (h : operation.perform.run s.machine = .error e m) :
    Dispatched s (.perform operation) (.error e { s with machine := m })
  | opened {c : Control} (hg : s.gathering = .nothing) (hc : c.isOpener = true) :
    Dispatched s (.control c) (.ok () { s with gathering := .block [.control c] 1 })
  /-- The control word has no meaning where nothing is open. -/
  | misplaced {c : Control} (hg : s.gathering = .nothing) (hc : c.isOpener = false)
    (hname : c ≠ .colon ∧ c ≠ .variable ∧ c ≠ .constant) :
    Dispatched s (.control c) (.error .unbalancedControl s)
  | colon {name : String} {rest : List Char} (hg : s.gathering = .nothing)
    (hname : s.line.bind Token.next? = some (.word name, rest)) :
    Dispatched s (.control .colon)
      (.ok () { s with line := some rest, gathering := .definition name [] })
  | variable {name : String} {rest : List Char} (hg : s.gathering = .nothing)
    (hname : s.line.bind Token.next? = some (.word name, rest)) :
    Dispatched s (.control .variable)
      (.ok () (({ s with line := some rest } : Session).addVariable name).2)
  | constant {name : String} {rest : List Char} {n : Cell} {data : Stack}
    (hg : s.gathering = .nothing) (hname : s.line.bind Token.next? = some (.word name, rest))
    (hdata : s.machine.data = n :: data) :
    Dispatched s (.control .constant)
      (.ok () (({ s with line := some rest, machine := { s.machine with data } } :
        Session).addConstant name n))
  /-- There is no value for the constant. -/
  | valueless {name : String} {rest : List Char} (hg : s.gathering = .nothing)
    (hname : s.line.bind Token.next? = some (.word name, rest)) (hdata : s.machine.data = []) :
    Dispatched s (.control .constant) (.error .stackUnderflow { s with line := some rest })
  /-- There is no name for what is to be defined. -/
  | nameless {c : Control} (hg : s.gathering = .nothing)
    (hname : c = .colon ∨ c = .variable ∨ c = .constant)
    (hline : s.line.bind Token.next? = none) :
    Dispatched s (.control c) (.error .expectingName s)
  /-- What is to be defined is given a string for its name. -/
  | misnamed {c : Control} {text : String} {rest : List Char} (hg : s.gathering = .nothing)
    (hname : c = .colon ∨ c = .variable ∨ c = .constant)
    (hline : s.line.bind Token.next? = some (.string text, rest)) :
    Dispatched s (.control c) (.error .expectingName { s with line := some rest })

variable {s : Session}

theorem takeName_run (s : Session) :
    takeName.run s =
      match s.line.bind Token.next? with
      | none => .error .expectingName s
      | some (.word name, rest) => .ok name { s with line := some rest }
      | some (.string _, rest) => .error .expectingName { s with line := some rest } := by
  simp only [takeName, EStateM.run_bind, takeToken_run]
  rcases s.line.bind Token.next? with _ | ⟨name | text, rest⟩ <;> rfl

theorem dispatchDefining_spec {name : String} {actions : List Action}
    (hg : s.gathering = .definition name actions) (a : Action) :
    Dispatched s a ((dispatchDefining name actions a).run s) := by
  unfold dispatchDefining
  split
  · simp only [gather, EStateM.run_bind, EStateM.run_modify]
    cases hcompile : compile actions with
    | error e => exact .undefined hg hcompile
    | ok body => exact .defined hg hcompile
  · rename_i ha
    exact .gathered hg ha

theorem dispatchGathering_spec {actions : List Action} {depth : Nat}
    (hg : s.gathering = .block actions depth) (a : Action) :
    Dispatched s a ((dispatchGathering actions depth a).run s) := by
  unfold dispatchGathering
  by_cases hdepth : depthAfter depth a = 0
  · rw [if_pos hdepth]
    simp only [gather, EStateM.run_bind, EStateM.run_modify]
    cases hcompile : compile (actions ++ [a]) with
    | error e => exact .unbalanced hg hdepth hcompile
    | ok body => exact .closed hg hdepth hcompile
  · rw [if_neg hdepth]
    exact .nested hg hdepth

theorem dispatchDirect_spec (hg : s.gathering = .nothing) (a : Action) :
    Dispatched s a ((dispatchDirect a).run s) := by
  cases a with
  | perform operation =>
    simp only [dispatchDirect, EStateM.run_bind, lift_run]
    cases hperform : operation.perform.run s.machine with
    | error e m => exact .failed hg hperform
    | ok frames m => exact .performed hg hperform
  | control c =>
    -- The words that take a name stand apart: whether there is one is told by the rest of the line.
    have hother (hname : c ≠ .colon ∧ c ≠ .variable ∧ c ≠ .constant) : Dispatched s (.control c)
        ((if c.isOpener then gather (.block [.control c] 1) else throw .unbalancedControl :
          Interpretation Unit).run s) := by
      cases hopener : c.isOpener with
      | true => exact .opened hg hopener
      | false => exact .misplaced hg hopener hname
    -- If no name follows, all three words fail in the same way.
    have hnames : (c = .colon ∨ c = .variable ∨ c = .constant) →
        Dispatched s (.control c) ((dispatchDirect (.control c)).run s) := by
      rintro hname
      cases hline : s.line.bind Token.next? with
      | none =>
        have hrun : (dispatchDirect (.control c)).run s = .error .expectingName s := by
          obtain rfl | rfl | rfl := hname <;>
            simp only [dispatchDirect, EStateM.run_bind, takeName_run, hline]
        rw [hrun]
        exact .nameless hg hname hline
      | some taken =>
        obtain ⟨name | text, rest⟩ := taken
        · obtain rfl | rfl | rfl := hname
          · simp only [dispatchDirect, EStateM.run_bind, takeName_run, hline]
            exact .colon hg hline
          · simp only [dispatchDirect, EStateM.run_bind, takeName_run, hline]
            exact .variable hg hline
          · simp only [dispatchDirect, EStateM.run_bind, takeName_run, hline, lift_run,
              Exec.popData_run]
            cases hdata : s.machine.data with
            | nil => exact .valueless hg hline hdata
            | cons n data => exact .constant hg hline hdata
        · have hrun : (dispatchDirect (.control c)).run s =
              .error .expectingName { s with line := some rest } := by
            obtain rfl | rfl | rfl := hname <;>
              simp only [dispatchDirect, EStateM.run_bind, takeName_run, hline]
          rw [hrun]
          exact .misnamed hg hname hline
    cases c with
    | colon => exact hnames (.inl rfl)
    | «variable» => exact hnames (.inr (.inl rfl))
    | constant => exact hnames (.inr (.inr rfl))
    | semicolon | «if» | «else» | «then» | «do» | loop | plusLoop | begin | «until» =>
      exact hother ⟨nofun, nofun, nofun⟩

theorem dispatch_spec (s : Session) (a : Action) : Dispatched s a ((dispatch a).run s) := by
  simp only [dispatch, EStateM.run_bind, EStateM.run_get]
  cases hg : s.gathering with
  | definition name actions => exact dispatchDefining_spec hg a
  | block actions depth => exact dispatchGathering_spec hg a
  | nothing => exact dispatchDirect_spec hg a

/-! ### From the list back to the step -/

theorem dispatchDefining_run {a : Action} (name : String) (actions : List Action)
    (ha : a ≠ .control .semicolon) (s : Session) :
    (dispatchDefining name actions a).run s =
      .ok () { s with gathering := .definition name (actions ++ [a]) } := by
  unfold dispatchDefining
  split
  · exact absurd rfl ha
  · rfl

theorem dispatchDirect_run_other {c : Control}
    (hc : c ≠ .colon ∧ c ≠ .variable ∧ c ≠ .constant) (s : Session) :
    (dispatchDirect (.control c)).run s =
      if c.isOpener then .ok () { s with gathering := .block [.control c] 1 }
      else .error .unbalancedControl s := by
  obtain ⟨hcolon, hvariable, hconstant⟩ := hc
  cases c with
  | colon => exact absurd rfl hcolon
  | «variable» => exact absurd rfl hvariable
  | constant => exact absurd rfl hconstant
  | _ => rfl

theorem ne_of_isOpener {c : Control} (h : c.isOpener = true) :
    c ≠ .colon ∧ c ≠ .variable ∧ c ≠ .constant := by
  cases c with
  | «if» | «do» | begin => exact ⟨nofun, nofun, nofun⟩
  | _ => exact nomatch h

/-- Nothing but what is listed comes of the action of a token. -/
theorem Dispatched.run_eq {a : Action} {r : EStateM.Result Error Session Unit}
    (h : Dispatched s a r) : (dispatch a).run s = r := by
  -- What an item of the list says of the gathering, the line and the machine picks the branch of
  -- `dispatch`.
  cases h with
  | gathered hg ha =>
    simp only [dispatch, EStateM.run_bind, EStateM.run_get, hg, dispatchDefining_run _ _ ha]
  | defined hg hbody =>
    simp only [dispatch, EStateM.run_bind, EStateM.run_get, hg, dispatchDefining, gather,
      EStateM.run_modify, hbody]
  | undefined hg he =>
    simp only [dispatch, EStateM.run_bind, EStateM.run_get, hg, dispatchDefining, gather,
      EStateM.run_modify, he]
    rfl
  | nested hg hdepth =>
    simp only [dispatch, EStateM.run_bind, EStateM.run_get, hg, dispatchGathering, if_neg hdepth]
    rfl
  | closed hg hdepth hbody | unbalanced hg hdepth hbody =>
    simp only [dispatch, EStateM.run_bind, EStateM.run_get, hg, dispatchGathering, if_pos hdepth,
      gather, EStateM.run_modify, hbody]
    rfl
  | performed hg hrun =>
    simp only [dispatch, EStateM.run_bind, EStateM.run_get, hg, dispatchDirect, lift_run, hrun]
    rfl
  | failed hg hrun =>
    simp only [dispatch, EStateM.run_bind, EStateM.run_get, hg, dispatchDirect, lift_run, hrun]
  | opened hg hc =>
    simp only [dispatch, EStateM.run_bind, EStateM.run_get, hg,
      dispatchDirect_run_other (ne_of_isOpener hc), if_pos hc]
  | misplaced hg hc hname =>
    simp only [dispatch, EStateM.run_bind, EStateM.run_get, hg, dispatchDirect_run_other hname, hc]
    rfl
  | colon hg hname | «variable» hg hname =>
    simp only [dispatch, EStateM.run_bind, EStateM.run_get, hg, dispatchDirect, takeName_run, hname]
    rfl
  | constant hg hname hdata =>
    simp only [dispatch, EStateM.run_bind, EStateM.run_get, hg, dispatchDirect, takeName_run, hname,
      lift_run, Exec.popData_run, hdata]
    rfl
  | valueless hg hname hdata =>
    simp only [dispatch, EStateM.run_bind, EStateM.run_get, hg, dispatchDirect, takeName_run, hname,
      lift_run, Exec.popData_run, hdata]
  | nameless hg hname hline | misnamed hg hname hline =>
    obtain rfl | rfl | rfl := hname <;>
      simp only [dispatch, EStateM.run_bind, EStateM.run_get, hg, dispatchDirect, takeName_run,
        hline]

/-! ## The whole step -/

/-- What a step of the interpreter comes to. -/
inductive Advanced (s : Session) : EStateM.Result Error Session Bool → Prop
  | frame {f : Frame} {below frames : List Frame} {m : Machine} (hframes : s.frames = f :: below)
    (h : (f.step below).run s.machine = .ok frames m) :
    Advanced s (.ok true { s with machine := m, frames })
  | frameFailed {f : Frame} {below : List Frame} {e : Error} {m : Machine}
    (hframes : s.frames = f :: below) (h : (f.step below).run s.machine = .error e m) :
    Advanced s (.error e { s with machine := m })
  /-- Neither a frame nor a token is left. -/
  | finished (hframes : s.frames = []) (hline : s.line.bind Token.next? = none) :
    Advanced s (.ok false s)
  | unknown {t : Token} {rest : List Char} {e : Error} (hframes : s.frames = [])
    (hline : s.line.bind Token.next? = some (t, rest)) (ht : t.resolve s.dictionary = .error e) :
    Advanced s (.error e { s with line := some rest })
  | dispatched {t : Token} {rest : List Char} {a : Action} {u : Session} (hframes : s.frames = [])
    (hline : s.line.bind Token.next? = some (t, rest)) (ht : t.resolve s.dictionary = .ok a)
    (h : Dispatched { s with line := some rest } a (.ok () u)) : Advanced s (.ok true u)
  | refused {t : Token} {rest : List Char} {a : Action} {e : Error} {u : Session}
    (hframes : s.frames = []) (hline : s.line.bind Token.next? = some (t, rest))
    (ht : t.resolve s.dictionary = .ok a)
    (h : Dispatched { s with line := some rest } a (.error e u)) : Advanced s (.error e u)

theorem advance_spec (s : Session) : Advanced s (advance.run s) := by
  -- The cases are those of the step itself: a frame, the end of the line, an unknown token, and a
  -- token whose action is carried out or fails.
  cases hframes : s.frames with
  | cons f below =>
    rw [advance_run_frames hframes]
    simp only [EStateM.run_bind, lift_run]
    cases hstep : (f.step below).run s.machine with
    | error e m => exact .frameFailed hframes hstep
    | ok frames m => exact .frame hframes hstep
  | nil =>
    cases hline : s.line.bind Token.next? with
    | none =>
      rw [advance_run_end hframes hline]
      exact .finished hframes hline
    | some taken =>
      obtain ⟨t, rest⟩ := taken
      cases ht : t.resolve s.dictionary with
      | error e =>
        rw [advance_run_unknown hframes hline ht]
        exact .unknown hframes hline ht
      | ok a =>
        rw [advance_run_token hframes hline ht]
        have hdispatch := dispatch_spec { s with line := some rest } a
        simp only [EStateM.run_bind]
        cases hrun : (dispatch a).run { s with line := some rest } with
        | ok u t =>
          rw [hrun] at hdispatch
          exact .dispatched hframes hline ht hdispatch
        | error e t =>
          rw [hrun] at hdispatch
          exact .refused hframes hline ht hdispatch

/-- Nothing but what is listed comes of a step of the interpreter. -/
theorem Advanced.run_eq {r : EStateM.Result Error Session Bool} (h : Advanced s r) :
    advance.run s = r := by
  cases h with
  | frame hframes h =>
    rw [advance_run_frames hframes]
    simp only [EStateM.run_bind, lift_run, h]
    rfl
  | frameFailed hframes h =>
    rw [advance_run_frames hframes]
    simp only [EStateM.run_bind, lift_run, h]
  | finished hframes hline => exact advance_run_end hframes hline
  | unknown hframes hline ht => exact advance_run_unknown hframes hline ht
  | dispatched hframes hline ht h =>
    rw [advance_run_token hframes hline ht]
    simp only [EStateM.run_bind, h.run_eq]
    rfl
  | refused hframes hline ht h =>
    rw [advance_run_token hframes hline ht]
    simp only [EStateM.run_bind, h.run_eq]

/-! ## The end of a line -/

/-- What a line replies when it ends or has to wait, and the session that it leaves. -/
inductive Stopped (s : Session) : Reply → Session → Prop
  | waiting {w : Wait} (hwait : s.machine.wait = some w) : Stopped s (.ok (.suspended w)) s
  | finished (hwait : s.machine.wait = none) (hframes : s.frames = [])
    (hg : s.gathering = .nothing) : Stopped s (.ok .ok) (({ s with line := none }).print " ok")
  | defining {name : String} {actions : List Action} (hwait : s.machine.wait = none)
    (hframes : s.frames = []) (hg : s.gathering = .definition name actions) :
    Stopped s (.ok .defining) { s with line := none }
  /-- The line ends inside a control structure. -/
  | unclosed {actions : List Action} {depth : Nat} (hwait : s.machine.wait = none)
    (hframes : s.frames = []) (hg : s.gathering = .block actions depth) :
    Stopped s (.error .unbalancedControl) (s.abandon .unbalancedControl).2
  | failed {e : Error} {u : Session} (hwait : s.machine.wait = none)
    (h : Advanced s (.error e u)) : Stopped s (.error e) (u.abandon e).2

/-- A line that does not wait is over. -/
theorem Stopped.line {t : Session} {reply : Reply} (h : Stopped s reply t)
    (hwait : t.machine.wait = none) : t.line = none := by
  cases h with
  | waiting h => exact nomatch hwait.symm.trans h
  | finished _ _ _ | defining _ _ _ | unclosed _ _ _ | failed _ _ => rfl

theorem finishLine_spec (hwait : s.machine.wait = none) (hframes : s.frames = []) :
    Stopped s s.finishLine.1 s.finishLine.2 := by
  unfold finishLine
  split
  · rename_i hg
    exact .unclosed hwait hframes hg
  · rename_i hg
    exact .defining hwait hframes hg
  · rename_i hg
    exact .finished hwait hframes hg

theorem tick_spec (s : Session) :
    match s.tick with
    | .more t => s.machine.wait = none ∧ Advanced s (.ok true t)
    | .done (reply, t) => Stopped s reply t := by
  unfold tick
  cases hwait : s.machine.wait with
  | some w => exact .waiting hwait
  | none =>
    have hadvance := advance_spec s
    cases hrun : advance.run s with
    | error e t =>
      rw [hrun] at hadvance
      exact .failed hwait hadvance
    | ok goesOn t =>
      rw [hrun] at hadvance
      cases hadvance with
      | finished hframes hline => exact finishLine_spec hwait hframes
      | frame hframes h => exact ⟨rfl, .frame hframes h⟩
      | dispatched hframes hline ht h => exact ⟨rfl, .dispatched hframes hline ht h⟩

theorem advanced_of_tick {t : Session} (h : s.tick = .more t) :
    s.machine.wait = none ∧ Advanced s (.ok true t) := by
  have hspec := tick_spec s
  rwa [h] at hspec

theorem stopped_of_tick {t : Session} {reply : Reply} (h : s.tick = .done (reply, t)) :
    Stopped s reply t := by
  have hspec := tick_spec s
  rwa [h] at hspec

theorem Advanced.tick_eq {t : Session} (h : Advanced s (.ok true t))
    (hwait : s.machine.wait = none) : s.tick = .more t := by
  simp only [tick, hwait, h.run_eq]

theorem tick_eq_finishLine (hwait : s.machine.wait = none) (hframes : s.frames = [])
    (hline : s.line.bind Token.next? = none) : s.tick = .done s.finishLine := by
  simp only [tick, hwait, advance_run_end hframes hline]

/-! ## The queued lines -/

/-- What a step of the line in progress and of the queued lines after it comes to. -/
inductive AllStepped (s : Session) : Progress Session (Reply × Session) → Prop
  | more {t : Session} (h : s.tick = .more t) : AllStepped s (.more t)
  /-- The line has to wait, or it was the last one. -/
  | done {t : Session} {reply : Reply} (h : s.tick = .done (reply, t))
    (hrest : t.machine.wait ≠ none ∨ t.machine.queue = []) : AllStepped s (.done (reply, t))
  /-- The line is over, and the next one starts. -/
  | next {t : Session} {reply : Reply} {text : String} {queue : List String}
    (h : s.tick = .done (reply, t)) (hwait : t.machine.wait = none)
    (hqueue : t.machine.queue = text :: queue) :
    AllStepped s (.more ((t.onMachine fun m => { m with queue }).startLine text))

theorem tickAll_spec (s : Session) : AllStepped s s.tickAll := by
  unfold tickAll
  cases htick : s.tick with
  | more t => exact .more htick
  | done r =>
    obtain ⟨reply, t⟩ := r
    cases hwait : t.machine.wait with
    | some w =>
      have hwaiting : t.machine.wait ≠ none := by simp [hwait]
      simp only [hwait]
      exact .done htick (.inl hwaiting)
    | none =>
      cases hqueue : t.machine.queue with
      | nil =>
        simp only [hwait, hqueue]
        exact .done htick (.inr hqueue)
      | cons text queue =>
        simp only [hwait, hqueue]
        exact .next htick hwait hqueue

theorem allStepped_of_tickAll {r : Progress Session (Reply × Session)} (h : s.tickAll = r) :
    AllStepped s r :=
  h ▸ s.tickAll_spec

end Forth.Session
