import Forth.Proofs.Onward

/-!
# The stack frame law

Words take cells off the top of the stacks and put cells there, and the indices of loops are looked
at from the top as well.  So a program sees no further down than it reaches: with extra cells at the
bottom of both stacks, it does the same and leaves the extra cells where they are.  There are two
exceptions.  A program that fails because a stack is too small finds a cell after all when there is
one below, and the word that shows the data stack shows the extra cells as well.

An action is `Oblivious` of a change to its state if it does the same before the change and after
it, unless it fails with an underflow.  The words are oblivious of extra cells, then the frames, the
actions of tokens and the steps of a line are.  A line that fails cuts the return stack down to the
depth of its start, so that depth is raised together with the stack (`Session.raised`).
-/

namespace Forth

/-! ## Actions that do not notice a change -/

/-- The cause is a stack with too few cells. -/
def Error.isUnderflow : Error → Bool
  | stackUnderflow | returnStackUnderflow => true
  | _ => false

/-- The action does the same in a state that is changed by `f`, unless a stack is too small for it
in the state before the change. -/
def Oblivious {σ α : Type} (f : σ → σ) (action : EStateM Error σ α) : Prop :=
  ∀ s, (∀ e t, action.run s = .error e t → e.isUnderflow = false) →
    action.run (f s) = onFinal f (action.run s)

namespace Oblivious

variable {σ α β : Type} {f : σ → σ}

theorem pure (x : α) : Oblivious f (Pure.pure x) :=
  fun _ _ => rfl

theorem throw (e : Error) : Oblivious f (MonadExcept.throw e : EStateM Error σ α) :=
  fun _ _ => rfl

theorem modified {g : σ → σ} (h : ∀ s, g (f s) = f (g s)) :
    Oblivious f (modify g : EStateM Error σ PUnit) := by
  intro s _
  show EStateM.Result.ok _ (g (f s)) = EStateM.Result.ok _ (f (g s))
  rw [h]

theorem bind {action : EStateM Error σ α} {next : α → EStateM Error σ β}
    (h : Oblivious f action) (hnext : ∀ x, Oblivious f (next x)) :
    Oblivious f (action >>= next) := by
  intro s hs
  rw [EStateM.run_bind] at hs
  rw [EStateM.run_bind, EStateM.run_bind]
  have haction : (∀ e t, action.run s = .error e t → e.isUnderflow = false) →
      action.run (f s) = onFinal f (action.run s) := h s
  generalize action.run s = r at hs haction
  cases r with
  | ok x t =>
    rw [haction nofun]
    exact hnext x t hs
  | error e t =>
    rw [haction fun e' t' herror => ?_]
    · rfl
    · obtain ⟨rfl, rfl⟩ := EStateM.Result.error.inj herror
      exact hs e t rfl

end Oblivious

/-! ## Extra cells below -/

theorem Stack.peek?_append {s : Stack} {n : Nat} {cell : Cell} (below : Stack)
    (h : s.peek? n = some cell) : peek? (s ++ below) n = some cell := by
  unfold peek? at h ⊢
  rw [List.getElem?_append_left (List.getElem?_eq_some_iff.1 h).1]
  exact h

theorem Stack.truncate_append_length (s below : Stack) (depth : Nat) :
    truncate (s ++ below) (depth + below.length) = s.truncate depth ++ below := by
  unfold truncate
  rw [List.length_append, Nat.add_sub_add_right, List.drop_append_of_le_length (Nat.sub_le _ _)]

/-- The machine with extra cells at the bottom of both stacks. -/
def Machine.raised (data returns : Stack) (m : Machine) : Machine :=
  { m with data := m.data ++ data, returns := m.returns ++ returns }

/-- Extra cells at the bottom of the stacks make no difference to a word of the host, unless it
fails because a stack is too small. -/
def Exec.Shallow (action : Exec Unit) : Prop :=
  ∀ data returns, Oblivious (Machine.raised data returns) action

section

variable {data returns : Stack}

namespace Exec

theorem pushData_oblivious (n : Cell) :
    Oblivious (Machine.raised data returns) (pushData n) :=
  .modified fun _ => rfl

theorem pushReturn_oblivious (n : Cell) :
    Oblivious (Machine.raised data returns) (pushReturn n) :=
  .modified fun _ => rfl

theorem print_oblivious (text : String) :
    Oblivious (Machine.raised data returns) (print text) :=
  .modified fun _ => rfl

theorem suspend_oblivious (w : Wait) :
    Oblivious (Machine.raised data returns) (suspend w) :=
  .modified fun _ => rfl

theorem popData_oblivious : Oblivious (Machine.raised data returns) popData := by
  intro m hm
  rw [popData_run] at hm ⊢
  rw [popData_run]
  cases hdata : m.data with
  | nil =>
    rw [hdata] at hm
    exact nomatch hm _ _ rfl
  | cons n rest => simp only [Machine.raised, hdata, List.cons_append, onFinal]

theorem popReturn_oblivious : Oblivious (Machine.raised data returns) popReturn := by
  intro m hm
  rw [popReturn_run] at hm ⊢
  rw [popReturn_run]
  cases hreturns : m.returns with
  | nil =>
    rw [hreturns] at hm
    exact nomatch hm _ _ rfl
  | cons n rest => simp only [Machine.raised, hreturns, List.cons_append, onFinal]

theorem peekReturn_oblivious (n : Nat) :
    Oblivious (Machine.raised data returns) (peekReturn n) := by
  intro m hm
  simp only [peekReturn, EStateM.run_bind, EStateM.run_get] at hm ⊢
  cases hpeek : m.returns.peek? n with
  | none =>
    rw [hpeek] at hm
    cases hm _ _ rfl
  | some i =>
    simp only [Machine.raised, Stack.peek?_append returns hpeek]
    rfl

/-- Not to notice extra cells is a property of the pieces that words are put together from. -/
theorem oblivious_compositional :
    CompositionalOnReturns fun action => Oblivious (Machine.raised data returns) action where
  pure := .pure
  bind := .bind
  divisionByZero := .throw _
  invalidAddress := .throw _
  pushData := pushData_oblivious
  popData := popData_oblivious
  peekReturn := peekReturn_oblivious
  print := print_oblivious
  drawRandom _ _ := rfl
  fetch a m _ := pushData_oblivious (m.memory.get a) m nofun
  store _ _ := .modified fun _ => rfl
  allot _ := .modified fun _ => rfl
  pushReturn := pushReturn_oblivious
  popReturn := popReturn_oblivious

end Exec

/-- Every word but the one that shows the data stack. -/
theorem Primitive.run_oblivious {p : Primitive} (hp : p.Allowed Exec.Shallow)
    (hshow : p ≠ printStack) : Oblivious (Machine.raised data returns) p.run := by
  refine p.run_of_compositional Exec.oblivious_compositional.toCompositional
    (fun _ => Exec.oblivious_compositional) (fun _ => Exec.suspend_oblivious)
    (fun h => absurd h hshow) fun action h => ?_
  subst h
  exact hp data returns

/-! ## Control trees and frames -/

theorem Operation.perform_oblivious {operation : Operation}
    (hp : ∀ name p, operation = .invoke name (.primitive p) →
      Oblivious (Machine.raised data returns) p.run) :
    Oblivious (Machine.raised data returns) operation.perform :=
  Operation.perform_of_compositional Exec.oblivious_compositional.toCompositional hp

/-- A step of a frame, with the primitive word that it may have to run. -/
theorem Frame.step_oblivious {f : Frame} (below : List Frame)
    (hp : ∀ name p rest, f = .block (.leaf (.invoke name (.primitive p)) :: rest) →
      Oblivious (Machine.raised data returns) p.run) :
    Oblivious (Machine.raised data returns) (f.step below) :=
  Frame.step_of_compositional Exec.oblivious_compositional below hp

/-! ## Sessions -/

theorem Event.received_raised (e : Event) (m : Machine) :
    e.received (m.raised data returns) = (e.received m).raised data returns := by
  cases e with
  | key code =>
    simp only [Event.received, Machine.recordKey, Machine.raised]
    cases m.memory.addressOf? lastKeyName <;> rfl
  | timer => rfl

end

namespace Session

/-- The session with extra cells at the bottom of both stacks, which are counted to the depth at
which its line started. -/
def raised (data returns : Stack) (s : Session) : Session :=
  { s with
    machine := s.machine.raised data returns
    returnDepth := s.returnDepth + returns.length }

/-- The next step runs the word that shows the data stack. -/
def showsStack (s : Session) : Bool :=
  match s.machine.wait, s.nextPrimitive? with
  | none, some (.printStack, _) => true
  | _, _ => false

/-- The next step fails because a stack is too small. -/
def underflows (s : Session) : Bool :=
  match s.tick with
  | .done (.error e, _) => e.isUnderflow
  | _ => false

section

variable {s t : Session} (data returns : Stack)

theorem abandon_raised (s : Session) (e : Error) :
    (s.raised data returns).abandon e = Prod.map id (raised data returns) (s.abandon e) := by
  simp only [abandon, raised, Machine.raised, Stack.truncate_append_length]
  rfl

theorem finishLine_raised (s : Session) :
    (s.raised data returns).finishLine = Prod.map id (raised data returns) s.finishLine := by
  have habandon := abandon_raised data returns s .unbalancedControl
  have hgathering : (s.raised data returns).gathering = s.gathering := rfl
  unfold finishLine
  rw [hgathering]
  cases s.gathering with
  | block actions depth => exact habandon
  | definition name actions => rfl
  | nothing => rfl

theorem startLine_raised (s : Session) (text : String) :
    (s.raised data returns).startLine text = (s.startLine text).raised data returns := by
  simp only [startLine, raised, Machine.raised, List.length_append]

/-- The action of a token, with the primitive word that it may have to run. -/
theorem Dispatched.raised {a : Action} {r : EStateM.Result Error Session Unit}
    (h : Dispatched s a r)
    (hp : s.gathering = .nothing → ∀ name p, a = .perform (.invoke name (.primitive p)) →
      Oblivious (Machine.raised data returns) p.run)
    (hr : ∀ e t, r = .error e t → e.isUnderflow = false) :
    Dispatched (s.raised data returns) a (onFinal (Session.raised data returns) r) := by
  -- Only an operation that is performed looks at the stacks, and it does the same above the extra
  -- cells because it does not underflow.
  have hperform {operation : Operation} (hg : s.gathering = .nothing)
      (ha : a = .perform operation)
      (hrun : ∀ e m, operation.perform.run s.machine = .error e m → e.isUnderflow = false) :
      operation.perform.run (s.machine.raised data returns) =
        onFinal (Machine.raised data returns) (operation.perform.run s.machine) :=
    Operation.perform_oblivious (fun name p h => hp hg name p (by rw [ha, h])) s.machine hrun
  cases h with
  | gathered hg ha => exact .gathered hg ha
  | defined hg hbody => exact .defined hg hbody
  | undefined hg he => exact .undefined hg he
  | nested hg hdepth => exact .nested hg hdepth
  | closed hg hdepth hbody => exact .closed hg hdepth hbody
  | unbalanced hg hdepth he => exact .unbalanced hg hdepth he
  | performed hg h =>
    have hrun := hperform hg rfl fun e m herror => nomatch h.symm.trans herror
    rw [h] at hrun
    exact .performed hg hrun
  | @failed operation e m hg h =>
    have hrun := hperform hg rfl fun e' m' herror => by
      obtain ⟨rfl, rfl⟩ := EStateM.Result.error.inj (h.symm.trans herror)
      exact hr _ _ rfl
    rw [h] at hrun
    exact .failed hg hrun
  | opened hg hc => exact .opened hg hc
  | misplaced hg hc hname => exact .misplaced hg hc hname
  | colon hg hname => exact .colon hg hname
  | «variable» hg hname => exact .variable hg hname
  | @constant name rest n stack hg hname hdata =>
    have hraised : (s.raised data returns).machine.data = n :: (stack ++ data) := by
      simp only [Session.raised, Machine.raised, hdata, List.cons_append]
    exact .constant hg hname hraised
  -- A constant without a value is an underflow, which is excluded.
  | valueless hg hname hdata => exact nomatch hr _ _ rfl
  | nameless hg hname hline => exact .nameless hg hname hline
  | misnamed hg hname hline => exact .misnamed hg hname hline

theorem Advanced.raised {r : EStateM.Result Error Session Bool} (h : Advanced s r)
    (hp : ∀ p rest, s.nextPrimitive? = some (p, rest) →
      Oblivious (Machine.raised data returns) p.run)
    (hr : ∀ e t, r = .error e t → e.isUnderflow = false) :
    Advanced (s.raised data returns) (onFinal (Session.raised data returns) r) := by
  -- For a frame that runs a primitive word, that word is the one that `nextPrimitive?` tells.
  have hstep {f : Frame} {below : List Frame} (hframes : s.frames = f :: below)
      (hrun : ∀ e m, (f.step below).run s.machine = .error e m → e.isUnderflow = false) :
      (f.step below).run (s.machine.raised data returns) =
        onFinal (Machine.raised data returns) ((f.step below).run s.machine) := by
    have hf : Oblivious (Machine.raised data returns) (f.step below) :=
      Frame.step_oblivious below fun name p rest hf =>
        hp p _ (nextPrimitive?_of_frames (hframes.trans (by rw [hf])))
    exact hf s.machine hrun
  cases h with
  | frame hframes h =>
    have hrun := hstep hframes fun e m herror => nomatch h.symm.trans herror
    rw [h] at hrun
    exact .frame hframes hrun
  | frameFailed hframes h =>
    have hrun := hstep hframes fun e' m' herror => by
      obtain ⟨rfl, rfl⟩ := EStateM.Result.error.inj (h.symm.trans herror)
      exact hr _ _ rfl
    rw [h] at hrun
    exact .frameFailed hframes hrun
  | finished hframes hline => exact .finished hframes hline
  | unknown hframes hline ht => exact .unknown hframes hline ht
  | dispatched hframes hline ht h =>
    have hraised := h.raised data returns (fun hg name p ha =>
      hp p _ (nextPrimitive?_of_token hframes hg hline (ha ▸ ht))) fun _ _ herror => nomatch herror
    exact .dispatched hframes hline ht hraised
  | @refused _ _ _ e u hframes hline ht h =>
    have hraised := h.raised data returns (fun hg name p ha =>
      hp p _ (nextPrimitive?_of_token hframes hg hline (ha ▸ ht))) fun e' t h => by
        obtain ⟨rfl, rfl⟩ := EStateM.Result.error.inj h
        exact hr _ _ rfl
    exact .refused hframes hline ht hraised

/-- Without underflow, a step that does not show the stack does the same with extra cells. -/
theorem tick_raised (hs : s.UsesOnly (Primitive.Allowed Exec.Shallow))
    (hshow : s.showsStack = false) (hunderflow : s.underflows = false) :
    (s.raised data returns).tick =
      s.tick.map (raised data returns) (Prod.map id (raised data returns)) := by
  have hwait : (s.raised data returns).machine.wait = s.machine.wait := rfl
  unfold underflows at hunderflow
  unfold showsStack at hshow
  unfold tick at hunderflow ⊢
  rw [hwait]
  cases hw : s.machine.wait with
  | some w => rfl
  | none =>
    simp only [hw] at hunderflow hshow
    -- The next primitive word is not `.s`, the only one that looks at a whole stack.
    have hp (p : Primitive) (rest : Session) (h : s.nextPrimitive? = some (p, rest)) :
        Oblivious (Machine.raised data returns) p.run := by
      refine Primitive.run_oblivious (nextPrimitive?_usesOnly hs h) ?_
      rintro rfl
      simp [h] at hshow
    have hadvanced := (advance_spec s).raised data returns hp fun e t herror => by
      rw [herror] at hunderflow
      exact hunderflow
    rw [hadvanced.run_eq]
    rcases advance.run s with ⟨_ | _, t⟩ | ⟨e, t⟩
    · exact congrArg Progress.done (finishLine_raised data returns t)
    · rfl
    · exact congrArg Progress.done (abandon_raised data returns t e)

theorem tickAll_raised (hs : s.UsesOnly (Primitive.Allowed Exec.Shallow))
    (hshow : s.showsStack = false) (hunderflow : s.underflows = false) :
    (s.raised data returns).tickAll =
      s.tickAll.map (raised data returns) (Prod.map id (raised data returns)) := by
  have htick := tick_raised data returns hs hshow hunderflow
  have hspec := s.tickAll_spec
  generalize s.tickAll = r at hspec
  cases hspec with
  | more h =>
    rw [h] at htick
    exact tickAll_of_more htick
  | done h hrest =>
    rw [h] at htick
    exact tickAll_of_done htick hrest
  | @next t _ text queue h hwait hqueue =>
    rw [h] at htick
    rw [tickAll_of_queued htick hwait hqueue]
    exact congrArg Progress.more
      (startLine_raised data returns (t.onMachine fun m => { m with queue }) text)

end

/-! ## Calls -/

/-- The calls lead through this session, between two steps of a line. -/
inductive Passes : Session → List Call → Session → Prop
  | line {s v : Session} {text : String} {calls : List Call} (hline : s.line = none)
    (h : Leads tick (s.startLine text) v) : Passes s (.line text :: calls) v
  | event {s v : Session} {e : Event} {calls : List Call} (he : e.answers s.machine.wait)
    (h : Leads tickAll (s.onMachine e.received) v) : Passes s (.event e :: calls) v
  | later {s t v : Session} {c : Call} {calls : List Call} (h : s.Gives c t)
    (rest : Passes t calls v) : Passes s (c :: calls) v

/-- The next step does not show the data stack, and does not fail because a stack is too small. -/
def StaysAbove (s : Session) : Prop :=
  s.showsStack = false ∧ s.underflows = false

instance (s : Session) : Decidable s.StaysAbove :=
  inferInstanceAs (Decidable (_ ∧ _))

variable {s t : Session} (data returns : Stack)

/-- The steps of a line, or of a line and the queued lines after it. -/
theorem ends_raised {step : Session → Progress Session (Reply × Session)} {reply : Reply}
    (hmore : ∀ v w, v.UsesOnly (Primitive.Allowed Exec.Shallow) → step v = .more w →
      w.UsesOnly (Primitive.Allowed Exec.Shallow))
    (hstep : ∀ v, v.UsesOnly (Primitive.Allowed Exec.Shallow) → v.StaysAbove →
      step (v.raised data returns) =
        (step v).map (raised data returns) (Prod.map id (raised data returns)))
    (hs : s.UsesOnly (Primitive.Allowed Exec.Shallow))
    (habove : ∀ v, Leads step s v → v.StaysAbove) (h : Ends step s (reply, t)) :
    Ends step (s.raised data returns) (reply, t.raised data returns) := by
  let I (v : Session) : Prop :=
    v.UsesOnly (Primitive.Allowed Exec.Shallow) ∧ ∀ w, Leads step v w → w.StaysAbove
  have hI (v w : Session) (hv : I v) (hvw : step v = .more w) : I w :=
    ⟨hmore v w hv.1 hvw, fun u hu => hv.2 u (.more hvw hu)⟩
  have hmap (v : Session) (hv : I v) : step (v.raised data returns) =
      (step v).map (raised data returns) (Prod.map id (raised data returns)) :=
    hstep v hv.1 (hv.2 v (.refl v))
  exact (Ends.map_iff hI hmap ⟨hs, habove⟩).2 ⟨(reply, t), h, rfl⟩

theorem ends_tick_raised {reply : Reply} (hs : s.UsesOnly (Primitive.Allowed Exec.Shallow))
    (habove : ∀ v, Leads tick s v → v.StaysAbove) (h : Ends tick s (reply, t)) :
    Ends tick (s.raised data returns) (reply, t.raised data returns) := by
  refine ends_raised data returns (fun v w hv hvw => ?_) (fun v hv habove => ?_) hs habove h
  · have hstep := hv.tick
    rwa [hvw] at hstep
  · exact tick_raised data returns hv habove.1 habove.2

theorem ends_tickAll_raised {reply : Reply} (hs : s.UsesOnly (Primitive.Allowed Exec.Shallow))
    (habove : ∀ v, Leads tickAll s v → v.StaysAbove) (h : Ends tickAll s (reply, t)) :
    Ends tickAll (s.raised data returns) (reply, t.raised data returns) := by
  refine ends_raised data returns (fun v w hv hvw => ?_) (fun v hv habove => ?_) hs habove h
  · exact (Onward.here.stepAll respectsReturns_freely hvw).usesOnly (fun _ hp => hp) hv
  · exact tickAll_raised data returns hv habove.1 habove.2

/-- One call does the same with extra cells and leaves them where they are. -/
theorem answers_raised {c : Call} {reply : Reply}
    (hs : s.UsesOnly (Primitive.Allowed Exec.Shallow))
    (habove : ∀ v, Passes s [c] v → v.StaysAbove) (h : s.Answers c reply t) :
    (s.raised data returns).Answers c reply (t.raised data returns) := by
  cases c with
  | line text =>
    by_cases hline : s.line = none
    · have hline' : (s.raised data returns).line = none := hline
      rw [answers_line_iff hline] at h
      rw [answers_line_iff hline', startLine_raised]
      apply ends_tick_raised data returns (hs.startLine text) _ h
      intro v hv
      exact habove v (.line hline hv)
    · have hline' : (s.raised data returns).line ≠ none := hline
      obtain ⟨rfl, rfl⟩ := (answers_line_of_busy_iff hline).1 h
      exact (answers_line_of_busy_iff hline').2 ⟨rfl, rfl⟩
  | event e =>
    -- Whether an event is taken depends on the wait, which the extra cells leave alone.
    by_cases he : e.answers s.machine.wait
    · have he' : e.answers (s.raised data returns).machine.wait := he
      have hreceived : (s.raised data returns).onMachine e.received =
          (s.onMachine e.received).raised data returns := by
        simp only [onMachine, raised, Event.received_raised]
      rw [answers_event_iff he] at h
      rw [answers_event_iff he', hreceived]
      apply ends_tickAll_raised data returns (hs.onMachine e.received) _ h
      intro v hv
      exact habove v (.event he hv)
    · have he' : ¬ e.answers (s.raised data returns).machine.wait := he
      obtain ⟨rfl, rfl⟩ := (answers_refused_event_iff he).1 h
      exact (answers_refused_event_iff he').2 ⟨rfl, rfl⟩

theorem Passes.of_head {c : Call} {calls : List Call} {v : Session} (h : Passes s [c] v) :
    Passes s (c :: calls) v := by
  cases h with
  | line hline h => exact .line hline h
  | event he h => exact .event he h
  | later _ rest => exact nomatch rest

theorem replies_raised {new : Session} {calls : List Call} {replies : List Reply}
    (hnew : new.UsesOnly (Primitive.Allowed Exec.Shallow))
    (hs : Between (Primitive.Allowed Exec.Shallow) Freely new s)
    (habove : ∀ v, Passes s calls v → v.StaysAbove) (h : Replies s calls replies t) :
    Replies (s.raised data returns) calls replies (t.raised data returns) := by
  induction h with
  | nil s => exact .nil _
  | @cons s u t c calls reply replies h _ ih =>
    have huses := hs.1.usesOnly (fun _ hp => hp) hnew
    have hfirst := answers_raised data returns huses (fun v hv => habove v hv.of_head) h
    have hu : Between (Primitive.Allowed Exec.Shallow) Freely new u := by
      obtain ⟨fuel, hcall⟩ := h
      cases c with
      | line text => exact hs.readLine respectsReturns_freely hcall
      | event e => exact hs.deliver respectsReturns_freely hcall
    exact .cons hfirst (ih hu fun v hv => habove v (.later ⟨reply, h⟩ hv))

/-! ## The statement -/

/-- **Programs only see the cells they reach.**  A host that starts from a new session has come to a
session without a line in progress.  It submits a line and makes any calls after that, and no step
of all this shows the data stack or fails because a stack is too small.  Then the same calls have
the same replies if there are extra cells at the bottom of both stacks, and lead to the same
session with these extra cells at the bottom. -/
theorem programs_see_the_cells_they_reach {random : Nat → UInt64} {new : Session}
    {before : List HostCall} {text : String} {calls : List Call} {replies : List Reply}
    (hnew : new.IsNew random)
    (hrun : HostRun (fun s c => c.Within (Primitive.Allowed Exec.Shallow) Freely s) new before s)
    (hline : s.line = none) (habove : ∀ v, Passes s (.line text :: calls) v → v.StaysAbove)
    (h : Replies s (.line text :: calls) replies t) (data returns : Stack) :
    Replies { s with machine := s.machine.raised data returns } (.line text :: calls) replies
      (t.raised data returns) := by
  have hs := hrun.between respectsReturns_freely hnew
  have hraised := replies_raised data returns (allowed_withPrimitives _ random) hs habove h
  -- The depth at which an earlier line started makes no difference to the one that starts now.
  cases hraised with
  | cons hfirst hrest =>
    have hline' : (s.raised data returns).line = none := hline
    have hline'' :
        ({ s with machine := s.machine.raised data returns } : Session).line = none := hline
    rw [answers_line_iff hline'] at hfirst
    exact .cons ((answers_line_iff hline'').2 hfirst) hrest

/-! ## Calls that stay above, by computation -/

/-- Makes a call, as long as every session that it passes stays above. -/
def callAbove (s : Session) (fuel : Nat) : Call → Option (Reply × Session)
  | .line text =>
    if s.line = none then runWhile StaysAbove tick fuel (s.startLine text) else none
  | .event e =>
    if e.answers s.machine.wait then runWhile StaysAbove tickAll fuel (s.onMachine e.received)
    else none

/-- Makes calls one after the other, as long as every session that they pass stays above. -/
def callAllAbove (s : Session) (fuel : Nat) : List Call → Option (List Reply × Session)
  | [] => some ([], s)
  | c :: calls => do
    let (reply, s) ← s.callAbove fuel c
    let (replies, s) ← s.callAllAbove fuel calls
    return (reply :: replies, s)

theorem answers_of_callAbove {fuel : Nat} {c : Call} {reply : Reply}
    (h : s.callAbove fuel c = some (reply, t)) :
    s.Answers c reply t ∧ ∀ calls v, Passes s (c :: calls) v → v.StaysAbove ∨ Passes t calls v := by
  cases c with
  | line text =>
    simp only [callAbove, Option.ite_none_right_eq_some] at h
    obtain ⟨hline, hrun⟩ := h
    obtain ⟨hends, habove⟩ := ends_of_runWhile hrun
    have hanswers := (answers_line_iff hline).2 hends
    refine ⟨hanswers, fun calls v hv => ?_⟩
    cases hv with
    | line _ hleads => exact .inl (habove v hleads)
    | later hgives rest => exact .inr (hgives.unique ⟨reply, hanswers⟩ ▸ rest)
  | event e =>
    simp only [callAbove, Option.ite_none_right_eq_some] at h
    obtain ⟨he, hrun⟩ := h
    obtain ⟨hends, habove⟩ := ends_of_runWhile hrun
    have hanswers := (answers_event_iff he).2 hends
    refine ⟨hanswers, fun calls v hv => ?_⟩
    cases hv with
    | event _ hleads => exact .inl (habove v hleads)
    | later hgives rest => exact .inr (hgives.unique ⟨reply, hanswers⟩ ▸ rest)

theorem replies_of_callAllAbove {fuel : Nat} {calls : List Call} {replies : List Reply}
    (h : s.callAllAbove fuel calls = some (replies, t)) :
    Replies s calls replies t ∧ ∀ v, Passes s calls v → v.StaysAbove := by
  induction calls generalizing s replies with
  | nil =>
    obtain ⟨rfl, rfl⟩ := Prod.mk.inj (Option.some.inj h)
    exact ⟨.nil s, nofun⟩
  | cons c calls ih =>
    simp only [callAllAbove, Option.bind_eq_bind, Option.bind_eq_some_iff, Prod.exists,
      Option.pure_def, Option.some.injEq, Prod.mk.injEq] at h
    obtain ⟨reply, u, hfirst, rest, v, hrest, rfl, rfl⟩ := h
    obtain ⟨hanswers, hpasses⟩ := answers_of_callAbove hfirst
    obtain ⟨hreplies, habove⟩ := ih hrest
    refine ⟨.cons hanswers hreplies, fun w hw => ?_⟩
    exact (hpasses calls w hw).elim id (habove w)

/-- The loop keeps its index on the return stack while it waits for keys.  After it, the line leaves
a cell there and fails, so that the return stack is cut down to the extra cell. -/
theorem programs_see_the_cells_they_reach_keys :
    ∃ t, Replies
        { withPrimitives fun _ => 0 with
          machine := (withPrimitives fun _ => 0).machine.raised [7] [8] }
        [.line "2 0 do key i + loop >r 1 0 /", .event (.key 65), .event (.key 65)]
        [.ok (.suspended .key), .ok (.suspended .key), .error .divisionByZero] t ∧
      t.machine.data = [65, 7] ∧ t.machine.returns = [8] := by
  have hrun : ((withPrimitives fun _ => 0).callAllAbove 40
      [.line "2 0 do key i + loop >r 1 0 /", .event (.key 65), .event (.key 65)]).any
      (fun (replies, t) =>
        replies = [.ok (.suspended .key), .ok (.suspended .key), .error .divisionByZero] ∧
        t.machine.data = [65] ∧ t.machine.returns = []) = true := by
    decide +kernel
  obtain ⟨⟨replies, t⟩, hcalls, ht⟩ := (Option.any_eq_true _ _).1 hrun
  obtain ⟨rfl, hdata, hreturns⟩ := of_decide_eq_true ht
  obtain ⟨hreplies, habove⟩ := replies_of_callAllAbove hcalls
  refine ⟨t.raised [7] [8], programs_see_the_cells_they_reach (.inl rfl) (.nil _) rfl habove
    hreplies [7] [8], ?_, ?_⟩
  · show t.machine.data ++ [7] = [65, 7]
    rw [hdata]
    rfl
  · show t.machine.returns ++ [8] = [8]
    rw [hreturns]
    rfl

end Session

end Forth
