import Forth.Proofs.DefinitionLine

/-!
# A direct line and a compiled body side by side

A line that is interpreted directly takes effect token by token, and each control structure outside
of definitions is compiled by itself once it is closed.  The same tokens as the body of a word are
compiled all at once.  This file runs both side by side.

The two sessions are in step (`InStep`) whenever the direct line has come exactly as far as the
body: the same frames are to be run, and what is left of the line compiles to what is left of the
body.  From there either both run the same action, or both are through (`InStep.matched`).  As they
print the same from different outputs, the words of the host must not look at what has been printed
(`Exec.Discreet`).
-/

namespace Forth

/-- The frames below have no part in a step. -/
theorem Frame.step_below (f : Frame) (below : List Frame) :
    f.step below = (do return (← f.step []) ++ below) := by
  rw [← map_eq_pure_bind]
  cases f with
  | block rest => cases rest <;> simp [Frame.step]
  | counted body byStep index limit ascending =>
    simp only [Frame.step, map_bind, apply_ite (Functor.map _), map_pure, List.nil_append,
      List.cons_append]
  | untilTrue body =>
    simp only [Frame.step, map_bind, apply_ite (Functor.map _), map_pure, List.nil_append,
      List.cons_append]

/-! ## Machines that print the same -/

theorem Output.print_empty (o : Output) : o.print "" = o := by
  obtain ⟨console, host⟩ := o
  cases host <;> simp [Output.print]

theorem Output.print_print (o : Output) (text text' : String) :
    (o.print text).print text' = o.print (text ++ text') := by
  obtain ⟨console, host⟩ := o
  cases host <;> simp [Output.print, String.append_assoc]

/-- Both machines have printed the same since these were their outputs.  Otherwise they are equal,
and no lines are queued. -/
def Printed (o o' : Output) (m m' : Machine) : Prop :=
  m.queue = [] ∧ ∃ text, m.output = o.print text ∧ m' = { m with output := o'.print text }

section

variable {o o' : Output}

theorem Printed.queues {m m' : Machine} (h : Printed o o' m m') : m.queue = [] ∧ m'.queue = [] := by
  obtain ⟨hqueue, text, -, rfl⟩ := h
  exact ⟨hqueue, hqueue⟩

theorem Printed.congruence : Congruence (Printed o o') where
  -- Only what was printed differs, and no action of the machine looks at it.
  data := by
    rintro m _ ⟨-, text, -, rfl⟩
    rfl
  returns := by
    rintro m _ ⟨-, text, -, rfl⟩
    rfl
  memory := by
    rintro m _ ⟨-, text, -, rfl⟩
    rfl
  random := by
    rintro m _ ⟨-, text, -, rfl⟩
    rfl
  wait := by
    rintro m _ ⟨-, text, -, rfl⟩
    rfl
  setData := by
    rintro m _ data ⟨hqueue, text, htext, rfl⟩
    exact ⟨hqueue, text, htext, rfl⟩
  setReturns := by
    rintro m _ returns ⟨hqueue, text, htext, rfl⟩
    exact ⟨hqueue, text, htext, rfl⟩
  setMemory := by
    rintro m _ memory ⟨hqueue, text, htext, rfl⟩
    exact ⟨hqueue, text, htext, rfl⟩
  setRandom := by
    rintro m _ random ⟨hqueue, text, htext, rfl⟩
    exact ⟨hqueue, text, htext, rfl⟩
  print := by
    rintro m _ text' ⟨hqueue, text, htext, rfl⟩
    refine ⟨hqueue, text ++ text', ?_, ?_⟩
    · rw [htext, Output.print_print]
    · rw [Output.print_print]

theorem Printed.survivesWait : SurvivesWait (Printed o o') := by
  rintro w m _ ⟨hqueue, text, htext, rfl⟩
  exact ⟨hqueue, text, htext, rfl⟩

theorem Printed.received {m m' : Machine} (h : Printed o o' m m') (e : Event) :
    Printed o o' (e.received m) (e.received m') := by
  obtain ⟨hqueue, text, htext, rfl⟩ := h
  cases e with
  | key code =>
    simp only [Event.received, Machine.recordKey]
    cases m.memory.addressOf? lastKeyName with
    | none => exact ⟨hqueue, text, htext, rfl⟩
    | some a => exact ⟨hqueue, text, htext, rfl⟩
  | timer => exact ⟨hqueue, text, htext, rfl⟩

/-- The action may print, but what it does and what it prints does not depend on what has been
printed before; and it submits no lines. -/
structure Exec.Discreet (action : Exec Unit) : Prop where
  queue : action.Keeps Machine.queue
  output (m : Machine) : ∃ text, ∀ output : Output,
    action.run { m with output } =
      onFinal (fun m => { m with output := output.print text }) (action.run m)

theorem Exec.Discreet.respects {action : Exec Unit} (h : action.Discreet) :
    Respects (Printed o o') Anything action := by
  rintro m _ ⟨hqueue, text, htext, rfl⟩
  have hkeeps := h.queue m
  obtain ⟨printed, hprinted⟩ := h.output m
  have hsame := hprinted m.output
  change action.run m = _ at hsame
  rw [hprinted (o'.print text)]
  cases hrun : action.run m with
  | ok x t =>
    rw [hrun] at hkeeps hsame
    have ht : t.output = m.output.print printed :=
      congrArg Machine.output (EStateM.Result.ok.inj hsame).2
    refine .ok trivial ⟨hkeeps.trans hqueue, text ++ printed, ?_, ?_⟩
    · rw [ht, htext, Output.print_print]
    · rw [Output.print_print]
  | error e t =>
    rw [hrun] at hkeeps hsame
    have ht : t.output = m.output.print printed :=
      congrArg Machine.output (EStateM.Result.error.inj hsame).2
    refine .error ⟨hkeeps.trans hqueue, text ++ printed, ?_, ?_⟩
    · rw [ht, htext, Output.print_print]
    · rw [Output.print_print]

end

open Token (tokens Resolve)

namespace Session

/-- The words of the language, and words of the host that are discreet. -/
abbrev Discreet : Primitive → Prop :=
  Primitive.Allowed Exec.Discreet

theorem Discreet.keeps_queue (p : Primitive) (hp : Discreet p) : p.run.Keeps Machine.queue :=
  Primitive.Allowed.keeps_queue (fun _ h => h.queue) hp

theorem Discreet.respects {o o' : Output} {p : Primitive} (hp : Discreet p) :
    Respects (Printed o o') Anything p.run := by
  refine p.respects Printed.congruence (fun _ => Printed.survivesWait) fun action h => ?_
  subst h
  exact Exec.Discreet.respects hp

/-! ## Steps that run an action -/

/-- A step that runs an action and schedules the frames that it tells. -/
def stepInto (s : Session) (action : Exec (List Frame)) (below : List Frame) :
    Progress Session (Reply × Session) :=
  match action.run s.machine with
  | .ok frames machine => .more { s with machine, frames := frames ++ below }
  | .error e machine => .done ({ s with machine }.abandon e)

theorem tick_of_frame {s : Session} {f : Frame} {below : List Frame}
    (hwait : s.machine.wait = none) (hframes : s.frames = f :: below) :
    s.tick = s.stepInto (f.step []) below := by
  unfold tick stepInto
  simp only [hwait]
  rw [advance_run_frames hframes]
  simp only [Frame.step_below f below, EStateM.run_bind, lift_run]
  -- A step that fails leaves its frames behind, but they go when the line is abandoned.
  cases (f.step []).run s.machine <;> rfl

theorem tick_of_tree {s : Session} {t : Tree} {rest : Body} {below : List Frame}
    (hwait : s.machine.wait = none) (hframes : s.frames = .block (t :: rest) :: below) :
    s.tick = s.stepInto t.enter (.block rest :: below) := by
  unfold tick stepInto
  simp only [hwait]
  rw [advance_run_frames hframes]
  simp only [Frame.step, EStateM.run_bind, lift_run]
  cases t.enter.run s.machine <;> rfl

theorem tick_of_finished {s : Session} {below : List Frame} (hwait : s.machine.wait = none)
    (hframes : s.frames = .block [] :: below) : s.tick = .more { s with frames := below } := by
  rw [tick_of_frame hwait hframes]
  rfl

/-- A token whose action is an operation is performed at once. -/
theorem tick_of_next {s : Session} {token : Token} {rest : List Char} {operation : Operation}
    (hwait : s.machine.wait = none) (hframes : s.frames = []) (hg : s.gathering = .nothing)
    (hnext : s.line.bind Token.next? = some (token, rest))
    (htoken : token.resolve s.dictionary = .ok (.perform operation)) :
    s.tick = stepInto { s with line := some rest } operation.perform [] := by
  unfold tick
  simp only [hwait]
  rw [advance_run_token hframes hnext htoken]
  simp only [dispatch, EStateM.run_bind, EStateM.run_get, hg, dispatchDirect, lift_run, stepInto]
  cases operation.perform.run s.machine with
  | ok frames m => simp only [schedule, EStateM.run_modify, EStateM.run_pure, hframes]
  | error e m => rfl

theorem tick_of_operation {s : Session} {l : List Char} {t : Token} {ts : List Token}
    {operation : Operation} (hwait : s.machine.wait = none) (hframes : s.frames = [])
    (hgathering : s.gathering = .nothing) (hline : s.line = some l) (hts : Token.tokens l = t :: ts)
    (ht : t.resolve s.dictionary = .ok (.perform operation)) :
    ∃ rest, Token.tokens rest = ts ∧
      s.tick = stepInto { s with line := some rest } operation.perform [] := by
  obtain ⟨rest, hnext, hrest⟩ := Token.next?_of_tokens_cons hts
  have hfirst : s.line.bind Token.next? = some (t, rest) := by rw [hline, Option.bind_some, hnext]
  exact ⟨rest, hrest, tick_of_next hwait hframes hgathering hfirst ht⟩

/-! ## A control structure outside of definitions -/

/-- A control structure is gathered up to the action that closes it, and then scheduled as a single
tree.  What follows it is compiled as if it stood alone. -/
theorem leads_structure {s : Session} {l : List Char} {c : Construction} {body : Body}
    {gathered actions : List Action} (hwait : s.machine.wait = none) (hframes : s.frames = [])
    (hgathering : s.gathering = .block gathered c.enclosing.length) (hrooted : c.Rooted)
    (hgathered : gathered.foldlM Construction.feed .empty = .ok c) (hline : s.line = some l)
    (hactions : Resolve s.dictionary (tokens l) actions)
    (hcompile : c.compileRest actions = .ok body) :
    ∃ l' tree actions' rest,
      Leads tick s
        { s with line := some l', gathering := .nothing, frames := [.block [tree]] } ∧
      Resolve s.dictionary (tokens l') actions' ∧ compile actions' = .ok rest ∧
      body = tree :: rest := by
  generalize hts : tokens l = ts at hactions
  -- What is gathered is always the construction `c`, and the count is the number of its open
  -- structures.
  induction ts generalizing s l c gathered actions with
  | nil =>
    obtain rfl := hactions.nil
    have hopen : c.enclosing.isEmpty = false := by simpa using hrooted.enclosing_ne_nil
    rw [Construction.compileRest_nil, Construction.finish, hopen] at hcompile
    exact nomatch hcompile
  | cons t ts ih =>
    obtain ⟨a, actions, rfl, ha, hrestActions⟩ := hactions.cons
    obtain ⟨rest, hrest, htick⟩ := tick_of_token hwait hframes hline hts ha
    obtain ⟨c', hfeed, hcompile⟩ := Construction.compileRest_cons_ok hcompile
    have hdepth := Construction.depthAfter_of_feed hfeed
    have hgathered' : (gathered ++ [a]).foldlM Construction.feed .empty = .ok c' := by
      rw [List.foldlM_append, hgathered]
      simp only [List.foldlM_cons, List.foldlM_nil, bind_pure]
      exact hfeed
    obtain hrooted' | ⟨tree, rfl⟩ := hrooted.feed hfeed
    · have hmore : s.tick = .more { s with
          line := some rest, gathering := .block (gathered ++ [a]) c'.enclosing.length } := by
        have hopen : c'.enclosing.length ≠ 0 := by
          simpa using hrooted'.enclosing_ne_nil
        rw [htick]
        simp only [dispatch, EStateM.run_bind, EStateM.run_get, hgathering, dispatchGathering,
          hdepth, if_neg hopen, gather, EStateM.run_modify]
      obtain ⟨l', tree, actions', body', hleads, hresolve, hcompile', hbody⟩ :=
        ih (s := { s with
          line := some rest, gathering := .block (gathered ++ [a]) c'.enclosing.length })
          hwait hframes rfl hrooted' hgathered' rfl hcompile hrest hrestActions
      exact ⟨l', tree, actions', body', .more hmore hleads, hresolve, hcompile', hbody⟩
    · obtain ⟨body', hcompile', hbody⟩ := Construction.compileRest_top hcompile
      have hclosed : compile (gathered ++ [a]) = .ok [tree] := by
        rw [compile, hgathered']
        rfl
      have hmore : s.tick = .more { s with
          line := some rest, gathering := .nothing, frames := [.block [tree]] } := by
        rw [htick]
        simp only [dispatch, EStateM.run_bind, EStateM.run_get, hgathering, dispatchGathering,
          hdepth, List.length_nil, if_pos, gather, EStateM.run_modify, hclosed, schedule, hframes,
          List.append_nil]
      exact ⟨rest, tree, actions, body', .one hmore, hrest ▸ hrestActions, hcompile', hbody⟩

/-! ## Side by side -/

/-- The second session has one more entry in its dictionary.  Nothing is being gathered, and the
machines have printed the same since their outputs were `o` and `o'`. -/
structure Beside (o o' : Output) (entry : String × Meaning) (t u : Session) : Prop where
  machine : Printed o o' t.machine u.machine
  dictionary : u.dictionary = entry :: t.dictionary
  returnDepth : u.returnDepth = t.returnDepth
  lastError : u.lastError = t.lastError
  direct : t.gathering = .nothing
  called : u.gathering = .nothing

/-- What the first session is still to do with its line, the second one is still to do with the body
of a word: both have these frames to run, and then the actions on the line and the `rest` of the
body, to which these actions compile. -/
structure Remaining (frames : List Frame) (rest : Body) (t u : Session) : Prop where
  /-- A control structure outside of definitions leaves an empty block behind. -/
  direct : ∃ finished, (finished = [] ∨ finished = [.block []]) ∧ t.frames = frames ++ finished
  called : u.frames = frames ++ [.block rest]
  uses : Frame.AllUseOnly Discreet u.frames
  line : ∃ l actions, t.line = some l ∧ Resolve t.dictionary (tokens l) actions ∧
    compile actions = .ok rest
  ended : ∃ l, u.line = some l ∧ tokens l = []

section

variable (o o' : Output) (entry : String × Meaning)

/-- The direct line and the word have come equally far. -/
def InStep (t u : Session) : Prop :=
  Beside o o' entry t u ∧ ∃ frames rest, Remaining frames rest t u

/-- The same reply, with sessions that are in step if they have to wait. -/
def Together (r r' : Reply × Session) : Prop :=
  r'.1 = r.1 ∧ Beside o o' entry r.2 r'.2 ∧
    (r.2.machine.wait ≠ none → InStep o o' entry r.2 r'.2)

end

section

variable {o o' : Output} {entry : String × Meaning} {t u : Session}

theorem Beside.wait (h : Beside o o' entry t u) : u.machine.wait = t.machine.wait :=
  Printed.congruence.wait h.machine

theorem Beside.abandon (h : Beside o o' entry t u) (e : Error) :
    Together o o' entry (t.abandon e) (u.abandon e) := by
  have hreturns : u.machine.returns = t.machine.returns := Printed.congruence.returns h.machine
  have hmachine := Printed.congruence.print (" " ++ e.message)
    (Printed.congruence.setReturns (t.machine.returns.truncate t.returnDepth)
      (Printed.survivesWait none _ _ h.machine))
  have hbeside : Beside o o' entry (t.abandon e).2 (u.abandon e).2 := by
    refine ⟨?_, h.dictionary, h.returnDepth, rfl, rfl, rfl⟩
    simp only [Session.abandon, hreturns, h.returnDepth]
    exact hmachine
  exact ⟨rfl, hbeside, fun hwait => absurd rfl hwait⟩

theorem Beside.finishLine (h : Beside o o' entry t u) (hwait : t.machine.wait = none) :
    Together o o' entry t.finishLine u.finishLine := by
  have hmachine := Printed.congruence.print " ok" h.machine
  simp only [Session.finishLine, h.direct, h.called]
  exact ⟨rfl, ⟨hmachine, h.dictionary, h.returnDepth, h.lastError, rfl, rfl⟩,
    fun hne => absurd hwait hne⟩

/-- If both sessions have to run the same action next, they go on together. -/
theorem Beside.matched_stepInto {t₀ t' u' : Session} {action : Exec (List Frame)}
    {below below' : List Frame} (h : Beside o o' entry t' u') (hleads : Leads tick t₀ t)
    (ht : t.tick = t'.stepInto action below) (hu : u.tick = u'.stepInto action below')
    (haction : Respects (Printed o o') (Frame.AllUseOnly Discreet) action)
    (hnext : ∀ frames m m', Frame.AllUseOnly Discreet frames →
      ∃ frames' rest, Remaining frames' rest
        { t' with machine := m, frames := frames ++ below }
        { u' with machine := m', frames := frames ++ below' }) :
    Matched tick tick (InStep o o' entry) (Together o o' entry) t₀ u := by
  have hrun := haction _ _ h.machine
  unfold stepInto at ht hu
  generalize action.run t'.machine = r, action.run u'.machine = r' at hrun ht hu
  cases hrun with
  | @ok frames m m' hframes hmachine =>
    refine .inl ⟨_, _, hleads.trans_advances (.one ht), .one hu, ?_, hnext frames m m' hframes⟩
    exact ⟨hmachine, h.dictionary, h.returnDepth, h.lastError, h.direct, h.called⟩
  | @error e m m' hmachine =>
    refine .inr ⟨_, _, hleads.ends_iff.2 (.done ht), .done hu, ?_⟩
    have hfailed : Beside o o' entry { t' with machine := m } { u' with machine := m' } :=
      ⟨hmachine, h.dictionary, h.returnDepth, h.lastError, h.direct, h.called⟩
    exact hfailed.abandon e

/-! ### One step side by side -/

/-- The frames that are still to be run take the same step. -/
theorem Beside.matched_frame {f : Frame} {frames : List Frame} {rest : Body}
    (h : Beside o o' entry t u) (hleft : Remaining (f :: frames) rest t u)
    (hwait : t.machine.wait = none) :
    Matched tick tick (InStep o o' entry) (Together o o' entry) t u := by
  obtain ⟨⟨finished, hfinished, hframes⟩, hcalled, huses, hline, hended⟩ := hleft
  rw [hcalled] at huses
  have hf : f.UsesOnly Discreet := huses f (.head _)
  have hstep : Respects (Printed o o') (Frame.AllUseOnly Discreet) (f.step []) := by
    refine hf.step_respects Printed.congruence .nil fun name p rest heq => ?_
    subst heq
    exact (hf _ (.head _)).operation.word.respects
  refine h.matched_stepInto (.refl t) (tick_of_frame hwait hframes)
    (tick_of_frame (h.wait.trans hwait) hcalled) hstep fun next m m' hnext => ?_
  refine ⟨next ++ frames, rest, ⟨finished, hfinished, ?_⟩, ?_, ?_, hline, hended⟩
  · exact (List.append_assoc next frames finished).symm
  · exact (List.append_assoc next frames _).symm
  · exact hnext.append fun g hg => huses g (.tail _ hg)

/-- Once the frames are run, the direct line is about to take its next token. -/
theorem Remaining.leads {rest : Body} (h : Remaining [] rest t u)
    (hwait : t.machine.wait = none) : Leads tick t { t with frames := [] } := by
  obtain ⟨finished, hfinished, hframes⟩ := h.direct
  obtain rfl | rfl := hfinished
  · have hsame : { t with frames := [] } = t := by
      change t.frames = [] at hframes
      rw [← hframes]
    rw [hsame]
    exact .refl t
  · exact .one (tick_of_finished hwait hframes)

/-- At its end, the body of the word is finished too, and both lines end. -/
theorem Beside.matched_end {l : List Char} (h : Beside o o' entry t u)
    (hleft : Remaining [] [] t u) (hwait : t.machine.wait = none) (hline : t.line = some l)
    (hts : tokens l = []) :
    Matched tick tick (InStep o o' entry) (Together o o' entry) t u := by
  have hwait' : u.machine.wait = none := h.wait.trans hwait
  obtain ⟨l', hline', hl'⟩ := hleft.ended
  have hend := tick_of_end (s := { t with frames := [] }) hwait rfl hline hts
  have hend' := tick_of_end (s := { u with frames := [] }) hwait' rfl hline' hl'
  have hlast : Beside o o' entry { t with frames := [] } { u with frames := [] } :=
    ⟨h.machine, h.dictionary, h.returnDepth, h.lastError, h.direct, h.called⟩
  exact .inr ⟨_, _, (hleft.leads hwait).ends_iff.2 (.done hend),
    .more (tick_of_finished hwait' hleft.called) (.done hend'), hlast.finishLine hwait⟩

/-- Both sessions begin the next tree of the body. -/
theorem Beside.matched_tree {t₁ t' : Session} {tree : Tree} {rest : Body} {finished : List Frame}
    {l : List Char} {actions : List Action} (h : Beside o o' entry t' u)
    (hleft : Remaining [] (tree :: rest) t u) (hwait : u.machine.wait = none)
    (hleads : Leads tick t t₁) (htick : t₁.tick = t'.stepInto tree.enter finished)
    (hfinished : finished = [] ∨ finished = [.block []]) (hline : t'.line = some l)
    (hactions : Resolve t'.dictionary (tokens l) actions) (hcompile : compile actions = .ok rest) :
    Matched tick tick (InStep o o' entry) (Together o o' entry) t u := by
  have huses := hleft.uses
  rw [hleft.called] at huses
  have hbody : Body.UsesOnly Discreet (tree :: rest) := huses _ (.head _)
  have htree : tree.UsesOnly Discreet := hbody tree (.head _)
  have hrest : Frame.UsesOnly Discreet (.block rest) := fun x hx => hbody x (.tail _ hx)
  have henter : Respects (Printed o o') (Frame.AllUseOnly Discreet) tree.enter := by
    refine htree.enter_respects Printed.congruence fun name p heq => ?_
    subst heq
    exact htree.operation.word.respects
  refine h.matched_stepInto hleads htick (tick_of_tree hwait hleft.called) henter
    fun frames m m' hframes => ?_
  exact ⟨frames, rest, ⟨finished, hfinished, rfl⟩, rfl, hframes.append (.cons hrest .nil),
    ⟨l, actions, hline, hactions, hcompile⟩, hleft.ended⟩

/-- An opening word begins a control structure. -/
theorem tick_of_opener {s : Session} {l : List Char} {token : Token} {ts : List Token} {c : Control}
    (hwait : s.machine.wait = none) (hframes : s.frames = []) (hgathering : s.gathering = .nothing)
    (hline : s.line = some l) (hts : tokens l = token :: ts)
    (htoken : token.resolve s.dictionary = .ok (.control c)) (hc : c.isOpener = true) :
    ∃ rest, tokens rest = ts ∧
      s.tick = .more { s with line := some rest, gathering := .block [.control c] 1 } := by
  obtain ⟨rest, hrest, htick⟩ := tick_of_token hwait hframes hline hts htoken
  refine ⟨rest, hrest, ?_⟩
  rw [htick]
  simp only [dispatch, EStateM.run_bind, EStateM.run_get, hgathering]
  cases c with
  | «if» | «do» | begin => rfl
  | _ => simp [Control.isOpener] at hc

/-- Sessions that are in step go on together. -/
theorem InStep.matched (h : InStep o o' entry t u) :
    Matched tick tick (InStep o o' entry) (Together o o' entry) t u := by
  obtain ⟨hbeside, frames, rest, hleft⟩ := h
  cases hwait : t.machine.wait with
  | some w =>
    have hwait' : u.machine.wait = some w := hbeside.wait.trans hwait
    refine .inr ⟨_, _, .done (tick_of_wait hwait), .done (tick_of_wait hwait'), rfl, hbeside, ?_⟩
    exact fun _ => ⟨hbeside, frames, rest, hleft⟩
  | none =>
    cases frames with
    | cons f frames => exact hbeside.matched_frame hleft hwait
    | nil =>
      have hwait' : u.machine.wait = none := hbeside.wait.trans hwait
      have hleads := hleft.leads hwait
      obtain ⟨l, actions, hline, hactions, hcompile⟩ := hleft.line
      generalize hts : tokens l = ts at hactions
      cases ts with
      | nil =>
        obtain rfl := hactions.nil
        obtain rfl : [] = rest := Except.ok.inj hcompile
        exact hbeside.matched_end hleft hwait hline hts
      | cons token ts =>
        obtain ⟨a, following, rfl, ha, hfollowing⟩ := hactions.cons
        cases a with
        | perform operation =>
          obtain ⟨rest, hrest, rfl⟩ := compile_perform hcompile
          obtain ⟨l', hl', htick⟩ := tick_of_operation (s := { t with frames := [] }) hwait rfl
            hbeside.direct hline hts ha
          have hnext : Beside o o' entry { t with frames := [], line := some l' } u :=
            ⟨hbeside.machine, hbeside.dictionary, hbeside.returnDepth, hbeside.lastError,
              hbeside.direct, hbeside.called⟩
          exact hnext.matched_tree hleft hwait' hleads htick (.inl rfl)
            rfl (hl' ▸ hfollowing) hrest
        | control c =>
          -- The direct line gathers the whole structure before the word takes its next step.
          obtain ⟨first, hfeed, hopened⟩ := Construction.compileRest_cons_ok hcompile
          obtain ⟨hopener, hrooted, hlength⟩ := Construction.rooted_of_feed_empty hfeed
          obtain ⟨l', hl', htick⟩ := tick_of_opener (s := { t with frames := [] }) hwait rfl
            hbeside.direct hline hts ha hopener
          have hfirst : [Action.control c].foldlM Construction.feed .empty = .ok first := by
            simpa only [List.foldlM_cons, List.foldlM_nil, bind_pure] using hfeed
          obtain ⟨l'', tree, outside, rest, hgather, houtside, hrest, rfl⟩ := leads_structure
            (s := { t with
              frames := [], line := some l', gathering := .block [.control c] 1 })
            hwait rfl (by rw [hlength]) hrooted hfirst rfl (hl' ▸ hfollowing) hopened
          have hnext : Beside o o' entry
              { t with line := some l'', gathering := .nothing, frames := [.block [tree]] } u :=
            ⟨hbeside.machine, hbeside.dictionary, hbeside.returnDepth, hbeside.lastError, rfl,
              hbeside.called⟩
          exact hnext.matched_tree hleft hwait' (hleads.trans (.more htick hgather))
            (tick_of_tree hwait rfl) (.inr rfl) rfl houtside hrest

end

end Session

end Forth
