import Forth.Proofs.Guarded
import Forth.Proofs.Onward

/-!
# The interpreter among its guards

Everything that the interpreter works on has an image among the looser types of the interpreter with
guards, and what both do agrees along these images, function by function: compiling
(`compile_guarded`), running trees (`Tree.enter_guarded`, `Frame.task_guarded`), resolving tokens
(`Token.resolve_guarded`), what the action of a token does (`Images`), and the whole step of a line
(`tick_guarded`).  The images stop at no guard, so the other interpreter stops at none as long as it
works on images, and it does from a new session on (`withPrimitives_guarded`).

Only the count of open structures needs an invariant.  Both interpreters count alike as long as the
count is not zero while a structure is gathered (`Counts`), which every step keeps
(`Onward.counts`).
-/

namespace Forth

open Guarded (Stop ofExec)

/-! ## Images -/

mutual

def Definition.guarded : Definition → Guarded.Definition
  | .primitive action => .primitive action
  | .compiled body => .compiled (Tree.allGuarded body)
  | .value n => .value n

def Operation.guarded : Operation → Guarded.Action
  | .number n => .number n
  | .string text => .string text
  | .invoke name word => .invoke name word.guarded

def Tree.guarded : Tree → Guarded.Tree
  | .leaf operation => .leaf operation.guarded
  | .branch consequent alternative =>
    .branch (Tree.allGuarded consequent) (Tree.allGuarded alternative)
  | .counted body byStep => .counted (Tree.allGuarded body) byStep
  | .untilTrue body => .untilTrue (Tree.allGuarded body)

def Tree.allGuarded : List Tree → List Guarded.Tree
  | [] => []
  | t :: rest => t.guarded :: Tree.allGuarded rest

end

def Body.guarded (body : Body) : Guarded.Body :=
  body.map Tree.guarded

@[simp] theorem Tree.allGuarded_eq (body : Body) : Tree.allGuarded body = body.guarded := by
  unfold Body.guarded
  induction body with
  | nil => rfl
  | cons t rest ih => rw [Tree.allGuarded, ih, List.map_cons]

theorem Definition.compiled_guarded (body : Body) :
    (Definition.compiled body).guarded = .compiled body.guarded := by
  rw [Definition.guarded, Tree.allGuarded_eq]

def Action.guarded : Action → Guarded.Action
  | perform operation => operation.guarded
  | control c => .control c

def Meaning.guarded : Meaning → Guarded.Definition
  | control c => .control c
  | word definition => definition.guarded

def Frame.guarded : Frame → Guarded.Frame
  | block rest => .block rest.guarded
  | counted body byStep index limit ascending =>
    .counted body.guarded byStep index limit ascending
  | untilTrue body => .untilTrue body.guarded

def Opening.guarded : Opening → Guarded.Opening
  | consequent => .consequent
  | alternative body => .alternative body.guarded
  | counted => .counted
  | untilTrue => .untilTrue

def Construction.guarded (c : Construction) : Guarded.Construction where
  body := c.body.guarded
  enclosing := c.enclosing.map fun e => (e.1.guarded, e.2.guarded)

def Dictionary.guarded (d : Dictionary) : Guarded.Dictionary :=
  d.map fun e => (e.1, e.2.guarded)

def Gathering.guarded : Gathering → Guarded.Gathering
  | nothing => .nothing
  | definition name actions => .definition name (actions.map Action.guarded)
  | block actions depth => .block (actions.map Action.guarded) depth

def Session.guarded (s : Session) : Guarded.Session where
  machine := s.machine
  dictionary := s.dictionary.guarded
  line := s.line
  returnDepth := s.returnDepth
  frames := s.frames.map Frame.guarded
  gathering := s.gathering.guarded
  lastError := s.lastError

/-- The same outcome for the image of a value and the image of a state. -/
def guardedResult {σ σ' α β : Type} (f : α → β) (g : σ → σ') :
    EStateM.Result Error σ α → EStateM.Result Stop σ' β
  | .ok x s => .ok (f x) (g s)
  | .error e s => .error (.error e) (g s)

/-! ## Compiling -/

namespace Construction

theorem put_guarded (c : Construction) (t : Tree) :
    (c.put t).guarded = c.guarded.put t.guarded := by
  simp only [put, guarded, Body.guarded, Guarded.Construction.put, List.map_append, List.map_cons,
    List.map_nil]

theorem closed?_guarded (word : Control) (o : Opening) (body : Body) :
    Guarded.Construction.closed? word o.guarded body.guarded =
      (closed? word o body).map Tree.guarded := by
  cases word <;> cases o <;>
    simp only [closed?, Opening.guarded, Guarded.Construction.closed?, Tree.guarded,
      Tree.allGuarded_eq, Body.guarded, List.map_nil, Option.map]

theorem close_guarded (c : Construction) (word : Control) :
    c.guarded.close word = (c.close word).map Construction.guarded := by
  obtain ⟨body, enclosing⟩ := c
  cases enclosing with
  | nil => rfl
  | cons e enclosing =>
    obtain ⟨o, outer⟩ := e
    simp only [guarded, Guarded.Construction.close, close, List.map_cons, closed?_guarded]
    cases closed? word o body with
    | none => rfl
    | some t => simp [guarded, Except.map, Body.guarded]

theorem otherwise_guarded (c : Construction) :
    c.guarded.otherwise = c.otherwise.map Construction.guarded := by
  obtain ⟨body, enclosing⟩ := c
  obtain _ | ⟨⟨_ | _ | _ | _, outer⟩, enclosing⟩ := enclosing <;> rfl

theorem feed_guarded (c : Construction) (a : Action) :
    c.guarded.feed a.guarded = (c.feed a).map Construction.guarded := by
  cases a with
  | perform operation =>
    have hput := c.put_guarded (.leaf operation)
    cases operation <;> exact congrArg Except.ok hput.symm
  | control word =>
    cases word with
    | «if» | «do» | begin => rfl
    | «else» => exact c.otherwise_guarded
    | «then» | loop | plusLoop | «until» => exact c.close_guarded _
    | colon | semicolon | «variable» | constant => rfl

end Construction

theorem compile_guarded (actions : List Action) :
    Guarded.compile (actions.map Action.guarded) =
      (compile actions).map Body.guarded := by
  have hfold (c : Construction) : (actions.map Action.guarded).foldlM Guarded.Construction.feed
      c.guarded = (actions.foldlM Construction.feed c).map Construction.guarded := by
    induction actions generalizing c with
    | nil => rfl
    | cons a actions ih =>
      rw [List.map_cons, List.foldlM_cons, List.foldlM_cons, Construction.feed_guarded]
      cases c.feed a with
      | error e => rfl
      | ok c' => exact ih c'
  have hempty := hfold .empty
  unfold Guarded.compile compile
  rw [show (⟨[], []⟩ : Guarded.Construction) = Construction.empty.guarded from rfl, hempty]
  cases actions.foldlM Construction.feed .empty with
  | error e => rfl
  | ok c =>
    obtain ⟨body, enclosing⟩ := c
    cases enclosing <;> rfl

/-! ## Running trees -/

theorem ofExec_bind {α β : Type} (action : Exec α) (next : α → Exec β) :
    ofExec (action >>= next) = ofExec action >>= fun x => ofExec (next x) := by
  funext m
  change _ = EStateM.bind _ _ m
  simp only [ofExec, EStateM.run_bind, EStateM.bind]
  cases action.run m <;> rfl

theorem ofExec_run {α : Type} (action : Exec α) (m : Machine) :
    (ofExec action).run m = guardedResult id id (action.run m) := by
  change ofExec action m = _
  unfold ofExec
  cases action.run m <;> rfl

/-- The image of an action that leads to frames. -/
def Exec.guarded (action : Exec (List Frame)) : Guarded.Exec (List Guarded.Frame) := do
  return (← ofExec action).map Frame.guarded

namespace Exec

@[simp] theorem guarded_pure (frames : List Frame) :
    Exec.guarded (pure frames) = pure (frames.map Frame.guarded) := rfl

@[simp] theorem guarded_bind {α : Type} (action : Exec α) (next : α → Exec (List Frame)) :
    Exec.guarded (action >>= next) = ofExec action >>= fun x => (next x).guarded := by
  simp only [guarded, ofExec_bind, bind_assoc]

@[simp] theorem guarded_map {α : Type} (f : α → List Frame) (action : Exec α) :
    Exec.guarded (f <$> action) = (fun x => (f x).map Frame.guarded) <$> ofExec action := by
  rw [← bind_pure_comp, guarded_bind, ← bind_pure_comp]
  rfl

theorem guarded_append (action : Exec (List Frame)) (frames : List Frame) :
    Exec.guarded (do return (← action) ++ frames) =
      do return (← Exec.guarded action) ++ frames.map Frame.guarded := by
  simp only [guarded_bind, guarded_pure, List.map_append]
  simp only [guarded, bind_assoc, pure_bind]

theorem guarded_run (action : Exec (List Frame)) (m : Machine) :
    (Exec.guarded action).run m = guardedResult (·.map Frame.guarded) id (action.run m) := by
  simp only [guarded, EStateM.run_bind, ofExec_run]
  cases action.run m <;> rfl

end Exec

theorem Definition.invoke_guarded (word : Definition) :
    word.guarded.invoke = word.invoke.guarded := by
  cases word <;> simp [guarded, Guarded.Definition.invoke, invoke, Frame.guarded]

theorem Operation.perform_guarded (operation : Operation) :
    operation.guarded.perform = operation.perform.guarded := by
  cases operation with
  | invoke name word => exact word.invoke_guarded
  | number n | string text => simp [guarded, Guarded.Action.perform, perform]

theorem Tree.enter_guarded (t : Tree) : t.guarded.enter = t.enter.guarded := by
  cases t with
  | leaf operation => exact operation.perform_guarded
  | branch consequent alternative =>
    simp [guarded, Guarded.Tree.enter, enter, Frame.guarded, apply_ite Body.guarded]
  | counted body byStep =>
    simp [guarded, Guarded.Tree.enter, enter, Frame.guarded, apply_ite Exec.guarded]
  | untilTrue body => simp [guarded, Guarded.Tree.enter, enter, Frame.guarded]

/-- The task of a frame is what a step of the frame does. -/
theorem Frame.task_guarded (f : Frame) (below : List Frame) :
    ∃ task frames, Guarded.nextTask? ((f :: below).map Frame.guarded) = some (task, frames) ∧
      task.run frames = (f.step below).guarded := by
  cases f with
  | block rest =>
    cases rest with
    | nil => exact ⟨.leave, _, rfl, rfl⟩
    | cons t rest =>
      refine ⟨.enter t.guarded, _, rfl, ?_⟩
      rw [Guarded.Task.run, t.enter_guarded]
      exact (Exec.guarded_append t.enter (.block rest :: below)).symm
  | counted body byStep index limit ascending =>
    refine ⟨.endRound, _, rfl, ?_⟩
    cases byStep <;>
      simp [Guarded.Task.run, Guarded.endRound, step, guarded, apply_ite Exec.guarded]
  | untilTrue body =>
    refine ⟨.endRepetition, _, rfl, ?_⟩
    simp [Guarded.Task.run, Guarded.endRepetition, step, guarded, apply_ite Exec.guarded]

/-! ## Tokens and their actions -/

theorem Dictionary.find?_guarded (d : Dictionary) (name : String) :
    d.guarded.find? name = (d.find? name).map Meaning.guarded := by
  unfold Guarded.Dictionary.find? find? guarded
  induction d with
  | nil => rfl
  | cons entry d ih =>
    obtain ⟨key, meaning⟩ := entry
    simp only [List.map_cons, List.lookup_cons]
    cases Text.lowerCase name == key with
    | true => rfl
    | false => exact ih

theorem Token.resolve_guarded (t : Token) (d : Dictionary) :
    Guarded.resolve d.guarded t = (t.resolve d).map Action.guarded := by
  cases t with
  | string text => rfl
  | word name =>
    simp only [Guarded.resolve, resolve, Dictionary.find?_guarded]
    cases d.find? name with
    | none => cases Numeral.parse? name <;> rfl
    | some meaning =>
      cases meaning with
      | control c => rfl
      | word definition => cases definition <;> rfl

/-- The count of open structures does not come to an end below zero. -/
theorem depthAfter_guarded {depth : Nat} (hdepth : depth ≠ 0) (a : Action) :
    Guarded.Session.depthAfter depth a.guarded = .ok (Session.depthAfter depth a) := by
  cases a with
  | perform operation => cases operation <;> rfl
  | control c =>
    simp only [Action.guarded, Guarded.Session.depthAfter, Session.depthAfter, if_neg hdepth]
    split
    · rfl
    · split <;> rfl

namespace Session

variable {s t u : Session}

/-- The count of open structures is not zero while one is gathered. -/
def Counts (s : Session) : Prop :=
  ∀ actions depth, s.gathering = .block actions depth → depth ≠ 0

/-! ## What an action of a token does -/

section

variable {α α' β β' : Type}

/-- The second interpretation does to the image of a session what the first does to the session. -/
def Images (f : α → β) (action : Interpretation α) (image : Guarded.Session.Interpretation β) :
    Prop :=
  ∀ s : Session, image.run s.guarded = guardedResult f Session.guarded (action.run s)

namespace Images

theorem pure (f : α → β) (x : α) : Images f (Pure.pure x) (Pure.pure (f x)) :=
  fun _ => rfl

theorem throw (f : α → β) (e : Error) :
    Images f (MonadExcept.throw e) (MonadExcept.throw (Stop.error e)) :=
  fun _ => rfl

theorem bind {f : α → β} {g : α' → β'} {action : Interpretation α}
    {image : Guarded.Session.Interpretation β} {next : α → Interpretation α'}
    {next' : β → Guarded.Session.Interpretation β'} (h : Images f action image)
    (hnext : ∀ x, Images g (next x) (next' (f x))) :
    Images g (action >>= next) (image >>= next') := by
  intro s
  rw [EStateM.run_bind, EStateM.run_bind, h s]
  cases action.run s with
  | ok x t => exact hnext x t
  | error e t => rfl

theorem modified {change : Session → Session} {image : Guarded.Session → Guarded.Session}
    (h : ∀ s, image s.guarded = (change s).guarded) : Images id (modify change) (modify image) :=
  fun s => congrArg (EStateM.Result.ok ()) (h s)

theorem lift {f : α → β} {action : Exec α} {image : Guarded.Exec β}
    (h : ∀ m, image.run m = guardedResult f id (action.run m)) :
    Images f (Session.lift action) (Guarded.Session.lift image) := by
  intro s
  have hmachine : s.guarded.machine = s.machine := rfl
  rw [Guarded.Session.lift_run, lift_run, hmachine, h]
  cases action.run s.machine <;> rfl

end Images

end

theorem takeToken_images : Images id takeToken Guarded.Session.takeToken := by
  intro s
  have hline : s.guarded.line = s.line := rfl
  rw [takeToken_run, Guarded.Session.takeToken_run, hline]
  cases s.line.bind Token.next? <;> rfl

theorem takeName_images : Images id takeName Guarded.Session.takeName := by
  refine takeToken_images.bind fun t => ?_
  rcases t with _ | ⟨name | text⟩
  · exact .throw _ _
  · exact .pure _ _
  · exact .throw _ _

theorem gather_images (g : Gathering) : Images id (gather g) (Guarded.Session.gather g.guarded) :=
  .modified fun _ => rfl

theorem schedule_images (frames : List Frame) :
    Images id (schedule frames) (Guarded.Session.schedule (frames.map Frame.guarded)) :=
  .modified fun s => by simp only [Session.guarded, List.map_append]

theorem dispatchDefining_images (name : String) (actions : List Action) (a : Action) :
    Images id (dispatchDefining name actions a)
      (Guarded.Session.dispatchDefining name (actions.map Action.guarded) a.guarded) := by
  have hgathered := gather_images (.definition name (actions ++ [a]))
  rw [Gathering.guarded, List.map_append] at hgathered
  cases a with
  | perform operation => cases operation <;> exact hgathered
  | control c =>
    cases c with
    | semicolon =>
      refine (gather_images .nothing).bind fun _ => ?_
      rw [compile_guarded]
      cases compile actions with
      | error e => exact .throw _ e
      | ok body =>
        have hbody := (Definition.compiled_guarded body).symm
        exact .modified fun s => congrArg (s.guarded.define name) hbody
    | _ => exact hgathered

theorem dispatchGathering_images {depth : Nat} (hdepth : depth ≠ 0) (actions : List Action)
    (a : Action) :
    Images id (dispatchGathering actions depth a)
      (Guarded.Session.dispatchGathering (actions.map Action.guarded) depth a.guarded) := by
  have hactions : actions.map Action.guarded ++ [a.guarded] = (actions ++ [a]).map Action.guarded := by
    rw [List.map_append, List.map_singleton]
  unfold dispatchGathering Guarded.Session.dispatchGathering
  rw [hactions, depthAfter_guarded hdepth]
  cases depthAfter depth a with
  | zero =>
    refine (gather_images .nothing).bind fun _ => ?_
    rw [compile_guarded]
    cases compile (actions ++ [a]) with
    | error e => exact .throw _ e
    | ok body => exact schedule_images [.block body]
  | succ depth => exact gather_images _

theorem dispatchDirect_images (a : Action) :
    Images id (dispatchDirect a) (Guarded.Session.dispatchDirect a.guarded) := by
  cases a with
  | perform operation =>
    have hperform : Images id (dispatchDirect (.perform operation))
        (Guarded.Session.lift operation.guarded.perform >>= Guarded.Session.schedule) := by
      rw [operation.perform_guarded]
      exact (Images.lift operation.perform.guarded_run).bind schedule_images
    cases operation <;> exact hperform
  | control c =>
    cases c with
    | colon => exact takeName_images.bind fun name => gather_images (.definition name [])
    | «variable» => exact takeName_images.bind fun name => .modified fun _ => rfl
    | constant =>
      exact takeName_images.bind fun name => (Images.lift (ofExec_run Exec.popData)).bind
        fun n => .modified fun _ => rfl
    | «if» | «do» | begin => exact gather_images (.block [.control _] 1)
    | semicolon | «else» | «then» | loop | plusLoop | «until» => exact .throw _ _

theorem dispatch_guarded (hcounts : s.Counts) (a : Action) :
    (Guarded.Session.dispatch a.guarded).run s.guarded =
      guardedResult id Session.guarded ((dispatch a).run s) := by
  obtain ⟨machine, dictionary, line, returnDepth, frames, gathering, lastError⟩ := s
  cases gathering with
  | definition name actions => exact dispatchDefining_images name actions a _
  | block actions depth => exact dispatchGathering_images (hcounts actions depth rfl) actions a _
  | nothing => exact dispatchDirect_images a _

/-! ## Steps of a line -/

theorem advance_of_frame {f : Frame} {below : List Frame} (hframes : s.frames = f :: below) :
    Guarded.Session.advance.run s.guarded =
      match (f.step below).run s.machine with
      | .ok frames m => .ok true ({ s with machine := m, frames } : Session).guarded
      | .error e m => .error (.error e) ({ s with machine := m } : Session).guarded := by
  obtain ⟨task, frames, hnext, hrun⟩ := f.task_guarded below
  have hnext' : Guarded.nextTask? s.guarded.frames = some (task, frames) := by
    rw [guarded, hframes, hnext]
  have hstep := Images.lift (f.step below).guarded_run s
  rw [← hrun, lift_run] at hstep
  simp only [Guarded.Session.advance, EStateM.run_bind, EStateM.run_get, hnext', hstep]
  cases (f.step below).run s.machine <;> rfl

theorem advance_of_no_frame (hframes : s.frames = []) :
    Guarded.Session.advance.run s.guarded =
      match s.line.bind Token.next? with
      | none => .ok false s.guarded
      | some (t, rest) =>
        match Guarded.resolve s.dictionary.guarded t with
        | .error e => .error (.error e) ({ s with line := some rest } : Session).guarded
        | .ok a =>
          (Guarded.Session.dispatch a >>= fun _ => pure true).run
            ({ s with line := some rest } : Session).guarded := by
  have hnext : Guarded.nextTask? s.guarded.frames = none := by
    rw [guarded, hframes]
    rfl
  have htoken : Guarded.Session.takeToken.run s.guarded =
      match s.line.bind Token.next? with
      | none => .ok none s.guarded
      | some (t, rest) => .ok (some t) { s.guarded with line := some rest } := rfl
  simp only [Guarded.Session.advance, EStateM.run_bind, EStateM.run_get, hnext, htoken]
  rcases s.line.bind Token.next? with _ | ⟨t, rest⟩
  · rfl
  · simp only [EStateM.run_bind, EStateM.run_get]
    rw [show s.guarded.dictionary = s.dictionary.guarded from rfl]
    cases Guarded.resolve s.dictionary.guarded t <;> rfl

/-- The interpreter with guards does the same to the image. -/
theorem advance_guarded (hcounts : s.Counts) :
    Guarded.Session.advance.run s.guarded = guardedResult id Session.guarded (advance.run s) := by
  -- The guarded step takes the same branch as the plain one, as it has the images of the same
  -- frames and entries.
  cases hframes : s.frames with
  | cons f below =>
    rw [advance_of_frame hframes, advance_run_frames hframes]
    simp only [EStateM.run_bind, lift_run]
    cases (f.step below).run s.machine <;> rfl
  | nil =>
    rw [advance_of_no_frame hframes]
    cases hline : s.line.bind Token.next? with
    | none =>
      rw [advance_run_end hframes hline]
      rfl
    | some taken =>
      obtain ⟨t, rest⟩ := taken
      simp only [t.resolve_guarded s.dictionary]
      cases ht : t.resolve s.dictionary with
      | error e =>
        rw [advance_run_unknown hframes hline ht]
        rfl
      | ok a =>
        have hdispatch := dispatch_guarded (s := { s with line := some rest }) hcounts a
        rw [advance_run_token hframes hline ht]
        simp only [Except.map, EStateM.run_bind, hdispatch]
        cases (dispatch a).run { s with line := some rest } <;> rfl

theorem finishLine_guarded (s : Session) :
    s.guarded.finishLine = (s.finishLine.1, s.finishLine.2.guarded) := by
  obtain ⟨machine, dictionary, line, returnDepth, frames, gathering, lastError⟩ := s
  cases gathering <;> rfl

/-- The image of what a step leads to. -/
def guardedProgress : Progress Session (Reply × Session) →
    Progress Guarded.Session (Except Guarded.Guard Reply × Guarded.Session)
  | .more s => .more s.guarded
  | .done (reply, s) => .done (.ok reply, s.guarded)

/-- The interpreter with guards does the same, and no guard stops it. -/
theorem tick_guarded (hcounts : s.Counts) : s.guarded.tick = guardedProgress s.tick := by
  have hadvance := advance_guarded hcounts
  unfold Guarded.Session.tick tick
  rw [show s.guarded.machine = s.machine from rfl]
  cases s.machine.wait with
  | some w => rfl
  | none =>
    simp only [hadvance]
    cases advance.run s with
    | error e t => rfl
    | ok goesOn t =>
      cases goesOn with
      | true => rfl
      | false =>
        simp only [guardedResult, id_eq, finishLine_guarded]
        rfl

theorem tick_of_guarded_more (hcounts : s.Counts) {g : Guarded.Session}
    (h : s.guarded.tick = .more g) : ∃ t, s.tick = .more t ∧ t.guarded = g := by
  rw [tick_guarded hcounts] at h
  cases htick : s.tick with
  | more t =>
    rw [htick] at h
    exact ⟨t, rfl, Progress.more.inj h⟩
  | done r =>
    rw [htick] at h
    exact nomatch h

/-- Where the interpreter with guards stops, it has a reply. -/
theorem tick_of_guarded_done (hcounts : s.Counts) {reply : Except Guarded.Guard Reply}
    {g : Guarded.Session} (h : s.guarded.tick = .done (reply, g)) :
    ∃ reply' t, s.tick = .done (reply', t) ∧ reply = .ok reply' ∧ t.guarded = g := by
  rw [tick_guarded hcounts] at h
  cases htick : s.tick with
  | more t =>
    rw [htick] at h
    exact nomatch h
  | done r =>
    obtain ⟨reply', t⟩ := r
    rw [htick] at h
    obtain ⟨hreply, ht⟩ := Prod.mk.inj (Progress.done.inj h)
    exact ⟨reply', t, rfl, hreply.symm, ht⟩

/-! ## The count of open structures -/

theorem Dispatched.counts {a : Action} {r : EStateM.Result Error Session Unit}
    (h : Dispatched s a r) (hs : s.Counts) : (finalState r).Counts := by
  cases h with
  | nested hg hdepth =>
    rintro actions depth ⟨⟩
    exact hdepth
  | opened hg hc =>
    rintro actions depth ⟨⟩
    exact Nat.one_ne_zero
  | gathered _ _ | defined _ _ | undefined _ _ | closed _ _ _ | unbalanced _ _ _ | colon _ _ =>
    exact nofun
  | performed _ _ | failed _ _ | misplaced _ _ _ | «variable» _ _ | constant _ _ _
  | valueless _ _ _ | nameless _ _ _ | misnamed _ _ _ => exact hs

theorem Advanced.counts {r : EStateM.Result Error Session Bool} (h : Advanced s r)
    (hs : s.Counts) : (finalState r).Counts := by
  cases h with
  | frame _ _ | frameFailed _ _ | finished _ _ | unknown _ _ _ => exact hs
  | dispatched _ _ _ h | refused _ _ _ h => exact h.counts hs

theorem Stopped.counts {reply : Reply} (h : Stopped s reply t) (hs : s.Counts) : t.Counts := by
  cases h with
  | waiting _ | finished _ _ _ | defining _ _ _ => exact hs
  | unclosed _ _ _ | failed _ _ => exact nofun

theorem Onward.counts {word : Primitive → Prop} {change : Session → Machine → Prop}
    (h : Onward word change s t) (hs : s.Counts) : t.Counts := by
  induction h with
  | here => exact hs
  | addPrimitive _ _ _ ih | addConstant _ _ _ ih | adjust _ _ ih | startLine _ _ _ ih => exact ih
  | step _ htick ih => exact (advanced_of_tick htick).2.counts ih
  | stop _ htick ih => exact (stopped_of_tick htick).counts ih

theorem counts_withPrimitives (random : Nat → UInt64) : (withPrimitives random).Counts :=
  withPrimitives_invariant random nofun fun _ _ _ hs => hs

/-! ## New sessions -/

theorem bare_guarded (random : Nat → UInt64) :
    (bare random).guarded = Guarded.Session.bare random := rfl

theorem withPrimitives_guarded (random : Nat → UInt64) :
    (withPrimitives random).guarded = Guarded.Session.withPrimitives random := by
  unfold withPrimitives Guarded.Session.withPrimitives
  rw [← bare_guarded]
  generalize Primitive.builtIn = entries, bare random = s
  induction entries generalizing s with
  | nil => rfl
  | cons e entries ih => exact ih (s.addPrimitive e.1 e.2)

end Session

end Forth
