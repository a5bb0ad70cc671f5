import Forth.Proofs.GuardedImage
import Forth.Proofs.Yields

/-!
# What compiled code can fail with

Compiled code fails only for what the machine is like when it runs: a stack that is too small, a
divisor that is zero, a cell that is no address.  What could go wrong in its text has gone wrong
before, when it was resolved and compiled.

The interpreter proper has no room for some of the mistakes that this rules out, so the statement
is made about the interpreter with guards, which has.  Started where a new session starts and driven
as a host drives a session, it comes to the images of sessions and to nothing else
(`onward_of_reached`).  So the words and frames that it holds are `Plain`: there is no control word
among their trees, at any depth.  Plain frames lead to plain frames and fail at run time only
(`Guarded.Frame.run_yields`), whatever machine they find at each of their steps.
-/

namespace Forth

/-! ## Words of the language and of the host -/

namespace Primitive

/-- A word of the language, or one that the host adds. -/
def Known (word : Primitive → Prop) (p : Primitive) : Prop :=
  (∃ name, (name, p) ∈ builtIn) ∨ word p

end Primitive

/-- A run-time error, or an error of a word that the host adds. -/
def Error.RunTimeOr (word : Primitive → Prop) (e : Error) : Prop :=
  e.RunTime ∨ ∃ p m m', word p ∧ p.run.run m = .error e m'

theorem Primitive.Known.yields {word : Primitive → Prop} {p : Primitive} (hp : p.Known word) :
    Yields (Error.RunTimeOr word) Anything p.run := by
  obtain ⟨name, hp⟩ | hp := hp
  · have hhost : ∀ action, p ≠ .host action := by
      rintro action rfl
      have hnone : Primitive.Allowed (fun _ => False) (.host action) :=
        Session.allowed_of_mem_builtIn hp
      exact hnone
    exact (p.run_yields hhost).weaken fun e he => .inl he
  · intro m
    cases hrun : p.run.run m with
    | ok x m' => trivial
    | error e m' => exact .inr ⟨p, m, m', hp, hrun⟩

namespace Guarded

/-! ## Plain trees -/

mutual

/-- There is no control word in the definition, at any depth, and `P` holds of its primitive
words. -/
inductive Definition.Plain (P : Primitive → Prop) : Definition → Prop
  | primitive {p : Primitive} (h : P p) : Definition.Plain P (.primitive p)
  | compiled {body : Body} (h : ∀ t ∈ body, Tree.Plain P t) : Definition.Plain P (.compiled body)
  | value (n : Cell) : Definition.Plain P (.value n)

inductive Action.Plain (P : Primitive → Prop) : Action → Prop
  | number (n : Cell) : Action.Plain P (.number n)
  | string (text : String) : Action.Plain P (.string text)
  | invoke {name : String} {word : Definition} (h : Definition.Plain P word) :
    Action.Plain P (.invoke name word)

inductive Tree.Plain (P : Primitive → Prop) : Tree → Prop
  | leaf {action : Action} (h : Action.Plain P action) : Tree.Plain P (.leaf action)
  | branch {consequent alternative : Body} (hc : ∀ t ∈ consequent, Tree.Plain P t)
    (ha : ∀ t ∈ alternative, Tree.Plain P t) : Tree.Plain P (.branch consequent alternative)
  | counted {body : Body} {byStep : Bool} (h : ∀ t ∈ body, Tree.Plain P t) :
    Tree.Plain P (.counted body byStep)
  | untilTrue {body : Body} (h : ∀ t ∈ body, Tree.Plain P t) : Tree.Plain P (.untilTrue body)

end

def Body.Plain (P : Primitive → Prop) (body : Body) : Prop :=
  ∀ t ∈ body, t.Plain P

def Frame.Plain (P : Primitive → Prop) : Frame → Prop
  | block body | counted body _ _ _ _ | untilTrue body => Body.Plain P body

def Frame.AllPlain (P : Primitive → Prop) (frames : List Frame) : Prop :=
  ∀ f ∈ frames, f.Plain P

/-- The dictionary has control words, and apart from them only plain definitions. -/
def Dictionary.Plain (P : Primitive → Prop) (d : Dictionary) : Prop :=
  ∀ entry ∈ d, (∃ c, entry.2 = .control c) ∨ entry.2.Plain P

/-- Control words are gathered side by side with plain actions, and the count of open structures is
not zero. -/
def Gathering.Plain (P : Primitive → Prop) : Gathering → Prop
  | nothing => True
  | definition _ actions => ∀ a ∈ actions, (∃ c, a = .control c) ∨ a.Plain P
  | block actions depth => depth ≠ 0 ∧ ∀ a ∈ actions, (∃ c, a = .control c) ∨ a.Plain P

structure Session.Plain (P : Primitive → Prop) (s : Session) : Prop where
  dictionary : s.dictionary.Plain P
  frames : Frame.AllPlain P s.frames
  gathering : s.gathering.Plain P

/-! ## Running plain frames -/

/-- An error, not a guard. -/
def Stop.IsError (E : Error → Prop) (stop : Stop) : Prop :=
  ∃ e, stop = .error e ∧ E e

theorem ofExec_yields {α : Type} {E : Error → Prop} {V : α → Prop} {action : Forth.Exec α}
    (h : Yields E V action) : Yields (Stop.IsError E) V (ofExec action) := by
  intro m
  have ha := h m
  rw [ofExec_run]
  cases hrun : action.run m with
  | ok x m' =>
    rw [hrun] at ha
    exact ha
  | error e m' =>
    rw [hrun] at ha
    exact ⟨e, rfl, ha⟩

theorem Frame.AllPlain.nil {P : Primitive → Prop} : AllPlain P [] :=
  fun _ hf => nomatch hf

theorem Frame.AllPlain.cons {P : Primitive → Prop} {f : Frame} {below : List Frame}
    (hf : f.Plain P) (hbelow : AllPlain P below) : AllPlain P (f :: below) :=
  List.forall_mem_cons.2 ⟨hf, hbelow⟩

section

open Forth.Exec

variable {P : Primitive → Prop} {E : Error → Prop} (hP : ∀ p, P p → Yields E Anything p.run)
  (hE : ∀ e : Error, e.RunTime → E e)

section

include hP

theorem Definition.Plain.invoke_yields {word : Definition} (h : word.Plain P) :
    Yields (Stop.IsError E) (Frame.AllPlain P) word.invoke := by
  cases h with
  | primitive h => exact .bind (ofExec_yields (hP _ h)) fun _ _ => .pure .nil
  | compiled h => exact .pure (.cons h .nil)
  | value n => exact .bind (ofExec_yields (pushData_yields n)) fun _ _ => .pure .nil

theorem Action.Plain.perform_yields {a : Action} (h : a.Plain P) :
    Yields (Stop.IsError E) (Frame.AllPlain P) a.perform := by
  cases h with
  | number n => exact .bind (ofExec_yields (pushData_yields n)) fun _ _ => .pure .nil
  | string text => exact .bind (ofExec_yields (print_yields text)) fun _ _ => .pure .nil
  | invoke h => exact h.invoke_yields hP

end

section

include hE

theorem Frame.endRound_yields {body : Body} {byStep : Bool} {index limit : Cell}
    {ascending : Bool} {below : List Frame} (hbody : body.Plain P) (hbelow : AllPlain P below) :
    Yields (Stop.IsError E) (AllPlain P)
      (endRound (.counted body byStep index limit ascending :: below)) := by
  -- The two kinds of loop differ only in where the step comes from.
  have hgoesOn (next : Cell) : Yields (Stop.IsError E) (AllPlain P)
      (if inRange next limit ascending then do
        ofExec (pushReturn next)
        return .block body :: .counted body byStep next limit ascending :: below
      else
        return below) := by
    split
    · exact .bind (ofExec_yields (pushReturn_yields next)) fun _ _ =>
        .pure (.cons hbody (.cons hbody hbelow))
    · exact .pure hbelow
  refine .bind (ofExec_yields (popReturn_yields.weaken hE)) fun _ _ => ?_
  cases byStep with
  | true =>
    exact .bind (ofExec_yields (popData_yields.weaken hE)) fun step _ => hgoesOn (index + step)
  | false => exact hgoesOn _

theorem Frame.endRepetition_yields {body : Body} {below : List Frame} (hbody : body.Plain P)
    (hbelow : AllPlain P below) :
    Yields (Stop.IsError E) (AllPlain P) (endRepetition (.untilTrue body :: below)) := by
  refine .bind (ofExec_yields (popData_yields.weaken hE)) fun t _ => ?_
  split
  · exact .pure hbelow
  · exact .pure (.cons hbody (.cons hbody hbelow))

end

include hP hE

theorem Tree.Plain.enter_yields {t : Tree} (h : t.Plain P) :
    Yields (Stop.IsError E) (Frame.AllPlain P) t.enter := by
  have hpop := ofExec_yields (popData_yields.weaken hE)
  cases h with
  | leaf h => exact h.perform_yields hP
  | branch hc ha =>
    refine .bind hpop fun n _ => .pure (.cons ?_ .nil)
    split
    · exact hc
    · exact ha
  | @counted body byStep h =>
    refine .bind hpop fun start _ => .bind hpop fun limit _ => ?_
    dsimp only
    split
    · exact .bind (ofExec_yields (pushReturn_yields start)) fun _ _ =>
        .pure (.cons h (.cons h .nil))
    · exact .pure .nil
  | untilTrue h => exact .pure (.cons h (.cons h .nil))

/-- Plain frames lead to plain frames, and what they fail with is an error of a word. -/
theorem Frame.run_yields {frames below : List Frame} {task : Task} (h : AllPlain P frames)
    (hnext : nextTask? frames = some (task, below)) :
    Yields (Stop.IsError E) (AllPlain P) (task.run below) := by
  cases frames with
  | nil => exact nomatch hnext
  | cons f rest =>
    obtain ⟨hf, hrest⟩ := List.forall_mem_cons.1 h
    cases f with
    | block body =>
      cases body with
      | nil =>
        obtain ⟨rfl, rfl⟩ := Prod.mk.inj (Option.some.inj hnext)
        exact .pure hrest
      | cons t body =>
        obtain ⟨rfl, rfl⟩ := Prod.mk.inj (Option.some.inj hnext)
        obtain ⟨ht, hbody⟩ := List.forall_mem_cons.1 hf
        refine .bind (ht.enter_yields hP hE) fun frames hframes => .pure ?_
        exact List.forall_mem_append.2 ⟨hframes, AllPlain.cons hbody hrest⟩
    | counted body byStep index limit ascending =>
      obtain ⟨rfl, rfl⟩ := Prod.mk.inj (Option.some.inj hnext)
      exact endRound_yields hE hf hrest
    | untilTrue body =>
      obtain ⟨rfl, rfl⟩ := Prod.mk.inj (Option.some.inj hnext)
      exact endRepetition_yields hE hf hrest

end

/-! ## Executing what a session holds -/

/-- The frames to which others lead when they are run on their own.  The machine may be any at each
step, so it covers any stacks and memory at the start, and whatever events and other lines come in
between. -/
inductive Frame.LeadTo (start : List Frame) : List Frame → Prop
  | start : LeadTo start start
  | step {frames below next : List Frame} {task : Task} {m m' : Machine}
    (h : LeadTo start frames) (hnext : nextTask? frames = some (task, below))
    (hrun : (task.run below).run m = .ok next m') : LeadTo start next

/-- Executing the frames stops at no guard, and fails with errors of `E` only. -/
def Frame.FailOnly (E : Error → Prop) (start : List Frame) : Prop :=
  ∀ frames below task m stop m', LeadTo start frames → nextTask? frames = some (task, below) →
    (task.run below).run m = .error stop m' → stop.IsError E

/-- Plain frames stay plain, so they fail as one of them does. -/
theorem Frame.AllPlain.failOnly {P : Primitive → Prop} {E : Error → Prop} {start : List Frame}
    (hP : ∀ p, P p → Yields E Anything p.run) (hE : ∀ e : Error, e.RunTime → E e)
    (h : AllPlain P start) : FailOnly E start := by
  intro frames below task m stop m' hlead hnext hrun
  -- By induction on the steps so far, whatever the machines were; the last step is apart from them.
  have hframes : AllPlain P frames := by
    clear hnext hrun
    induction hlead with
    | start => exact h
    | step _ hnext hrun ih => exact (run_yields hP hE ih hnext).value hrun
  exact (run_yields hP hE hframes hnext).error hrun

namespace Session

/-- What a session can have executed: a word of its dictionary, the control structure that is about
to be completed, and what is still to be run of the line in progress. -/
inductive Executable (s : Session) : List Frame → Prop
  | word {key : String} {word : Definition} (h : (key, word) ∈ s.dictionary)
    (hword : ∀ c, word ≠ .control c) (name : String) :
    Executable s [.block [.leaf (.invoke name word)]]
  | block {actions : List Action} {depth : Nat} {c : Control} {body : Body}
    (hg : s.gathering = .block actions depth)
    (hbody : compile (actions ++ [.control c]) = .ok body) : Executable s [.block body]
  | frames : Executable s s.frames

/-- What the interpreter comes to when it is driven as a host drives a session. -/
inductive Reached (word : Primitive → Prop) (random : Nat → UInt64) : Session → Prop
  | new : Reached word random (withPrimitives random)
  | addPrimitive {s : Session} (h : Reached word random s) (name : String) {p : Primitive}
    (hp : word p) : Reached word random (s.define name (.primitive p))
  | addConstant {s : Session} (h : Reached word random s) (name : String) (n : Cell) :
    Reached word random (s.define name (.value n))
  | adjust {s : Session} (h : Reached word random s) (m : Machine) :
    Reached word random { s with machine := m }
  | startLine {s : Session} (h : Reached word random s) (hline : s.line = none) (text : String) :
    Reached word random (s.startLine text)
  | step {s t : Session} (h : Reached word random s) (htick : s.tick = .more t) :
    Reached word random t
  | stop {s t : Session} (h : Reached word random s) {reply : Reply}
    (htick : s.tick = .done (.ok reply, t)) : Reached word random t

end Session

end Guarded

/-- The frames to which others lead when they are run on their own, whatever the machine is at each
step. -/
inductive Frame.LeadTo (start : List Frame) : List Frame → Prop
  | start : LeadTo start start
  | step {f : Frame} {below frames : List Frame} {m m' : Machine}
    (h : LeadTo start (f :: below)) (hrun : (f.step below).run m = .ok frames m') :
    LeadTo start frames

/-- Executing the frames fails with errors of `E` only. -/
def Frame.FailOnly (E : Error → Prop) (start : List Frame) : Prop :=
  ∀ f below m e m', LeadTo start (f :: below) → (f.step below).run m = .error e m' → E e

/-- What a session can have executed: a word of its dictionary, the control structure that is about
to be completed, and what is still to be run of the line in progress. -/
inductive Session.Executable (s : Session) : List Frame → Prop
  | word {key : String} {word : Definition} (h : (key, .word word) ∈ s.dictionary)
    (name : String) : Executable s [.block [.leaf (.invoke name word)]]
  | block {actions : List Action} {depth : Nat} {c : Control} {body : Body}
    (hg : s.gathering = .block actions depth)
    (hbody : compile (actions ++ [.control c]) = .ok body) : Executable s [.block body]
  | frames : Executable s s.frames

/-! ## Images -/

theorem Frame.LeadTo.guarded {start frames : List Frame} (h : LeadTo start frames) :
    Guarded.Frame.LeadTo (start.map Frame.guarded) (frames.map Frame.guarded) := by
  induction h with
  | start => exact .start
  | @step f below frames m m' _ hrun ih =>
    obtain ⟨task, rest, hnext, htask⟩ := f.task_guarded below
    refine ih.step hnext (?_ : (task.run rest).run m = .ok (frames.map Frame.guarded) m')
    rw [htask, Exec.guarded_run, hrun]
    rfl

theorem Frame.failOnly_of_guarded {E : Error → Prop} {start : List Frame}
    (h : Guarded.Frame.FailOnly E (start.map Frame.guarded)) : FailOnly E start := by
  intro f below m e m' hlead hrun
  obtain ⟨task, rest, hnext, htask⟩ := f.task_guarded below
  have hfails : (task.run rest).run m = .error (.error e) m' := by
    rw [htask, Exec.guarded_run, hrun]
    rfl
  obtain ⟨e', he, hE⟩ := h _ _ _ _ _ _ hlead.guarded hnext hfails
  cases he
  exact hE

section

variable {P : Primitive → Prop}

theorem Body.guarded_plain {body : Body} (h : ∀ t ∈ body, t.guarded.Plain P) :
    body.guarded.Plain P :=
  List.forall_mem_map.2 h

mutual

theorem Definition.UsesOnly.plain {word : Definition} (h : word.UsesOnly P) :
    word.guarded.Plain P := by
  match h with
  | .primitive h => exact .primitive h
  | .compiled h =>
    rw [Definition.compiled_guarded]
    exact .compiled (Body.guarded_plain fun t ht => (h t ht).plain)
  | .value n => exact .value n

theorem Operation.UsesOnly.plain {operation : Operation} (h : operation.UsesOnly P) :
    operation.guarded.Plain P := by
  match h with
  | .number n => exact .number n
  | .string text => exact .string text
  | .invoke h => exact .invoke h.plain

theorem Tree.UsesOnly.plain {t : Tree} (h : t.UsesOnly P) : t.guarded.Plain P := by
  match h with
  | .leaf h => exact .leaf h.plain
  | .branch hc ha =>
    rw [Tree.guarded, Tree.allGuarded_eq, Tree.allGuarded_eq]
    exact .branch (Body.guarded_plain fun t ht => (hc t ht).plain)
      (Body.guarded_plain fun t ht => (ha t ht).plain)
  | .counted h =>
    rw [Tree.guarded, Tree.allGuarded_eq]
    exact .counted (Body.guarded_plain fun t ht => (h t ht).plain)
  | .untilTrue h =>
    rw [Tree.guarded, Tree.allGuarded_eq]
    exact .untilTrue (Body.guarded_plain fun t ht => (h t ht).plain)

end

theorem Body.UsesOnly.plain {body : Body} (h : Body.UsesOnly P body) : body.guarded.Plain P :=
  Body.guarded_plain fun t ht => (h t ht).plain

theorem Frame.UsesOnly.plain {f : Frame} (h : f.UsesOnly P) : f.guarded.Plain P := by
  cases f <;> exact Body.UsesOnly.plain h

theorem Action.UsesOnly.plain {a : Action} (h : a.UsesOnly P) :
    (∃ c, a.guarded = .control c) ∨ a.guarded.Plain P := by
  cases a with
  | control c => exact .inl ⟨c, rfl⟩
  | perform operation => exact .inr (Operation.UsesOnly.plain h)

theorem Meaning.UsesOnly.plain {meaning : Meaning} (h : meaning.UsesOnly P) :
    (∃ c, meaning.guarded = .control c) ∨ meaning.guarded.Plain P := by
  cases meaning with
  | control c => exact .inl ⟨c, rfl⟩
  | word definition => exact .inr (Definition.UsesOnly.plain h)

theorem Session.UsesOnly.plain {s : Session} (h : s.UsesOnly P) (hcounts : s.Counts) :
    s.guarded.Plain P where
  dictionary := List.forall_mem_map.2 fun entry hentry => (h.dictionary entry hentry).plain
  frames := List.forall_mem_map.2 fun f hf => (h.frames f hf).plain
  gathering := by
    have hg := h.gathering
    have hdepth := hcounts
    obtain ⟨machine, dictionary, line, returnDepth, frames, gathering, lastError⟩ := s
    cases gathering with
    | nothing => trivial
    | definition name actions => exact List.forall_mem_map.2 fun a ha => (hg a ha).plain
    | block actions depth =>
      exact ⟨hdepth actions depth rfl, List.forall_mem_map.2 fun a ha => (hg a ha).plain⟩

end

theorem Session.Executable.guarded {s : Session} {frames : List Frame} (h : s.Executable frames) :
    s.guarded.Executable (frames.map Frame.guarded) := by
  cases h with
  | @word key word h name =>
    refine .word (List.mem_map_of_mem (f := fun e => (e.1, e.2.guarded)) h) (fun c hc => ?_) name
    cases word <;> exact nomatch hc
  | @block actions depth c body hg hbody =>
    have hcompile := compile_guarded (actions ++ [.control c])
    rw [List.map_append, hbody] at hcompile
    refine .block (?_ : s.guarded.gathering = .block (actions.map Action.guarded) depth) hcompile
    rw [Session.guarded, hg, Gathering.guarded]
  | frames => exact .frames

namespace Session

variable {word : Primitive → Prop} {change : Session → Machine → Prop} {random : Nat → UInt64}
  {P : Primitive → Prop} {s t : Session}

/-- What the image of a session can have executed is plain. -/
theorem UsesOnly.executable_plain (h : s.UsesOnly P) (hcounts : s.Counts)
    {frames : List Guarded.Frame} (hexecutable : s.guarded.Executable frames) :
    Guarded.Frame.AllPlain P frames := by
  -- What is executed is a word called by name, a block that a closing word completes, or the frames
  -- that are left.
  cases hexecutable with
  | @word key word hentry hword name =>
    have hplain := ((h.plain hcounts).dictionary _ hentry).resolve_left fun ⟨c, hc⟩ => hword c hc
    refine .cons (fun t ht => ?_) .nil
    obtain rfl := List.mem_singleton.1 ht
    exact .leaf (.invoke hplain)
  | @block actions depth c body hg hbody =>
    have huses := h.gathering
    cases hgathering : s.gathering with
    | nothing | definition _ _ =>
      rw [Session.guarded, hgathering] at hg
      cases hg
    | block actions' depth' =>
      rw [hgathering] at huses
      rw [Session.guarded, hgathering] at hg
      obtain ⟨rfl, -⟩ := Guarded.Gathering.block.inj hg
      -- The guarded compiler yields the image of what the plain one yields, and a body that the
      -- plain one yields has no guard in it.
      have hcompile := compile_guarded (actions' ++ [.control c])
      rw [List.map_append] at hcompile
      have hall : ∀ a ∈ actions' ++ [Action.control c], a.UsesOnly P :=
        List.forall_mem_append.2 ⟨huses, List.forall_mem_singleton.2 trivial⟩
      cases hbody' : compile (actions' ++ [.control c]) with
      | error e =>
        rw [hbody'] at hcompile
        cases hcompile.symm.trans hbody
      | ok body' =>
        rw [hbody'] at hcompile
        obtain rfl := Except.ok.inj (hcompile.symm.trans hbody)
        exact .cons (compile_usesOnly hall hbody').plain .nil
  | frames => exact (h.plain hcounts).frames

/-! ## What the interpreter with guards comes to -/

theorem usesOnly_withPrimitives (word : Primitive → Prop) (random : Nat → UInt64) :
    (withPrimitives random).UsesOnly (Primitive.Known word) :=
  withPrimitives_invariant random (resting_bare random).uses fun _ e he hs =>
    hs.define (.primitive (.inl ⟨e.1, he⟩))

theorem Onward.reached (h : Onward word change (withPrimitives random) s) :
    Guarded.Session.Reached word random s.guarded := by
  induction h with
  | here =>
    rw [withPrimitives_guarded]
    exact .new
  | addPrimitive _ name hp ih => exact ih.addPrimitive name hp
  | addConstant _ name n ih => exact ih.addConstant name n
  | adjust _ _ ih => exact ih.adjust _
  | startLine _ hline text ih => exact ih.startLine hline text
  | step h htick ih =>
    have hstep := tick_guarded (h.counts (counts_withPrimitives random))
    rw [htick] at hstep
    exact ih.step hstep
  | stop h htick ih =>
    have hstep := tick_guarded (h.counts (counts_withPrimitives random))
    rw [htick] at hstep
    exact ih.stop hstep

/-- The interpreter with guards comes to images of sessions only. -/
theorem onward_of_reached {g : Guarded.Session} (h : Guarded.Session.Reached word random g) :
    ∃ s, Onward word Freely (withPrimitives random) s ∧ s.guarded = g := by
  induction h with
  | new => exact ⟨_, .here, withPrimitives_guarded random⟩
  | addPrimitive _ name hp ih =>
    obtain ⟨s, hs, rfl⟩ := ih
    exact ⟨_, hs.addPrimitive name hp, rfl⟩
  | addConstant _ name n ih =>
    obtain ⟨s, hs, rfl⟩ := ih
    exact ⟨_, hs.addConstant name n, rfl⟩
  | adjust _ m ih =>
    obtain ⟨s, hs, rfl⟩ := ih
    exact ⟨_, hs.adjust trivial, rfl⟩
  | startLine _ hline text ih =>
    obtain ⟨s, hs, rfl⟩ := ih
    exact ⟨_, hs.startLine hline text, rfl⟩
  | step _ htick ih =>
    obtain ⟨s, hs, rfl⟩ := ih
    -- A guarded step has a plain step under it, since the guards do not fire.
    obtain ⟨t, hstep, rfl⟩ :=
      tick_of_guarded_more (hs.counts (counts_withPrimitives random)) htick
    exact ⟨t, hs.step hstep, rfl⟩
  | stop _ htick ih =>
    obtain ⟨s, hs, rfl⟩ := ih
    obtain ⟨reply, t, hstep, -, rfl⟩ :=
      tick_of_guarded_done (hs.counts (counts_withPrimitives random)) htick
    exact ⟨t, hs.stop hstep, rfl⟩

/-- Wherever a host comes to, the interpreter with guards comes to the image of it and goes the same
way.  That interpreter, on all its ways, holds plain trees only, stops at no guard, and executes
what it holds without failing, but for run-time errors and the errors of words that the host adds.
So does the interpreter proper. -/
theorem compiled_code_fails_at_run_time_only (h : Occurs word Freely random s) :
    Guarded.Session.Reached word random s.guarded ∧
    s.guarded.tick = guardedProgress s.tick ∧
    (∀ frames, s.Executable frames → Frame.FailOnly (Error.RunTimeOr word) frames) ∧
    ∀ g, Guarded.Session.Reached word random g →
      g.Plain (Primitive.Known word) ∧
      (∀ guard t, g.tick ≠ .done (.error guard, t)) ∧
      ∀ frames, g.Executable frames →
        Guarded.Frame.FailOnly (Error.RunTimeOr word) frames := by
  have honward := h.onward respectsReturns_freely
  have hcounts {s : Session} (hs : Onward word Freely (withPrimitives random) s) : s.Counts :=
    hs.counts (counts_withPrimitives random)
  have huses {s : Session} (hs : Onward word Freely (withPrimitives random) s) :
      s.UsesOnly (Primitive.Known word) :=
    hs.usesOnly (fun _ hp => .inr hp) (usesOnly_withPrimitives word random)
  have hfails {s : Session} (hs : Onward word Freely (withPrimitives random) s)
      {frames : List Guarded.Frame} (hframes : s.guarded.Executable frames) :
      Guarded.Frame.FailOnly (Error.RunTimeOr word) frames :=
    ((huses hs).executable_plain (hcounts hs) hframes).failOnly (fun _ hp => hp.yields)
      fun _ he => .inl he
  refine ⟨honward.reached, tick_guarded (hcounts honward), fun frames hframes => ?_,
    fun g hg => ?_⟩
  · exact Frame.failOnly_of_guarded (hfails honward hframes.guarded)
  -- Each state that the guarded interpreter reaches is the image of a state that is reached without
  -- guards.
  · obtain ⟨t, ht, rfl⟩ := onward_of_reached hg
    refine ⟨(huses ht).plain (hcounts ht), fun guard u hstep => ?_, fun frames => hfails ht⟩
    obtain ⟨reply, v, -, hreply, -⟩ := tick_of_guarded_done (hcounts ht) hstep
    exact nomatch hreply

theorem compiled_code_fails_at_run_time_only_halve :
    ∃ s halve, (withPrimitives fun _ => 0).readLine 20 ": halve 2 / ;" = some (.ok .ok, s) ∧
      s.dictionary.head? = some ("halve", .word halve) ∧
      Guarded.Session.Reached (fun _ => False) (fun _ => 0) s.guarded ∧
      Frame.FailOnly Error.RunTime [.block [.leaf (.invoke "halve" halve)]] := by
  obtain ⟨s, halve, rest, hread, hdictionary⟩ : ∃ s halve rest,
      (withPrimitives fun _ => 0).readLine 20 ": halve 2 / ;" = some (.ok .ok, s) ∧
        s.dictionary = ("halve", .word halve) :: rest :=
    ⟨_, _, _, rfl, rfl⟩
  have hrun : HostRun (fun s c => c.Within (fun _ => False) Freely s) (withPrimitives fun _ => 0)
      [.readLine ": halve 2 / ;"] s := .cons trivial (.readLine hread) (.nil s)
  have hoccurs : Occurs (fun _ => False) Freely (fun _ => 0) s := .between (.inl rfl) hrun
  obtain ⟨hreached, -, hfails, -⟩ := compiled_code_fails_at_run_time_only hoccurs
  refine ⟨s, halve, hread, by rw [hdictionary]; rfl, hreached, ?_⟩
  have hhalve : s.Executable [.block [.leaf (.invoke "halve" halve)]] :=
    .word (by rw [hdictionary]; exact List.mem_cons_self) "halve"
  intro f below m e m' hlead hrun
  refine (hfails _ hhalve f below m e m' hlead hrun).resolve_right ?_
  rintro ⟨p, m, m', hp, -⟩
  exact hp

end Session

end Forth
