import Forth.Proofs.Invocation
import Forth.Proofs.Yields

/-!
# Lines that come to an end

Two kinds of loops may go on for ever: `begin … until`, and `do … +loop`, whose step is computed.
Code without them, in its own text and in the words that it invokes, comes to its end whatever the
machine is like at each of its steps.  So nothing is assumed here about stacks and memory: a frame
may find any machine (`Frame.Next`), for a loop body may change what it likes, the index on the
return stack included.

Three things get smaller.  The rest of the line does with each token.  Where a token schedules
frames, the definition that they come from is a finite tree, so each step of a block goes on with
smaller trees (`Body.ending`).  And a loop with a step of one comes closer to its limit
in each round (`distance_lt`): its index is in the frame and not looked up on the return stack, and
an index that is in range is at least one away from the ends of the cells, so it never wraps around.
-/

namespace Forth

/-! ## Code without open loops -/

mutual

/-- There is no `begin … until` and no `do … +loop` in the definition, nor in any word that it
invokes. -/
def Definition.isBounded : Definition → Bool
  | .primitive _ | .value _ => true
  | .compiled body => Body.isBounded body

def Operation.isBounded : Operation → Bool
  | .number _ | .string _ => true
  | .invoke _ word => word.isBounded

def Tree.isBounded : Tree → Bool
  | .leaf operation => operation.isBounded
  | .branch consequent alternative => Body.isBounded consequent && Body.isBounded alternative
  | .counted body byStep => !byStep && Body.isBounded body
  | .untilTrue _ => false

/-- There is no `begin … until` and no `do … +loop` in the body, nor in any word that it invokes. -/
def Body.isBounded : List Tree → Bool
  | [] => true
  | t :: rest => t.isBounded && Body.isBounded rest

end

@[simp] theorem Body.isBounded_cons_iff {t : Tree} {body : Body} :
    Body.isBounded (t :: body) = true ↔ t.isBounded = true ∧ Body.isBounded body = true := by
  rw [Body.isBounded, Bool.and_eq_true]

theorem Body.isBounded_append {body body' : Body} (h : Body.isBounded body = true)
    (h' : Body.isBounded body' = true) : Body.isBounded (body ++ body') = true := by
  induction body with
  | nil => exact h'
  | cons t body ih =>
    rw [Body.isBounded_cons_iff] at h
    rw [List.cons_append, Body.isBounded_cons_iff]
    exact ⟨h.1, ih h.2⟩

/-! ## The distance to the limit -/

/-- How far the index of a loop is from the limit. -/
def distance (index limit : Cell) : Nat :=
  (limit.toInt - index.toInt).natAbs

theorem toInt_succ {index limit : Cell} (h : index < limit) :
    (index + 1).toInt = index.toInt + 1 := by
  have hlimit := Int64.toInt_lt limit
  have hindex := Int64.le_toInt index
  have hlt := Int64.lt_iff_toInt_lt.1 h
  have hone : (1 : Int64).toInt = 1 := rfl
  rw [Int64.toInt_add, hone]
  apply Int.bmod_eq_of_le <;> omega

theorem toInt_pred {index limit : Cell} (h : limit < index) :
    (index + -1).toInt = index.toInt - 1 := by
  have hlimit := Int64.le_toInt limit
  have hindex := Int64.toInt_lt index
  have hlt := Int64.lt_iff_toInt_lt.1 h
  have hone : (-1 : Int64).toInt = -1 := rfl
  rw [Int64.toInt_add, hone]
  apply Int.bmod_eq_of_le <;> omega

/-- An index in range comes closer to the limit with each round, upwards and downwards. -/
theorem distance_lt {index limit : Cell} {ascending : Bool}
    (h : inRange index limit ascending = true) :
    distance (index + if ascending then 1 else -1) limit < distance index limit := by
  unfold distance
  cases ascending with
  | true =>
    have hlt : index < limit := by simpa [inRange] using h
    have hindex := Int64.lt_iff_toInt_lt.1 hlt
    rw [if_pos rfl, toInt_succ hlt]
    omega
  | false =>
    have hlt : limit < index := by simpa [inRange] using h
    have hindex := Int64.lt_iff_toInt_lt.1 hlt
    rw [if_neg Bool.false_ne_true, toInt_pred hlt]
    omega

/-! ## Frames that come to an end -/

namespace Frame

open Exec

/-- A step of the innermost frame may lead from the first frames to the second ones.  Which machine
it finds is left open. -/
def Next (frames next : List Frame) : Prop :=
  ∃ f below m m', frames = f :: below ∧ (f.step below).run m = .ok next m'

/-- The frames come to an end, whatever machine each of their steps finds. -/
def Finite (frames : List Frame) : Prop :=
  Acc (fun next frames => Next frames next) frames

/-- The frames come to an end above all frames that do. -/
def Ending (frames : List Frame) : Prop :=
  ∀ below, Finite below → Finite (frames ++ below)

/-- Any error will do. -/
abbrev Fails (_ : Error) : Prop := True

theorem yields_anything {α : Type} (action : Exec α) : Yields Fails Anything action := by
  intro m
  cases action.run m <;> trivial

theorem finite_nil : Finite [] := by
  refine ⟨_, ?_⟩
  rintro next ⟨f, below, m, m', hframes, -⟩
  exact nomatch hframes

theorem finite_cons {f : Frame} {below : List Frame} (h : Yields Fails Finite (f.step below)) :
    Finite (f :: below) := by
  refine ⟨_, ?_⟩
  rintro next ⟨g, rest, m, m', hframes, hrun⟩
  obtain ⟨rfl, rfl⟩ := List.cons.inj hframes
  exact h.value hrun

theorem ending_nil : Ending [] :=
  fun _ hbelow => hbelow

theorem ending_block_nil : Ending [.block []] :=
  fun _ hbelow => finite_cons (.pure hbelow)

theorem ending_block_cons {t : Tree} {rest : Body} (ht : Yields Fails Ending t.enter)
    (hrest : Ending [.block rest]) : Ending [.block (t :: rest)] := by
  intro below hbelow
  apply finite_cons
  exact .bind ht fun frames hframes => .pure (hframes _ (hrest below hbelow))

/-- The rounds of a loop with a step of one, from a round whose index is in range. -/
theorem ending_counted {body : Body} {index limit : Cell} {ascending : Bool}
    (hbody : Ending [.block body]) (hrange : inRange index limit ascending = true) :
    Ending [.counted body false index limit ascending] := by
  intro below hbelow
  induction hn : distance index limit using Nat.strongRecOn generalizing index with
  | ind n ih =>
    subst hn
    apply finite_cons
    refine .bind (yields_anything _) fun _ _ => ?_
    refine .bind (V := (· = if ascending then 1 else -1)) (.pure rfl) ?_
    rintro step rfl
    dsimp only
    by_cases hnext : inRange (index + if ascending then 1 else -1) limit ascending = true
    · rw [if_pos hnext]
      refine .bind (pushReturn_yields _) fun _ _ => .pure ?_
      exact hbody _ (ih _ (distance_lt hrange) hnext rfl)
    · rw [if_neg hnext]
      exact .pure hbelow

end Frame

open Forth.Frame Exec

/-! ## What comes to run -/

mutual

theorem Definition.ending {word : Definition} (h : word.isBounded = true) :
    Yields Fails Ending word.invoke := by
  match word with
  | .primitive p => exact .bind (V := Anything) (yields_anything _) fun _ _ => .pure ending_nil
  | .compiled body => exact .pure (Body.ending h)
  | .value n => exact .bind (pushData_yields n) fun _ _ => .pure ending_nil

theorem Operation.ending {operation : Operation} (h : operation.isBounded = true) :
    Yields Fails Ending operation.perform := by
  match operation with
  | .number n => exact .bind (pushData_yields n) fun _ _ => .pure ending_nil
  | .string text => exact .bind (print_yields text) fun _ _ => .pure ending_nil
  | .invoke _ word => exact Definition.ending h

theorem Tree.ending {t : Tree} (h : t.isBounded = true) : Yields Fails Ending t.enter := by
  match t with
  | .leaf operation => exact Operation.ending h
  | .branch consequent alternative =>
    obtain ⟨hconsequent, halternative⟩ := (Bool.and_eq_true _ _).mp h
    refine .bind (yields_anything _) fun t _ => .pure ?_
    by_cases ht : t ≠ 0
    · rw [if_pos ht]
      exact Body.ending hconsequent
    · rw [if_neg ht]
      exact Body.ending halternative
  | .counted body false =>
    have hbody := Body.ending h
    refine .bind (yields_anything _) fun start _ => .bind (yields_anything _) fun limit _ => ?_
    by_cases hrange : inRange start limit (decide (start < limit)) = true
    · rw [if_pos hrange]
      refine .bind (pushReturn_yields start) fun _ _ => .pure fun below hbelow => ?_
      exact hbody _ (ending_counted hbody hrange below hbelow)
    · rw [if_neg hrange]
      exact .pure ending_nil

/-- A body without open loops comes to an end. -/
theorem Body.ending {body : List Tree} (h : Body.isBounded body = true) :
    Ending [.block body] := by
  match body with
  | [] => exact ending_block_nil
  | t :: rest =>
    obtain ⟨ht, hrest⟩ := Body.isBounded_cons_iff.1 h
    exact ending_block_cons (Tree.ending ht) (Body.ending hrest)

end

/-- An operation schedules at most a body. -/
theorem Operation.perform_yields (operation : Operation) :
    Yields Fails (fun frames => frames = [] ∨ ∃ body, frames = [.block body])
      operation.perform := by
  cases operation with
  | number n => exact .bind (pushData_yields n) fun _ _ => .pure (.inl rfl)
  | string text => exact .bind (print_yields text) fun _ _ => .pure (.inl rfl)
  | invoke name word =>
    cases word with
    | primitive p => exact .bind (V := Anything) (yields_anything _) fun _ _ => .pure (.inl rfl)
    | compiled body => exact .pure (.inr ⟨body, rfl⟩)
    | value n => exact .bind (pushData_yields n) fun _ _ => .pure (.inl rfl)

/-! ## Lines -/

/-- The line is through and did not just have to wait. -/
def Reply.IsFinal (reply : Reply) : Prop :=
  reply = .ok .ok ∨ reply = .ok .defining ∨ ∃ e, reply = .error e

namespace Session

/-- The second session is on the way of the line in progress: so many steps and so many of the
events that it waits for lead there. -/
inductive OnWay : Session → Session → Prop
  | here (s : Session) : OnWay s s
  | step {s t u : Session} (h : s.tick = .more t) (rest : OnWay t u) : OnWay s u
  | event {s u : Session} {e : Event} (he : e.answers s.machine.wait)
    (rest : OnWay (s.onMachine e.received) u) : OnWay s u

/-- The line in progress finishes after finitely many steps, whichever events it is given when it
waits, and has to wait finitely many times. -/
inductive Finishes : Session → Prop
  | over {s t : Session} {reply : Reply} (h : s.tick = .done (reply, t)) (hreply : reply.IsFinal) :
    Finishes s
  | step {s t : Session} (h : s.tick = .more t) (rest : Finishes t) : Finishes s
  | waits {s : Session} {w : Wait} (hwait : s.machine.wait = some w)
    (rest : ∀ e : Event, e.answers s.machine.wait → Finishes (s.onMachine e.received)) : Finishes s

/-- There is no open loop in what comes to run when the line takes its next token. -/
def RunsNoOpenLoop (s : Session) : Prop :=
  s.frames = [] → ∀ t body, s.tick = .more t → .block body ∈ t.frames →
    Body.isBounded body = true

variable {s t : Session}

theorem Stopped.isFinal {reply : Reply} (h : Stopped s reply t) (hwait : s.machine.wait = none) :
    reply.IsFinal := by
  cases h with
  | waiting h => exact nomatch hwait.symm.trans h
  | finished _ _ _ => exact .inl rfl
  | defining _ _ _ => exact .inr (.inl rfl)
  | unclosed _ _ _ | failed _ _ => exact .inr (.inr ⟨_, rfl⟩)

/-- The action of a token takes no characters of the line but a name. -/
theorem Dispatched.length_line_le {a : Action} {l : List Char} (h : Dispatched s a (.ok () t))
    (hline : s.line = some l) : ∃ rest, t.line = some rest ∧ rest.length ≤ l.length := by
  have hname {token : Token} {rest : List Char}
      (hnext : s.line.bind Token.next? = some (token, rest)) : rest.length ≤ l.length := by
    rw [hline] at hnext
    exact Nat.le_of_lt (Token.length_next?_lt hnext)
  cases h with
  | gathered _ _ | defined _ _ | nested _ _ | closed _ _ _ | performed _ _ | opened _ _ =>
    exact ⟨l, hline, Nat.le_refl _⟩
  | colon _ hnext | «variable» _ hnext | constant _ hnext _ => exact ⟨_, rfl, hname hnext⟩

/-- A token schedules at most a body. -/
theorem Dispatched.frames {a : Action} (h : Dispatched s a (.ok () t)) (hframes : s.frames = []) :
    t.frames = [] ∨ ∃ body, t.frames = [.block body] := by
  cases h with
  | gathered _ _ | defined _ _ | nested _ _ | opened _ _ | colon _ _ | «variable» _ _
  | constant _ _ _ => exact .inl hframes
  | @closed _ _ _ body _ _ _ =>
    refine .inr ⟨body, ?_⟩
    show .block body :: s.frames = [.block body]
    rw [hframes]
  | @performed operation frames m _ hrun =>
    show frames ++ s.frames = [] ∨ ∃ body, frames ++ s.frames = [.block body]
    rw [hframes, List.append_nil]
    exact operation.perform_yields.value hrun

/-- What a token schedules comes to an end if there is no open loop in it. -/
theorem RunsNoOpenLoop.finite {a : Action} {rest : List Char}
    (hs : s.RunsNoOpenLoop) (hframes : s.frames = []) (htick : s.tick = .more t)
    (h : Dispatched { s with line := some rest } a (.ok () t)) : Finite t.frames := by
  obtain hnone | ⟨body, hbody⟩ := h.frames hframes
  · rw [hnone]
    exact finite_nil
  · rw [hbody]
    have hbounded := hs hframes t body htick (hbody ▸ List.mem_singleton.2 rfl)
    exact Body.ending hbounded [] finite_nil

/-- A line whose frames come to an end finishes if no open loop is run on its way. -/
theorem finishes_of_finite {l : List Char} (hline : s.line = some l) (hfinite : Finite s.frames)
    (hway : ∀ v, OnWay s v → v.RunsNoOpenLoop) : Finishes s := by
  -- The rest of the line gets shorter with each token, and between two tokens the frames get
  -- fewer in the order in which they come to an end.
  induction hn : l.length using Nat.strongRecOn generalizing s l with
  | ind n ihline =>
    subst hn
    generalize hframes : s.frames = frames at hfinite
    induction hfinite generalizing s with
    | intro frames _ ihframes =>
      have hready (v : Session) (hline : v.line = some l) (hframes : v.frames = frames)
          (hwait : v.machine.wait = none) (hway : ∀ w, OnWay v w → w.RunsNoOpenLoop) :
          Finishes v := by
        cases htick : v.tick with
        | done r => exact .over htick ((stopped_of_tick htick).isFinal hwait)
        | more t =>
          have hlater (w : Session) (hw : OnWay t w) : w.RunsNoOpenLoop := hway w (.step htick hw)
          apply Finishes.step htick
          cases (advanced_of_tick htick).2 with
          | frame hcons hrun =>
            exact ihframes _ ⟨_, _, _, _, hframes.symm.trans hcons, hrun⟩ hline hlater rfl
          | @dispatched token rest a _ hnone hnext _ hdispatched =>
            have hshorter : rest.length < l.length := by
              rw [hline] at hnext
              exact Token.length_next?_lt hnext
            obtain ⟨rest', hline', hle⟩ := hdispatched.length_line_le rfl
            have hfinite := (hway v (.here v)).finite hnone htick hdispatched
            exact ihline rest'.length (by omega) hline' hfinite hlater rfl
      cases hwait : s.machine.wait with
      | none => exact hready s hline hframes hwait hway
      | some w =>
        refine .waits hwait fun e he => ?_
        exact hready _ hline hframes (e.received_wait _) fun v hv => hway v (.event he hv)

/-! ## Tokens without open loops -/

end Session

/-- The action is not one of the words that close an open loop, and does not invoke a word with an
open loop. -/
def Action.isBounded : Action → Bool
  | perform operation => operation.isBounded
  | control c => c != .until && c != .plusLoop

theorem Body.isBounded_flatMap {parts : List (List Action × Body)}
    (h : ∀ part ∈ parts, Body.isBounded part.2 = true) :
    Body.isBounded (parts.flatMap Prod.snd) = true := by
  induction parts with
  | nil => rfl
  | cons part parts ih =>
    rw [List.flatMap_cons]
    exact isBounded_append (h part (.head _)) (ih fun other hother => h other (.tail _ hother))

/-- A body that is written without open loops has none. -/
theorem Parses.isBounded {actions : List Action} {body : Body} (h : Parses actions body)
    (hactions : ∀ a ∈ actions, a.isBounded = true) : Body.isBounded body = true := by
  induction h with
  | nil => rfl
  | perform operation _ ih =>
    have hrest := ih fun a ha => hactions a (.tail _ ha)
    exact Body.isBounded_cons_iff.2 ⟨hactions _ (.head _), hrest⟩
  | @branch first rest consequent body parts _ _ _ ihfirst ihparts ihrest =>
    have hbefore (a : Action) (ha : a ∈ first ++ elseParts parts) : a.isBounded = true :=
      hactions a (List.mem_append_left _ (.tail _ ha))
    have hconsequent := ihfirst fun a ha => hbefore a (List.mem_append_left _ ha)
    have halternative := Body.isBounded_flatMap fun part hpart => ihparts part hpart fun a ha =>
      hbefore a (List.mem_append_right _ (List.mem_flatMap.2 ⟨part, hpart, .tail _ ha⟩))
    have hrest := ihrest fun a ha => hactions a (List.mem_append_right _ (.tail _ ha))
    refine Body.isBounded_cons_iff.2 ⟨?_, hrest⟩
    rw [Tree.isBounded, hconsequent, halternative, Bool.and_self]
  | @loop inner rest _ _ _ _ ihinner ihrest =>
    have hinner := ihinner fun a ha => hactions a (List.mem_append_left _ (.tail _ ha))
    have hrest := ihrest fun a ha => hactions a (List.mem_append_right _ (.tail _ ha))
    exact Body.isBounded_cons_iff.2 ⟨hinner, hrest⟩
  | plusLoop _ _ _ _ =>
    exact nomatch hactions (.control .plusLoop) (List.mem_append_right _ (.head _))
  | «until» _ _ _ _ =>
    exact nomatch hactions (.control .until) (List.mem_append_right _ (.head _))

/-- The bodies that an operation schedules belong to the words that it invokes. -/
theorem Operation.bodies_isBounded {operation : Operation} (h : operation.isBounded = true) :
    Yields Fails (fun frames => ∀ body, .block body ∈ frames → Body.isBounded body = true)
      operation.perform := by
  cases operation with
  | number n => exact .bind (pushData_yields n) fun _ _ => .pure nofun
  | string text => exact .bind (print_yields text) fun _ _ => .pure nofun
  | invoke name word =>
    cases word with
    | primitive p => exact .bind (V := Anything) (yields_anything _) fun _ _ => .pure nofun
    | compiled body =>
      refine .pure fun other hmem => ?_
      obtain rfl := Frame.block.inj (List.mem_singleton.1 hmem)
      exact h
    | value n => exact .bind (pushData_yields n) fun _ _ => .pure nofun

namespace Session

/-- The action of the token that the line takes next, if it takes one. -/
def nextAction? (s : Session) : Option Action :=
  match s.frames, s.line.bind Token.next? with
  | [], some (token, _) => (token.resolve s.dictionary).toOption
  | _, _ => none

/-- The token that the line takes next closes no open loop and invokes no word with one.  Inside of
a definition it may do so, as nothing is invoked there. -/
def takesBounded (s : Session) : Bool :=
  s.isDefining || s.nextAction?.all Action.isBounded

/-- What is gathered of a control structure closes no open loop and invokes no word with one. -/
def GathersBounded (s : Session) : Prop :=
  ∀ actions depth, s.gathering = .block actions depth → ∀ a ∈ actions, a.isBounded = true

variable {s t : Session}

theorem isBounded_of_takesBounded {token : Token} {rest : List Char} {a : Action}
    (hs : s.takesBounded = true) (hframes : s.frames = [])
    (hline : s.line.bind Token.next? = some (token, rest))
    (hresolve : token.resolve s.dictionary = .ok a) (hdefining : s.isDefining = false) :
    a.isBounded = true := by
  have hnext : s.nextAction? = some a := by
    simp only [nextAction?, hframes, hline, hresolve]
    rfl
  simpa only [takesBounded, hdefining, hnext, Bool.false_or, Option.all_some] using hs

theorem isDefining_of_nothing (hg : s.gathering = .nothing) : s.isDefining = false := by
  rw [isDefining, hg]

theorem isDefining_of_block {actions : List Action} {depth : Nat}
    (hg : s.gathering = .block actions depth) : s.isDefining = false := by
  rw [isDefining, hg]

theorem Dispatched.isBounded {a : Action} (h : Dispatched s a (.ok () t))
    (hframes : s.frames = []) (ha : s.isDefining = false → a.isBounded = true)
    (hs : s.GathersBounded) :
    t.GathersBounded ∧ ∀ body, .block body ∈ t.frames → Body.isBounded body = true := by
  -- A token is taken only when no frame is left, so the frames in the result are those that the
  -- action schedules.
  have hnone (body : Body) (hmem : .block body ∈ s.frames) : Body.isBounded body = true := by
    rw [hframes] at hmem
    exact nomatch hmem
  cases h with
  | gathered _ _ | defined _ _ | colon _ _ => exact ⟨nofun, hnone⟩
  | @nested actions depth a hg _ =>
    refine ⟨?_, hnone⟩
    rintro _ _ ⟨⟩
    exact List.forall_mem_append.2
      ⟨hs actions depth hg, List.forall_mem_singleton.2 (ha (isDefining_of_block hg))⟩
  | @closed actions depth a body hg _ hbody =>
    have hactions : ∀ b ∈ actions ++ [a], b.isBounded = true := List.forall_mem_append.2
      ⟨hs actions depth hg, List.forall_mem_singleton.2 (ha (isDefining_of_block hg))⟩
    refine ⟨nofun, fun other hmem => ?_⟩
    obtain hother | hmem := List.mem_cons.1 hmem
    · obtain rfl := Frame.block.inj hother
      exact (parses_of_compile hbody).isBounded hactions
    · exact hnone other hmem
  | @performed operation frames m hg hrun =>
    refine ⟨fun actions depth hblock => (nomatch hg.symm.trans hblock), fun body hmem => ?_⟩
    obtain hmem | hmem := List.mem_append.1 hmem
    · exact (operation.bodies_isBounded (ha (isDefining_of_nothing hg))).value hrun body hmem
    · exact hnone body hmem
  | @opened c hg hc =>
    refine ⟨?_, hnone⟩
    rintro _ _ ⟨⟩
    refine List.forall_mem_singleton.2 ?_
    cases c with
    | «if» | «do» | begin => rfl
    | _ => exact nomatch hc
  | «variable» hg _ | constant hg _ _ =>
    exact ⟨fun actions depth hblock => (nomatch hg.symm.trans hblock), hnone⟩

theorem Advanced.gathersBounded (h : Advanced s (.ok true t)) (htake : s.takesBounded = true)
    (hs : s.GathersBounded) : t.GathersBounded := by
  cases h with
  | frame _ _ => exact hs
  | dispatched hframes hline hresolve h =>
    have hbounded := isBounded_of_takesBounded htake hframes hline hresolve
    exact (h.isBounded hframes hbounded hs).1

theorem GathersBounded.runsNoOpenLoop (hs : s.GathersBounded) (htake : s.takesBounded = true) :
    s.RunsNoOpenLoop := by
  intro hframes t body htick hmem
  cases (advanced_of_tick htick).2 with
  | frame hcons _ => exact nomatch hframes.symm.trans hcons
  | dispatched _ hline hresolve h =>
    have hbounded := isBounded_of_takesBounded htake hframes hline hresolve
    exact (h.isBounded hframes hbounded hs).2 body hmem

/-- A line that is written without open loops and invokes no words with open loops runs none. -/
theorem runsNoOpenLoop_of_takesBounded (hs : s.GathersBounded)
    (hway : ∀ v, OnWay s v → v.takesBounded = true) : ∀ v, OnWay s v → v.RunsNoOpenLoop := by
  intro v hv
  induction hv with
  | here s => exact hs.runsNoOpenLoop (hway s (.here s))
  | @step s t u htick _ ih =>
    have ht := (advanced_of_tick htick).2.gathersBounded (hway s (.here s)) hs
    exact ih ht fun w hw => hway w (.step htick hw)
  | event he _ ih => exact ih hs fun w hw => hway w (.event he hw)

/-! ## The statement -/

/-- **Without `until` and `+loop`, everything terminates.**  A host has come from a new session to
one in which a line starts, directly or from the queue, and it may have done what it likes to the
machine and added any words.  If what the line runs, token by token, has no open loop in it or in
the words that it invokes, the line finishes.  This is so in particular if no token of the line
closes an open loop or invokes a word with one.  And no word is recursive: whatever a word invokes,
directly or through other words, was in the dictionary before it. -/
theorem lines_without_open_loops_finish {word : Primitive → Prop} {random : Nat → UInt64}
    (hs : Onward word Freely (withPrimitives random) s) :
    (∀ text, s.line = none → (∀ v, OnWay (s.startLine text) v → v.RunsNoOpenLoop) →
      Finishes (s.startLine text)) ∧
    (∀ text, s.line = none → (∀ v, OnWay (s.startLine text) v → v.takesBounded = true) →
      Finishes (s.startLine text)) ∧
    (∀ newer name definition older invoked,
      s.dictionary = newer ++ (name, .word definition) :: older →
      Relation.TransGen Definition.Invokes definition invoked →
      (∃ name', (name', .word invoked) ∈ older) ∧ invoked ≠ definition) := by
  have hfinishes (text : String) (hline : s.line = none)
      (hway : ∀ v, OnWay (s.startLine text) v → v.RunsNoOpenLoop) :
      Finishes (s.startLine text) := by
    obtain ⟨hframes, -⟩ := hs.unloaded (unloaded_withPrimitives random) hline
    -- A line starts without frames, so what it runs comes from its tokens.
    have hfinite : Frame.Finite (s.startLine text).frames := by
      show Frame.Finite s.frames
      rw [hframes]
      exact finite_nil
    exact finishes_of_finite rfl hfinite hway
  refine ⟨hfinishes, fun text hline hway => ?_, ?_⟩
  · obtain ⟨-, hblock⟩ := hs.unloaded (unloaded_withPrimitives random) hline
    have hgathers : (s.startLine text).GathersBounded :=
      fun actions depth hg => absurd hg (hblock actions depth)
    exact hfinishes text hline (runsNoOpenLoop_of_takesBounded hgathers hway)
  · intro newer name definition older invoked hdictionary hinvokes
    -- A definition invokes entries below its own only, so a chain of invocations goes down.
    have hlayered := (hs.orders (orders_withPrimitives random)).dictionary
    rw [hdictionary] at hlayered
    refine ⟨hlayered.knows_of_transGen hinvokes, ?_⟩
    rintro rfl
    exact invoked.not_invokes_self hinvokes

/-- Whether a line that waits for nothing but the ends of delays takes bounded tokens only, within
so many steps and events. -/
def wayBounded (s : Session) : Nat → Bool
  | 0 => false
  | fuel + 1 =>
    s.takesBounded &&
      match s.machine.wait with
      | some .key => false
      | some (.timer _) => (s.onMachine Event.timer.received).wayBounded fuel
      | none =>
        match s.tick with
        | .more t => t.wayBounded fuel
        | .done _ => true

theorem takesBounded_of_wayBounded {v : Session} (hv : OnWay s v) {fuel : Nat}
    (h : s.wayBounded fuel = true) : v.takesBounded = true := by
  -- By induction over the way, which takes one unit of the fuel at each of its steps.  A key may
  -- have any code, so a way that waits for one is not decided here.
  induction hv generalizing fuel with
  | here s =>
    cases fuel with
    | zero => exact nomatch h
    | succ fuel => exact ((Bool.and_eq_true _ _).mp h).1
  | step htick _ ih =>
    cases fuel with
    | zero => exact nomatch h
    | succ fuel =>
      have hrest := ((Bool.and_eq_true _ _).mp h).2
      simp only [(advanced_of_tick htick).1, htick] at hrest
      exact ih hrest
  | @event s u e he _ ih =>
    cases fuel with
    | zero => exact nomatch h
    | succ fuel =>
      have hrest := ((Bool.and_eq_true _ _).mp h).2
      rcases hwait : s.machine.wait with _ | _ | ms
      · exact absurd hwait (Event.ne_none_of_answers he)
      · simp [hwait] at hrest
      · simp only [hwait] at hrest he
        cases e with
        | key code => exact nomatch he
        | timer => exact ih hrest

/-- A loop that calls a word which makes the line wait finishes, and the word invokes an older
one. -/
theorem lines_without_open_loops_finish_nap :
    ∃ s nap older, (withPrimitives fun _ => 0).readLine 20 ": nap 5 sleep ;" = some (.ok .ok, s) ∧
      s.dictionary = ("nap", .word nap) :: older ∧ nap.Invokes (.primitive .sleep) ∧
      Finishes (s.startLine "2 0 do nap loop") ∧
      ∃ name, (name, .word (.primitive .sleep)) ∈ older := by
  obtain ⟨s, older, hread, hdictionary⟩ : ∃ s older,
      (withPrimitives fun _ => 0).readLine 20 ": nap 5 sleep ;" = some (.ok .ok, s) ∧
      s.dictionary = ("nap", .word (.compiled [.leaf (.number 5),
        .leaf (.invoke "sleep" (.primitive .sleep))])) :: older :=
    ⟨_, _, rfl, rfl⟩
  have hway : ((withPrimitives fun _ => 0).readLine 20 ": nap 5 sleep ;").any
      (fun r => r.2.line = none ∧ (r.2.startLine "2 0 do nap loop").wayBounded 40 = true) =
        true := by
    decide +kernel
  rw [hread] at hway
  obtain ⟨hline, hbounded⟩ := of_decide_eq_true hway
  have hs : Between (fun _ => False) Freely (withPrimitives fun _ => 0) s :=
    Between.readLine respectsReturns_freely ⟨.here, fun _ => rfl⟩ hread
  have hinvokes : (Definition.compiled [.leaf (.number 5),
      .leaf (.invoke "sleep" (.primitive .sleep))]).Invokes (.primitive .sleep) :=
    ⟨_, "sleep", rfl, by simp [Body.leaves, Tree.leaves]⟩
  obtain ⟨-, hfinishes, hlayered⟩ := lines_without_open_loops_finish hs.1
  refine ⟨s, _, older, hread, hdictionary, hinvokes, ?_, ?_⟩
  · exact hfinishes _ hline fun v hv => takesBounded_of_wayBounded hv hbounded
  · exact (hlayered [] _ _ older _ hdictionary (.single hinvokes)).1

end Session

end Forth
