import Forth.Proofs.Alike
import Forth.Proofs.FlooredDivision
import Forth.Proofs.FrameMachine

/-!
# Effects of words

A word is invoked on a machine and runs above whatever frames are scheduled.  `Brings` says what a
word comes to that runs to its end, in the steps of a line as well as in a run of frames; the
evaluation of its body tells that (`Definition.brings_of_eval`).

Many words only put some cells in the place of others on top of the data stack.  `Turns` says so of a
primitive, a tree and a body, above any cells that lie below.  The effects of the trees of a body can
then be put together by their stacks alone (`Tree.Turns.cons`).
-/

namespace Forth

open Exec

/-! ## Running a word to its end -/

namespace Session

variable {s t : Session}

/-- A line in progress runs its frames like a run of frames does. -/
theorem tick_of_frameTick (h : s.frameTick = .more t) : s.tick = .more t := by
  unfold frameTick at h
  split at h
  · rename_i hwait hframes
    unfold tick
    simp only [hwait, advance_run_frames hframes, EStateM.run_bind]
    split at h
    · rename_i hstep
      rw [hstep]
      obtain rfl := Progress.more.inj h
      rfl
    · cases h
  · cases h

theorem leads_tick_of_frameTick (h : Leads frameTick s t) : Leads tick s t := by
  induction h with
  | refl s => exact .refl s
  | more hstep _ ih => exact .more (tick_of_frameTick hstep) ih

end Session

/-- Invoked on the first machine, the word runs until only the frames are left that were scheduled
before, and leaves the second machine. -/
def Definition.Brings (word : Definition) (m m' : Machine) : Prop :=
  ∃ frames m₁, word.invoke.run m = .ok frames m₁ ∧
    ∀ (s : Session) (below : List Frame),
      Leads Session.tick (s.placed m₁ (frames ++ below)) (s.placed m' below) ∧
      Leads Session.frameTick (s.placed m₁ (frames ++ below)) (s.placed m' below)

theorem Definition.brings_of_eval {body : Body} {m m' : Machine} (hwait : m.wait = none)
    (h : Body.eval body m = some (.done m')) : (compiled body).Brings m m' := by
  refine ⟨[.block body], m, rfl, fun s below => ?_⟩
  have hleads := (Body.runs body m (.done m') hwait h s below).2
  exact ⟨Session.leads_tick_of_frameTick hleads, hleads⟩

/-! ## Effects on the data stack -/

/-- The word takes the cells of the first list off the data stack, pushes those of the second one,
and does nothing else. -/
def Primitive.Turns (p : Primitive) (before after : Stack) : Prop :=
  ∀ (m : Machine) (below : Stack),
    p.run.run { m with data := before ++ below } = .ok () { m with data := after ++ below }

/-- The same for what a tree means while nothing is awaited. -/
def Tree.Turns (t : Tree) (before after : Stack) : Prop :=
  ∀ (m : Machine) (below : Stack), m.wait = none →
    t.eval { m with data := before ++ below } = some (.done { m with data := after ++ below })

/-- The same for what a body means while nothing is awaited. -/
def Body.Turns (b : Body) (before after : Stack) : Prop :=
  ∀ (m : Machine) (below : Stack), m.wait = none →
    Body.eval b { m with data := before ++ below } = some (.done { m with data := after ++ below })

section

variable {p : Primitive} {t : Tree} {b : Body} {xs ys zs : Stack}

/-- A tree that comes to its end leaves the rest of the body to be evaluated. -/
theorem Body.eval_cons_of_done {m m' : Machine} (h : t.eval m = some (.done m')) :
    Body.eval (t :: b) m = Body.eval b m' := by
  rw [Body.eval_cons, h, andThen_done]

/-- Cells further down do not matter. -/
theorem Tree.Turns.above (h : t.Turns xs ys) (zs : Stack) : t.Turns (xs ++ zs) (ys ++ zs) := by
  intro m below hwait
  rw [List.append_assoc, List.append_assoc]
  exact h m (zs ++ below) hwait

theorem Body.Turns.brings (h : Body.Turns b xs ys) {m : Machine} (hwait : m.wait = none)
    (below : Stack) :
    (Definition.compiled b).Brings { m with data := xs ++ below } { m with data := ys ++ below } :=
  Definition.brings_of_eval hwait (h m below hwait)

theorem Body.turns_nil (xs : Stack) : Body.Turns [] xs xs :=
  fun m below _ => Body.eval_nil { m with data := xs ++ below }

theorem Tree.Turns.cons (h : t.Turns xs ys) (hb : Body.Turns b ys zs) :
    Body.Turns (t :: b) xs zs := by
  intro m below hwait
  rw [Body.eval_cons_of_done (h m below hwait)]
  exact hb m below hwait

theorem Tree.turns_number (n : Cell) : (Tree.leaf (.number n)).Turns [] [n] := by
  intro m below _
  rw [Tree.eval]
  rfl

theorem Tree.eval_primitive {name : String} {m m' : Machine} (h : p.run.run m = .ok () m')
    (hwait : m'.wait = none) :
    (Tree.leaf (.invoke name (.primitive p))).eval m = some (.done m') := by
  rw [Tree.eval]
  simp only [h, Outcome.ofResult, hwait, if_true]

theorem Primitive.Turns.tree (h : p.Turns xs ys) (name : String) :
    (Tree.leaf (.invoke name (.primitive p))).Turns xs ys :=
  fun m below hwait => Tree.eval_primitive (h m below) hwait

theorem Body.Turns.tree (h : Body.Turns b xs ys) (name : String) :
    (Tree.leaf (.invoke name (.compiled b))).Turns xs ys := by
  intro m below hwait
  rw [Tree.eval]
  exact h m below hwait

/-- The flag on top chooses between two bodies. -/
theorem Tree.turns_branch {flag : Cell} {consequent alternative : Body}
    (h : Body.Turns (if flag ≠ 0 then consequent else alternative) xs ys) :
    (Tree.branch consequent alternative).Turns (flag :: xs) ys := by
  intro m below hwait
  rw [Tree.eval_branch]
  exact h m below hwait

end

namespace Primitive

variable (a b c : Cell)

theorem turns_duplicate : duplicate.Turns [a] [a, a] := fun _ _ => rfl

theorem turns_drop : drop.Turns [a] [] := fun _ _ => rfl

theorem turns_swap : swap.Turns [b, a] [a, b] := fun _ _ => rfl

theorem turns_copySecond : copySecond.Turns [b, a] [a, b, a] := fun _ _ => rfl

theorem turns_rotate : rotate.Turns [c, b, a] [a, c, b] := fun _ _ => rfl

theorem turns_add : add.Turns [b, a] [a + b] := fun _ _ => rfl

theorem turns_subtract : subtract.Turns [b, a] [a - b] := fun _ _ => rfl

theorem turns_multiply : multiply.Turns [b, a] [a * b] := fun _ _ => rfl

theorem turns_equal : equal.Turns [b, a] [.ofBool (a == b)] := fun _ _ => rfl

theorem turns_less : less.Turns [b, a] [.ofBool (a < b)] := fun _ _ => rfl

theorem turns_greater : greater.Turns [b, a] [.ofBool (a > b)] := fun _ _ => rfl

theorem turns_divide {b : Cell} (hb : b ≠ 0) : divide.Turns [b, a] [a.floorDiv b] := by
  intro m below
  refine (division_run _ rfl).trans ?_
  rw [if_neg hb]
  rfl

end Primitive

end Forth
