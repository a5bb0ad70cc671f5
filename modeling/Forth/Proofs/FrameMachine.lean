import Forth.Proofs.Evaluation
import Forth.Proofs.Runs
import Forth.Session.Call

/-!
# The frame machine runs what trees mean

`Session.enter` schedules a body and `Session.runFrames` steps the frames.  Together they come to
what the evaluation of the body tells, and without a value of the evaluation they never end
(`runFrames_enter_iff`).

In one direction a step of the machine keeps the evaluation of the frames that are left, so the
result of a run is that of the evaluation.  In the other direction the evaluation of a tree is put
together from those of its bodies, and by induction on trees the machine runs each body above
whatever frames lie below it (`Tree.runs`, `Body.runs`).  A loop is a run of rounds, and the machine
gets from the start of each round to that of the next one (`comes_of_loopOutcome`).
-/

namespace Forth

namespace Session

/-- Schedules a body above the frames that are there. -/
def enter (s : Session) (body : Body) : Session :=
  { s with frames := .block body :: s.frames }

/-- The session with this machine and these scheduled frames. -/
def placed (s : Session) (m : Machine) (frames : List Frame) : Session :=
  { s with machine := m, frames }

variable (s : Session) {m : Machine}

theorem frameTick_nil (m : Machine) :
    (s.placed m []).frameTick = .done (.ok (), s.placed m []) := by
  unfold frameTick placed
  cases m.wait <;> rfl

theorem frameTick_waiting (frames : List Frame) (h : m.wait ≠ none) :
    (s.placed m frames).frameTick = .done (.ok (), s.placed m frames) := by
  obtain ⟨w, hw⟩ := Option.ne_none_iff_exists'.1 h
  simp [frameTick, placed, hw]

theorem frameTick_cons (f : Frame) (below : List Frame) (h : m.wait = none) :
    (s.placed m (f :: below)).frameTick =
      match (f.step below).run m with
      | .ok frames m => .more (s.placed m frames)
      | .error e m => .done (.error e, s.placed m (f :: below)) := by
  simp only [frameTick, placed, h, lift, EStateM.run]
  cases f.step below m <;> rfl

end Session

open Session Exec

/-! ## From the machine to the evaluation -/

/-- What a run of the frames came to. -/
def runOutcome : Except Error Unit × Session → Outcome
  | (.ok (), s) => .ofResult (.ok () s.machine)
  | (.error e, s) => .ofResult (.error e s.machine)

theorem runOutcome_eq_done {reply : Except Error Unit} {t : Session} {m : Machine} :
    runOutcome (reply, t) = .done m ↔ reply = .ok () ∧ t.machine = m ∧ m.wait = none := by
  obtain e | u := reply
  · simp [runOutcome, Outcome.ofResult]
  · by_cases hwait : t.machine.wait = none
    · simp only [runOutcome, Outcome.ofResult, hwait, if_true, Outcome.done.injEq, true_and]
      exact ⟨fun h => ⟨h, h ▸ hwait⟩, And.left⟩
    · simp only [runOutcome, Outcome.ofResult, hwait, if_false, reduceCtorEq, true_and, false_iff]
      rintro ⟨rfl, h⟩
      exact hwait h

theorem runOutcome_eq_failed {reply : Except Error Unit} {t : Session} {e : Error} {m : Machine} :
    runOutcome (reply, t) = .failed e m ↔ reply = .error e ∧ t.machine = m := by
  obtain e' | u := reply
  · simp [runOutcome, Outcome.ofResult]
  · by_cases hwait : t.machine.wait = none
    · simp [runOutcome, Outcome.ofResult, hwait]
    · simp [runOutcome, Outcome.ofResult, hwait]

theorem runOutcome_eq_waiting {reply : Except Error Unit} {t : Session} {m : Machine} :
    runOutcome (reply, t) = .waiting m ↔ reply = .ok () ∧ t.machine = m ∧ m.wait ≠ none := by
  obtain e | u := reply
  · simp [runOutcome, Outcome.ofResult]
  · by_cases hwait : t.machine.wait = none
    · simp only [runOutcome, Outcome.ofResult, hwait, if_true, reduceCtorEq, true_and, false_iff]
      rintro ⟨rfl, h⟩
      exact h hwait
    · simp only [runOutcome, Outcome.ofResult, hwait, if_false, Outcome.waiting.injEq, true_and]
      exact ⟨fun h => ⟨h, h ▸ hwait⟩, And.left⟩

/-- What a run of frames leaves as it is: all but the machine and the frames, and there are frames
left only if the run has to wait or fails. -/
def FramesLeft (t : Session) (r : Except Error Unit × Session) : Prop :=
  r.2 = t.placed r.2.machine r.2.frames ∧
    (r.1 = .ok () → r.2.machine.wait = none → r.2.frames = [])

theorem evalAfter_frameTick (t : Session) :
    match t.frameTick with
    | .more t' =>
      evalAfter (.ok t.frames t.machine) = evalAfter (.ok t'.frames t'.machine) ∧
        t' = t.placed t'.machine t'.frames
    | .done r => evalAfter (.ok t.frames t.machine) = some (runOutcome r) ∧ FramesLeft t r := by
  -- A step is taken only if nothing is awaited and a frame is left; the other two cases are ends.
  by_cases hwait : t.machine.wait = none
  · cases hframes : t.frames with
    | nil =>
      have htick : t.frameTick = .done (.ok (), t) := by
        simpa [placed, ← hframes] using t.frameTick_nil t.machine
      rw [htick]
      refine ⟨?_, rfl, fun _ _ => hframes⟩
      simp [evalAfter, hwait, framesEval, runOutcome, Outcome.ofResult]
    | cons f below =>
      have htick := t.frameTick_cons f below hwait
      rw [← hframes] at htick
      rw [evalAfter_ok _ hwait, framesEval_eq_evalAfter f below hwait]
      cases hstep : (f.step below).run t.machine with
      | ok frames m =>
        rw [show t.frameTick = .more (t.placed m frames) by simpa [hstep, placed] using htick]
        exact ⟨rfl, rfl⟩
      | error e m =>
        rw [show t.frameTick = .done (.error e, t.placed m t.frames) by
          simpa [hstep, placed] using htick]
        exact ⟨rfl, rfl, by simp⟩
  · have htick : t.frameTick = .done (.ok (), t) := t.frameTick_waiting t.frames hwait
    rw [htick]
    refine ⟨?_, rfl, fun _ h => absurd h hwait⟩
    simp [evalAfter, hwait, runOutcome, Outcome.ofResult]

/-- A run of frames comes to what the frames have left to do. -/
theorem evalAfter_of_ends {t : Session} {r : Except Error Unit × Session}
    (h : Ends frameTick t r) :
    evalAfter (.ok t.frames t.machine) = some (runOutcome r) ∧ FramesLeft t r := by
  induction h with
  | @done t r h =>
    have htick := evalAfter_frameTick t
    rwa [h] at htick
  | @more t t' r h _ ih =>
    have htick := evalAfter_frameTick t
    rw [h] at htick
    obtain ⟨heval, hplaced⟩ := htick
    obtain ⟨hrest, hleft⟩ := ih
    rw [hplaced] at hleft
    exact ⟨heval.trans hrest, hleft⟩

/-! ## From the evaluation to the machine -/

/-- The machine with these frames above `below` comes to an outcome: it gets rid of them, or stops
on the way. -/
def Comes (s : Session) (m : Machine) (frames below : List Frame) : Outcome → Prop
  | .done m' => m'.wait = none ∧ Leads frameTick (s.placed m frames) (s.placed m' below)
  | .failed e m' => ∃ left, Ends frameTick (s.placed m frames) (.error e, s.placed m' left)
  | .waiting m' =>
    m'.wait ≠ none ∧ ∃ left, Ends frameTick (s.placed m frames) (.ok (), s.placed m' left)

theorem Comes.of_leads {s : Session} {m m' : Machine} {frames frames' below : List Frame}
    {o : Outcome} (h : Leads frameTick (s.placed m frames) (s.placed m' frames'))
    (ho : Comes s m' frames' below o) : Comes s m frames below o := by
  cases o with
  | done m₁ => exact ⟨ho.1, h.trans ho.2⟩
  | failed e m₁ =>
    obtain ⟨left, hleft⟩ := ho
    exact ⟨left, h.ends_iff.2 hleft⟩
  | waiting m₁ =>
    obtain ⟨hwait, left, hleft⟩ := ho
    exact ⟨hwait, left, h.ends_iff.2 hleft⟩

theorem Comes.then {s : Session} {m m' : Machine} {frames mid below : List Frame} {o : Outcome}
    (h : Comes s m frames mid (.done m')) (ho : m'.wait = none → Comes s m' mid below o) :
    Comes s m frames below o :=
  (ho h.1).of_leads h.2

/-- A step that ends the frames in question, or goes on with others. -/
theorem Comes.of_step {s : Session} {m : Machine} {f : Frame} {rest below : List Frame}
    {o : Outcome} (hwait : m.wait = none)
    (h : match (f.step rest).run m with
      | .ok frames m' => Comes s m' frames below o
      | .error e m' => o = .failed e m') :
    Comes s m (f :: rest) below o := by
  have hcons := s.frameTick_cons f rest hwait
  cases hstep : (f.step rest).run m with
  | ok frames m' =>
    simp only [hstep] at h hcons
    exact h.of_leads (.one hcons)
  | error e m' =>
    simp only [hstep] at h hcons
    subst h
    exact ⟨_, .done hcons⟩

theorem Comes.of_waiting {s : Session} {m : Machine} {frames below : List Frame}
    (h : m.wait ≠ none) : Comes s m frames below (.waiting m) :=
  ⟨h, frames, .done (s.frameTick_waiting frames h)⟩

theorem Comes.refl {s : Session} {m : Machine} {below : List Frame} (h : m.wait = none) :
    Comes s m below below (.done m) :=
  ⟨h, .refl _⟩

/-- Where a part of the work stops, all of it does. -/
theorem Comes.stop {s : Session} {m : Machine} {frames mid below : List Frame} {o : Outcome}
    (h : Comes s m frames mid o) (ho : ∀ m, o ≠ .done m) : Comes s m frames below o := by
  cases o with
  | done m' => exact absurd rfl (ho m')
  | failed e m' => exact h
  | waiting m' => exact h

/-- The machine carries out the evaluation of a tree: it enters the tree and goes on with the frames
that this schedules. -/
def Tree.Runs (t : Tree) : Prop :=
  ∀ m o, m.wait = none → t.eval m = some o →
    match t.enter.run m with
    | .ok frames m' => ∀ s below, Comes s m' (frames ++ below) below o
    | .error e m' => o = .failed e m'

def Body.Runs (b : Body) : Prop :=
  ∀ m o, m.wait = none → Body.eval b m = some o →
    ∀ s below, Comes s m (.block b :: below) below o

/-- The innermost block enters its first tree. -/
theorem Tree.Runs.comes {t : Tree} (ht : t.Runs) {m : Machine} {o : Outcome} (hwait : m.wait = none)
    (h : t.eval m = some o) (s : Session) (rest : Body) (below : List Frame) :
    Comes s m (.block (t :: rest) :: below) (.block rest :: below) o := by
  have hentered := ht m o hwait h
  refine .of_step hwait ?_
  simp only [Frame.step, EStateM.run_bind]
  cases henter : t.enter.run m with
  | error e m' =>
    rw [henter] at hentered
    exact hentered
  | ok frames m' =>
    rw [henter] at hentered
    exact hentered s (.block rest :: below)

/-- The machine carries out a loop if it carries out each round, ending where the loop ends and
otherwise getting to the start of the next round. -/
theorem comes_of_loopOutcome {σ : Type} {round : σ → Progress σ (Option Outcome)}
    (I : σ → Prop) (machine : σ → Machine) (frames : σ → List Frame) {s : Session}
    {below : List Frame}
    (hround : ∀ x, I x →
      match round x with
      | .more y =>
        I y ∧ Leads frameTick (s.placed (machine x) (frames x)) (s.placed (machine y) (frames y))
      | .done o => ∀ o', o = some o' → Comes s (machine x) (frames x) below o')
    {x : σ} {o : Outcome} (hx : I x) (h : loopOutcome round x = some o) :
    Comes s (machine x) (frames x) below o := by
  generalize hlast : some o = last at h
  have hends : Ends round x last := hlast ▸ ends_of_loopOutcome (h.trans hlast.symm)
  clear h
  induction hends with
  | @done x last hdone =>
    have hfirst := hround x hx
    rw [hdone] at hfirst
    exact hfirst o hlast.symm
  | @more x y last hmore _ ih =>
    have hfirst := hround x hx
    rw [hmore] at hfirst
    exact (ih hfirst.1 hlast).of_leads hfirst.2

theorem Body.Runs.rounds {body : Body} (hbody : body.Runs) {byStep ascending : Bool}
    {index limit : Cell} {m : Machine} {o : Outcome} (hwait : m.wait = none)
    (h : Rounds.eval ⟨Body.eval body, byStep, index, limit, ascending⟩ m = some o) (s : Session)
    (below : List Frame) :
    Comes s (roundMachine index limit ascending m)
      (roundFrames body byStep index limit ascending below) below o := by
  refine comes_of_loopOutcome (fun x => x.1.body = Body.eval body ∧ x.2.wait = none)
    (fun x => roundMachine x.1.index x.1.limit x.1.ascending x.2)
    (fun x => roundFrames body x.1.byStep x.1.index x.1.limit x.1.ascending below)
    ?_ ⟨rfl, hwait⟩ h
  rintro ⟨⟨_, byStep, index, limit, ascending⟩, m⟩ ⟨rfl, hwait⟩
  by_cases hrange : inRange index limit ascending
  · simp only [Rounds.next, roundMachine, roundFrames, if_pos hrange]
    -- The body runs above the loop frame, and a step of that frame ends the round.
    have hfirst := fun o h => hbody { m with returns := index :: m.returns } o hwait h s
      (.counted body byStep index limit ascending :: below)
    rcases heval : Body.eval body { m with returns := index :: m.returns } with _ | m' | ⟨e, m'⟩ | m'
    · simp
    · obtain ⟨hwait', hleads⟩ := hfirst _ heval
      have hstep := Frame.step_counted_run body byStep index limit ascending below m'
      cases hround : (endRound byStep ascending).run m' with
      | error e m₁ =>
        simp only [hround] at hstep ⊢
        rintro o' ⟨⟩
        exact .of_leads hleads (.of_step hwait' (by rw [hstep]))
      | ok step m₁ =>
        simp only [hround] at hstep ⊢
        refine ⟨⟨trivial, (endRound_wait hround).trans hwait'⟩, hleads.trans (.one ?_)⟩
        rw [frameTick_cons _ _ _ hwait', hstep]
        rfl
    · rintro o' ⟨⟩
      exact (hfirst _ heval).stop (by simp)
    · rintro o' ⟨⟩
      exact (hfirst _ heval).stop (by simp)
  · simp only [Rounds.next, roundMachine, roundFrames, if_neg hrange]
    rintro o' ⟨⟩
    exact .refl hwait

theorem Body.Runs.untilTrue {body : Body} (hbody : body.Runs) {m : Machine} {o : Outcome}
    (hwait : m.wait = none) (h : loopOutcome (untilRound (Body.eval body)) m = some o) (s : Session)
    (below : List Frame) : Comes s m (.block body :: .untilTrue body :: below) below o := by
  refine comes_of_loopOutcome (fun m => m.wait = none) id
    (fun _ => .block body :: .untilTrue body :: below) ?_ hwait h
  -- One round: the body above the loop frame, and then the step of that frame which looks at the
  -- flag.
  intro m hwait
  have hfirst := fun o h => hbody m o hwait h s (.untilTrue body :: below)
  unfold untilRound
  rcases heval : Body.eval body m with _ | m' | ⟨e, m'⟩ | m'
  · simp
  · obtain ⟨hwait', hleads⟩ := hfirst _ heval
    have hstep := Frame.step_untilTrue_run body below m'
    simp only [popData_run] at hstep ⊢
    cases hdata : m'.data with
    | nil =>
      simp only [hdata] at hstep ⊢
      rintro o' ⟨⟩
      exact .of_leads hleads (.of_step hwait' (by rw [hstep]))
    | cons t rest =>
      simp only [hdata] at hstep ⊢
      by_cases ht : t = -1
      · simp only [if_pos ht] at hstep ⊢
        rintro o' ⟨⟩
        refine .of_leads hleads (.of_step hwait' ?_)
        rw [hstep]
        exact .refl hwait'
      · simp only [if_neg ht] at hstep ⊢
        refine ⟨hwait', hleads.trans (.one ?_)⟩
        rw [frameTick_cons _ _ _ hwait', hstep]
        rfl
  · rintro o' ⟨⟩
    exact (hfirst _ heval).stop (by simp)
  · rintro o' ⟨⟩
    exact (hfirst _ heval).stop (by simp)

mutual

/-- Every evaluation of a tree that has a value is carried out by the machine. -/
theorem Tree.runs (t : Tree) : t.Runs := by
  intro m o hwait h
  -- Structural recursion on trees, together with `Body.runs`.  A leaf is over when it has been
  -- entered; everything else schedules a body, and the recursion covers that.
  cases t with
  | leaf operation =>
    rcases operation with n | text | ⟨name, action | body | n⟩
    · rw [Tree.eval] at h
      obtain rfl := Option.some.inj h
      exact fun s below => .refl hwait
    · rw [Tree.eval] at h
      obtain rfl := Option.some.inj h
      exact fun s below => .refl hwait
    · rw [Tree.eval] at h
      obtain rfl := Option.some.inj h
      simp only [Tree.enter, Operation.perform, Definition.invoke, EStateM.run_bind]
      cases action.run.run m with
      | error e m' => rfl
      | ok u m' =>
        intro s below
        by_cases hdone : m'.wait = none
        · simpa [Outcome.ofResult, hdone] using Comes.refl hdone
        · simpa [Outcome.ofResult, hdone] using Comes.of_waiting hdone
    · rw [Tree.eval] at h
      exact Body.runs body m o hwait h
    · rw [Tree.eval] at h
      obtain rfl := Option.some.inj h
      exact fun s below => .refl hwait
  | branch consequent alternative =>
    rw [Tree.eval] at h
    simp only [Tree.enter, EStateM.run_bind, popData_run] at h ⊢
    cases hdata : m.data with
    | nil =>
      simp only [hdata] at h
      exact (Option.some.inj h).symm
    | cons t rest =>
      simp only [hdata] at h
      by_cases ht : t = 0
      · simp only [ht, ne_eq, not_true_eq_false, if_false] at h ⊢
        exact Body.runs alternative _ o hwait h
      · simp only [ht, ne_eq, not_false_eq_true, if_true] at h ⊢
        exact Body.runs consequent _ o hwait h
  | counted body byStep =>
    rw [Tree.eval] at h
    rw [Tree.enter_counted_run]
    cases hrange : popRange.run m with
    | error e m' =>
      simp only [hrange] at h
      exact (Option.some.inj h).symm
    | ok range m' =>
      simp only [hrange] at h
      intro s below
      rw [roundFrames_append]
      exact (Body.runs body).rounds ((popRange_wait hrange).trans hwait) h s below
  | untilTrue body =>
    rw [Tree.eval] at h
    exact (Body.runs body).untilTrue hwait h

theorem Body.runs (b : Body) : b.Runs := by
  intro m o hwait h s below
  cases b with
  | nil =>
    rw [Body.eval_nil] at h
    obtain rfl := Option.some.inj h
    exact .of_step hwait (.refl hwait)
  | cons t rest =>
    rw [Body.eval_cons] at h
    obtain ⟨m', hfirst, hrest⟩ | ⟨hstop, ho⟩ := cases_of_andThen h
    · exact ((Tree.runs t).comes hwait hfirst s rest below).then fun hwait' =>
        Body.runs rest m' o hwait' hrest s below
    · exact ((Tree.runs t).comes hwait hstop s rest below).stop ho

end

/-! ## Both together -/

/-- A body that is entered comes to what its evaluation tells. -/
theorem ends_enter_of_eval {s : Session} {body : Body} {o : Outcome} (hframes : s.frames = [])
    (hwait : s.machine.wait = none) (h : Body.eval body s.machine = some o) :
    ∃ r, Ends frameTick (s.enter body) r ∧ runOutcome r = o := by
  have hcomes := Body.runs body s.machine o hwait h s []
  have hstart : s.placed s.machine [.block body] = s.enter body := by simp [placed, enter, hframes]
  cases o with
  | done m =>
    obtain ⟨hdone, hleads⟩ := hcomes
    rw [hstart] at hleads
    refine ⟨_, hleads.ends_iff.2 (.done (s.frameTick_nil m)), ?_⟩
    simp [runOutcome, Outcome.ofResult, placed, hdone]
  | failed e m =>
    obtain ⟨left, hends⟩ := hcomes
    rw [hstart] at hends
    exact ⟨_, hends, rfl⟩
  | waiting m =>
    obtain ⟨hdone, left, hends⟩ := hcomes
    rw [hstart] at hends
    refine ⟨_, hends, ?_⟩
    simp [runOutcome, Outcome.ofResult, placed, hdone]

theorem eval_of_ends_enter {s : Session} {body : Body} {r : Except Error Unit × Session}
    (hframes : s.frames = []) (hwait : s.machine.wait = none)
    (h : Ends frameTick (s.enter body) r) :
    Body.eval body s.machine = some (runOutcome r) ∧ FramesLeft s r := by
  obtain ⟨heval, hleft⟩ := evalAfter_of_ends h
  rw [evalAfter_ok _ (show (s.enter body).machine.wait = none from hwait)] at heval
  refine ⟨?_, hleft⟩
  simpa [enter, hframes, framesEval, Frame.eval] using heval

/-- **The frame machine runs what trees mean.**  With no frame scheduled and nothing to wait for,
entering a body and running the frames ends with no frame left exactly if the evaluation of the body
comes to its end, fails exactly if the evaluation fails, and stops to wait exactly if the evaluation
does, each time with the same machine: stacks, memory, printed text and all.  It runs for ever
exactly if the evaluation does. -/
theorem runFrames_enter_iff (s : Session) (body : Body) (hframes : s.frames = [])
    (hwait : s.machine.wait = none) :
    (∀ m, Body.eval body s.machine = some (.done m) ↔
      m.wait = none ∧ ∃ fuel, (s.enter body).runFrames fuel =
        some (.ok (), { s with machine := m, frames := [] })) ∧
    (∀ e m, Body.eval body s.machine = some (.failed e m) ↔
      ∃ fuel frames, (s.enter body).runFrames fuel =
        some (.error e, { s with machine := m, frames })) ∧
    (∀ m, Body.eval body s.machine = some (.waiting m) ↔
      m.wait ≠ none ∧ ∃ fuel frames, (s.enter body).runFrames fuel =
        some (.ok (), { s with machine := m, frames })) ∧
    (Body.eval body s.machine = none ↔ ∀ fuel, (s.enter body).runFrames fuel = none) := by
  -- A run that ends and an evaluation that has a value give each other, so all four parts follow
  -- from `ends_enter_of_eval` and `eval_of_ends_enter`.
  refine ⟨fun m => ⟨fun h => ?_, fun ⟨hm, fuel, h⟩ => ?_⟩,
    fun e m => ⟨fun h => ?_, fun ⟨fuel, frames, h⟩ => ?_⟩,
    fun m => ⟨fun h => ?_, fun ⟨hm, fuel, frames, h⟩ => ?_⟩, fun h => ?_, fun h => ?_⟩
  · obtain ⟨⟨reply, t⟩, hr, ho⟩ := ends_enter_of_eval hframes hwait h
    obtain ⟨rfl, rfl, hm⟩ := runOutcome_eq_done.1 ho
    obtain ⟨hplaced, hnone⟩ := (eval_of_ends_enter hframes hwait hr).2
    have ht : t = { s with machine := t.machine, frames := [] } := by
      rw [← hnone rfl hm]
      exact hplaced
    obtain ⟨fuel, hfuel⟩ := ends_iff.1 hr
    exact ⟨hm, fuel, by rwa [← ht]⟩
  · have heval := (eval_of_ends_enter hframes hwait (ends_of_runSteps h)).1
    rw [heval, runOutcome_eq_done.2 ⟨rfl, rfl, hm⟩]
  · obtain ⟨⟨reply, t⟩, hr, ho⟩ := ends_enter_of_eval hframes hwait h
    obtain ⟨rfl, rfl⟩ := runOutcome_eq_failed.1 ho
    have ht : t = { s with machine := t.machine, frames := t.frames } :=
      (eval_of_ends_enter hframes hwait hr).2.1
    obtain ⟨fuel, hfuel⟩ := ends_iff.1 hr
    exact ⟨fuel, t.frames, by rwa [← ht]⟩
  · have heval := (eval_of_ends_enter hframes hwait (ends_of_runSteps h)).1
    rw [heval, runOutcome_eq_failed.2 ⟨rfl, rfl⟩]
  · obtain ⟨⟨reply, t⟩, hr, ho⟩ := ends_enter_of_eval hframes hwait h
    obtain ⟨rfl, rfl, hm⟩ := runOutcome_eq_waiting.1 ho
    have ht : t = { s with machine := t.machine, frames := t.frames } :=
      (eval_of_ends_enter hframes hwait hr).2.1
    obtain ⟨fuel, hfuel⟩ := ends_iff.1 hr
    exact ⟨hm, fuel, t.frames, by rwa [← ht]⟩
  · have heval := (eval_of_ends_enter hframes hwait (ends_of_runSteps h)).1
    rw [heval, runOutcome_eq_waiting.2 ⟨rfl, rfl, hm⟩]
  · refine not_ends_iff.1 fun ⟨r, hr⟩ => ?_
    have heval := (eval_of_ends_enter hframes hwait hr).1
    simp [h] at heval
  · refine Option.eq_none_iff_forall_ne_some.2 fun o ho => ?_
    obtain ⟨r, hr, -⟩ := ends_enter_of_eval hframes hwait ho
    exact not_ends_iff.2 h ⟨r, hr⟩

/-- The indices of a loop whose body is a word with a branch in it. -/
def indices : Body :=
  [.leaf (.number 3), .leaf (.number 0),
    .counted [.leaf (.invoke "flip" (.compiled
      [.leaf (.invoke "i" (.primitive .index)), .leaf (.invoke "i" (.primitive .index)),
        .branch [.leaf (.invoke "invert" (.primitive .invert))] []]))] false]

theorem eval_indices :
    Body.eval indices (.initial fun _ => 0) =
      some (.done { Machine.initial fun _ => 0 with data := [-3, -2, 0] }) :=
  ((runFrames_enter_iff (Session.bare fun _ => 0) indices rfl rfl).1 _).2 ⟨rfl, 40, rfl⟩

end Forth
