import Forth.Proofs.Evaluation
import Forth.Proofs.Reachable

/-!
# The indices of counted loops

The index of a counted loop is kept twice: in the frame of the loop, where it is counted on, and on
the return stack, where the words `i` and `j` look for it.  The two are changed in different places,
and a step may fail after it took the index off the return stack and before it put the next one
there.  Still they agree, as long as nothing but loops moves cells to the return stack or from it:
the return stack holds the indices of the active loops, the innermost on top, above what it held when
the line started (`Mirrored`).  Each step of a line keeps this (`Mirrored.advanced`), and so does the
end of a line, for a line that fails is cut back to what it started with (`Mirrored.stopped`).

The words `>r` and `r>` have to be left out of the lines, since they may take the index of a loop
away.  They stay in the dictionary, so what matters is the names that lines hold
(`LineSparesReturns`).
-/

namespace Forth

/-! ## Words and lines that leave the return stack alone -/

/-- The names of the words that move a cell between the stacks. -/
def returnWords : List String :=
  [">r", "r>"]

/-- The token is none of these words. -/
def Token.sparesReturns : Token → Bool
  | word name => !returnWords.contains (Text.lowerCase name)
  | string _ => true

/-- The text of a line holds none of these words. -/
def LineSparesReturns (cs : List Char) : Prop :=
  ∀ t ∈ Token.tokens cs, t.sparesReturns = true

theorem LineSparesReturns.next {cs rest : List Char} {t : Token} (hcs : LineSparesReturns cs)
    (h : Token.next? cs = some (t, rest)) : t.sparesReturns = true ∧ LineSparesReturns rest := by
  unfold LineSparesReturns at hcs
  rw [Token.tokens_of_next? h] at hcs
  exact ⟨hcs t (.head _), fun u hu => hcs u (.tail _ hu)⟩

/-- None of the queued lines holds such a word. -/
def Machine.QueueSparesReturns (m : Machine) : Prop :=
  ∀ text ∈ m.queue, LineSparesReturns text.toList

theorem Machine.QueueSparesReturns.of_queue {m m' : Machine} (h : m.QueueSparesReturns)
    (hqueue : m'.queue = m.queue) : m'.QueueSparesReturns := by
  unfold Machine.QueueSparesReturns
  rwa [hqueue]

/-- The word leaves the return stack as it is, and so do the lines that it submits. -/
structure Primitive.SparesReturns (p : Primitive) : Prop where
  returns : p.run.Keeps Machine.returns
  queue (m : Machine) (hm : m.QueueSparesReturns) :
    (finalState (p.run.run m)).QueueSparesReturns

theorem fixed_returns (x : Stack) : DataCongruence (Fixed Machine.returns x) where
  data hm := by rw [hm.1]
  returns hm := by rw [hm.1]
  memory hm := by rw [hm.1]
  random hm := by rw [hm.1]
  wait hm := by rw [hm.1]
  setData data hm := ⟨by rw [hm.1], hm.2⟩
  setMemory memory hm := ⟨by rw [hm.1], hm.2⟩
  setRandom random hm := ⟨by rw [hm.1], hm.2⟩
  print text hm := ⟨by rw [hm.1], hm.2⟩

/-- All other words of the language leave the return stack alone. -/
theorem Primitive.sparesReturns_of_language {p : Primitive} (hp : p.movesReturn = false)
    (hlanguage : p.Allowed fun _ => False) : p.SparesReturns where
  returns := by
    refine Exec.keeps_of_respects fun x => ?_
    refine p.respects_of_not_movesReturn (fixed_returns x) hp (fun _ => ?_) fun action h => ?_
    · exact fun w m m' hm => ⟨by rw [hm.1], hm.2⟩
    · subst h
      exact hlanguage.elim
  queue m hm := by
    have hqueue : p.run.Keeps Machine.queue := hlanguage.keeps_queue fun _ h => h.elim
    exact hm.of_queue (hqueue m)

/-- Actions between equal machines whose queued lines all spare the return stack. -/
theorem queueSparesReturns_congruence : Congruence (Fixed Machine.QueueSparesReturns True) :=
  Pending.congruence (fun _ _ _ _ _ _ => rfl) True

theorem Primitive.SparesReturns.respects {p : Primitive} (hp : p.SparesReturns) :
    Respects (Fixed Machine.QueueSparesReturns True) Anything p.run := by
  rintro m m' ⟨rfl, hm⟩
  have hqueue := hp.queue m' (of_eq_true hm)
  generalize p.run.run m' = r at hqueue
  cases r with
  | ok u t => exact .ok trivial ⟨rfl, eq_true hqueue⟩
  | error e t => exact .error ⟨rfl, eq_true hqueue⟩

/-- The frames that an action leaves use only words that spare the return stack, and so do the
queued lines. -/
def LeavesSparing : EStateM.Result Error Machine (List Frame) → Prop
  | .ok frames m => Frame.AllUseOnly Primitive.SparesReturns frames ∧ m.QueueSparesReturns
  | .error _ m => m.QueueSparesReturns

theorem leavesSparing_of_respects {action : Exec (List Frame)} {m : Machine}
    (h : Respects (Fixed Machine.QueueSparesReturns True)
      (Frame.AllUseOnly Primitive.SparesReturns) action)
    (hm : m.QueueSparesReturns) : LeavesSparing (action.run m) := by
  have hrun := h m m ⟨rfl, eq_true hm⟩
  generalize action.run m = r at hrun
  cases hrun with
  | ok hframes hm' => exact ⟨hframes, of_eq_true hm'.2⟩
  | error hm' => exact of_eq_true hm'.2

theorem Operation.UsesOnly.perform_leavesSparing {operation : Operation} {m : Machine}
    (h : operation.UsesOnly Primitive.SparesReturns) (hm : m.QueueSparesReturns) :
    LeavesSparing (operation.perform.run m) := by
  refine leavesSparing_of_respects ?_ hm
  refine h.perform_respects queueSparesReturns_congruence fun name p hp => ?_
  subst hp
  exact h.word.respects

theorem Frame.UsesOnly.step_leavesSparing {f : Frame} {below : List Frame} {m : Machine}
    (h : f.UsesOnly Primitive.SparesReturns)
    (hbelow : Frame.AllUseOnly Primitive.SparesReturns below) (hm : m.QueueSparesReturns) :
    LeavesSparing ((f.step below).run m) := by
  refine leavesSparing_of_respects ?_ hm
  refine h.step_respects queueSparesReturns_congruence hbelow fun name p rest hp => ?_
  subst hp
  have hleaf := h _ (.head _)
  exact hleaf.operation.word.respects

/-! ## Frames -/

/-- The index of the loop, if the frame is one of a counted loop. -/
def Frame.loopIndex? : Frame → Option Cell
  | counted _ _ index _ _ => some index
  | _ => none

/-- The indices of the counted loops that are active, that of the innermost one first. -/
def loopIndices (frames : List Frame) : Stack :=
  frames.filterMap Frame.loopIndex?

@[simp] theorem loopIndices_nil : loopIndices [] = [] := rfl

@[simp] theorem loopIndices_block (body : Body) (below : List Frame) :
    loopIndices (.block body :: below) = loopIndices below := rfl

@[simp] theorem loopIndices_counted (body : Body) (byStep : Bool) (index limit : Cell)
    (ascending : Bool) (below : List Frame) :
    loopIndices (.counted body byStep index limit ascending :: below) =
      index :: loopIndices below := rfl

@[simp] theorem loopIndices_untilTrue (body : Body) (below : List Frame) :
    loopIndices (.untilTrue body :: below) = loopIndices below := rfl

@[simp] theorem loopIndices_append (frames below : List Frame) :
    loopIndices (frames ++ below) = loopIndices frames ++ loopIndices below :=
  List.filterMap_append

/-- The return stack holds the indices of the loops that the action leaves active, above `start`;
if the action fails, `start` is still there below what is left. -/
def MirrorsLoops (start : Stack) : EStateM.Result Error Machine (List Frame) → Prop
  | .ok frames m => m.returns = loopIndices frames ++ start
  | .error _ m => start <:+ m.returns

theorem popRange_returns (m : Machine) : (finalState (popRange.run m)).returns = m.returns := by
  simp only [popRange, EStateM.run_bind, EStateM.run_pure, Exec.popData_run]
  rcases m.data with _ | ⟨first, _ | ⟨limit, data⟩⟩ <;> rfl

theorem endRound_returns {m : Machine} {index : Cell} {returns : Stack} (byStep ascending : Bool)
    (h : m.returns = index :: returns) :
    (finalState ((endRound byStep ascending).run m)).returns = returns := by
  simp only [endRound, EStateM.run_bind, Exec.popReturn_run, h]
  cases byStep with
  | false => rfl
  | true =>
    simp only [if_true, Exec.popData_run]
    cases m.data <;> rfl

/-- A further round of a loop puts its index back. -/
theorem mirrorsLoops_round {start : Stack} {m : Machine} (body : Body) (byStep : Bool)
    (index limit : Cell) (ascending : Bool) {below : List Frame}
    (h : m.returns = loopIndices below ++ start) :
    MirrorsLoops start (.ok (roundFrames body byStep index limit ascending below)
      (roundMachine index limit ascending m)) := by
  unfold MirrorsLoops roundFrames roundMachine
  by_cases hrange : inRange index limit ascending
  · simp only [if_pos hrange, loopIndices_block, loopIndices_counted, h, List.cons_append]
  · simp only [if_neg hrange, h]

theorem Definition.UsesOnly.invoke_mirrorsLoops {word : Definition}
    (h : word.UsesOnly Primitive.SparesReturns) (m : Machine) :
    MirrorsLoops m.returns (word.invoke.run m) := by
  cases h with
  | @primitive p hp =>
    have hreturns := hp.returns m
    simp only [Definition.invoke, EStateM.run_bind]
    cases hrun : p.run.run m with
    | ok u m' =>
      rw [hrun] at hreturns
      exact hreturns
    | error e m' =>
      rw [hrun] at hreturns
      exact ⟨[], hreturns.symm⟩
  | compiled _ => rfl
  | value n => rfl

theorem Operation.UsesOnly.perform_mirrorsLoops {operation : Operation}
    (h : operation.UsesOnly Primitive.SparesReturns) (m : Machine) :
    MirrorsLoops m.returns (operation.perform.run m) := by
  cases h with
  | number n => rfl
  | string text => rfl
  | invoke hword => exact hword.invoke_mirrorsLoops m

theorem Tree.UsesOnly.enter_mirrorsLoops {t : Tree} (h : t.UsesOnly Primitive.SparesReturns)
    (m : Machine) : MirrorsLoops m.returns (t.enter.run m) := by
  cases h with
  | leaf hoperation => exact hoperation.perform_mirrorsLoops m
  | branch _ _ =>
    simp only [Tree.enter, EStateM.run_bind, Exec.popData_run]
    cases m.data with
    | nil => exact List.suffix_rfl
    | cons n data => rfl
  | @counted body byStep _ =>
    have hrange := popRange_returns m
    rw [Tree.enter_counted_run]
    cases hrun : popRange.run m with
    | error e m' =>
      rw [hrun] at hrange
      exact ⟨[], hrange.symm⟩
    | ok range m' =>
      rw [hrun] at hrange
      exact mirrorsLoops_round body byStep _ _ _ hrange
  | untilTrue _ => rfl

/-- **A step of a frame keeps the indices on the return stack.** -/
theorem Frame.UsesOnly.step_mirrorsLoops {f : Frame} {below : List Frame} {start : Stack}
    {m : Machine} (h : f.UsesOnly Primitive.SparesReturns)
    (hm : m.returns = loopIndices (f :: below) ++ start) :
    MirrorsLoops start ((f.step below).run m) := by
  cases f with
  | block rest =>
    cases rest with
    | nil => exact hm
    | cons t rest =>
      have ht : t.UsesOnly Primitive.SparesReturns := h t (.head _)
      have henter := ht.enter_mirrorsLoops m
      simp only [Frame.step, EStateM.run_bind]
      cases hrun : t.enter.run m with
      | ok frames m' =>
        rw [hrun] at henter
        change m'.returns = loopIndices (frames ++ .block rest :: below) ++ start
        rw [henter, hm, loopIndices_append, loopIndices_block, loopIndices_block, List.append_assoc]
      | error e m' =>
        rw [hrun] at henter
        have hstart : start <:+ m.returns := ⟨_, hm.symm⟩
        exact hstart.trans henter
  | counted body byStep index limit ascending =>
    -- The index of the round that ends is on top.
    have hround := endRound_returns byStep ascending hm
    rw [Frame.step_counted_run]
    cases hrun : (endRound byStep ascending).run m with
    | ok step m' =>
      rw [hrun] at hround
      exact mirrorsLoops_round body byStep _ limit ascending hround
    | error e m' =>
      rw [hrun] at hround
      exact ⟨_, hround.symm⟩
  | untilTrue body =>
    rw [Frame.step_untilTrue_run, Exec.popData_run]
    cases m.data with
    | nil => exact ⟨_, hm.symm⟩
    | cons n data =>
      by_cases hn : n = -1
      · simpa [MirrorsLoops, hn] using hm
      · simpa [MirrorsLoops, hn] using hm

namespace Session

/-! ## What a session can come to -/

/-- All that the session can come to leaves the return stack alone: the words of the dictionary, but
for what stands under the names that lines do without, what is gathered or left to run, and the text
of the lines. -/
structure SparesReturns (s : Session) : Prop where
  dictionary : ∀ entry ∈ s.dictionary, entry.1 ∉ returnWords →
    entry.2.UsesOnly Primitive.SparesReturns
  frames : Frame.AllUseOnly Primitive.SparesReturns s.frames
  gathering : s.gathering.UsesOnly Primitive.SparesReturns
  line : ∀ cs, s.line = some cs → LineSparesReturns cs
  queue : s.machine.QueueSparesReturns

namespace SparesReturns

variable {s : Session}

theorem onMachine (hs : s.SparesReturns) {m : Machine} (hm : m.QueueSparesReturns) :
    ({ s with machine := m } : Session).SparesReturns :=
  ⟨hs.dictionary, hs.frames, hs.gathering, hs.line, hm⟩

theorem schedule (hs : s.SparesReturns) {frames : List Frame}
    (h : Frame.AllUseOnly Primitive.SparesReturns frames) :
    ({ s with frames } : Session).SparesReturns :=
  ⟨hs.dictionary, h, hs.gathering, hs.line, hs.queue⟩

theorem gather (hs : s.SparesReturns) {g : Gathering} (h : g.UsesOnly Primitive.SparesReturns) :
    ({ s with gathering := g } : Session).SparesReturns :=
  ⟨hs.dictionary, hs.frames, h, hs.line, hs.queue⟩

theorem define_of_name (hs : s.SparesReturns) {word : Definition} (name : String)
    (h : Text.lowerCase name ∉ returnWords → word.UsesOnly Primitive.SparesReturns) :
    (s.define name (.word word)).SparesReturns := by
  refine ⟨fun entry hentry hname => ?_, hs.frames, hs.gathering, hs.line, hs.queue⟩
  obtain rfl | hentry := List.mem_cons.1 hentry
  · exact h hname
  · exact hs.dictionary entry hentry hname

theorem define (hs : s.SparesReturns) {word : Definition}
    (h : word.UsesOnly Primitive.SparesReturns) (name : String) :
    (s.define name (.word word)).SparesReturns :=
  hs.define_of_name name fun _ => h

theorem addVariable (hs : s.SparesReturns) (name : String) :
    (s.addVariable name).2.SparesReturns := by
  have hadded := hs.onMachine
    (m := { s.machine with memory := (s.machine.memory.addVariable name).2 }) hs.queue
  exact hadded.define (.value _) name

theorem takeLine (hs : s.SparesReturns) {cs : List Char} (hcs : LineSparesReturns cs) :
    ({ s with line := some cs } : Session).SparesReturns :=
  ⟨hs.dictionary, hs.frames, hs.gathering, fun _ h => Option.some.inj h ▸ hcs, hs.queue⟩

theorem next (hs : s.SparesReturns) {t : Token} {rest : List Char}
    (h : s.line.bind Token.next? = some (t, rest)) :
    t.sparesReturns = true ∧ ({ s with line := some rest } : Session).SparesReturns := by
  obtain ⟨cs, hline, hnext⟩ := Option.bind_eq_some_iff.1 h
  obtain ⟨ht, hrest⟩ := (hs.line cs hline).next hnext
  exact ⟨ht, hs.takeLine hrest⟩

/-- A token of a line stands for nothing that moves cells between the stacks. -/
theorem resolve (hs : s.SparesReturns) {t : Token} {a : Action} (ht : t.sparesReturns = true)
    (h : t.resolve s.dictionary = .ok a) : a.UsesOnly Primitive.SparesReturns := by
  refine Token.resolve_usesOnly_of_name (fun name hname entry hentry hkey => ?_) h
  subst hname
  refine hs.dictionary entry hentry fun hmem => ?_
  rw [hkey] at hmem
  simp [Token.sparesReturns, hmem] at ht

end SparesReturns

theorem Dispatched.sparesReturns {s : Session} {a : Action} {r : EStateM.Result Error Session Unit}
    (hs : s.SparesReturns) (ha : a.UsesOnly Primitive.SparesReturns) (h : Dispatched s a r) :
    (finalState r).SparesReturns := by
  have hgathering := hs.gathering
  -- What is gathered, defined or scheduled comes from the token or from what was gathered before,
  -- and both spare the return stack.
  cases h with
  | gathered hg _ =>
    rw [hg] at hgathering
    exact hs.gather (List.forall_mem_append.2 ⟨hgathering, List.forall_mem_singleton.2 ha⟩)
  | defined hg hbody =>
    rw [hg] at hgathering
    have hbody := compile_usesOnly hgathering hbody
    exact (hs.gather (g := .nothing) trivial).define (.compiled hbody) _
  | undefined _ _ => exact hs.gather trivial
  | nested hg _ =>
    rw [hg] at hgathering
    exact hs.gather (List.forall_mem_append.2 ⟨hgathering, List.forall_mem_singleton.2 ha⟩)
  | closed hg _ hbody =>
    rw [hg] at hgathering
    have hactions := List.forall_mem_append.2 ⟨hgathering, List.forall_mem_singleton.2 ha⟩
    have hbody := compile_usesOnly hactions hbody
    have hframes := Frame.AllUseOnly.cons (f := .block _) hbody hs.frames
    exact (hs.gather (g := .nothing) trivial).schedule hframes
  | unbalanced _ _ _ => exact hs.gather trivial
  | performed _ hrun =>
    have hperform := ha.perform_leavesSparing hs.queue
    rw [hrun] at hperform
    exact (hs.onMachine hperform.2).schedule (hperform.1.append hs.frames)
  | failed _ hrun =>
    have hperform := ha.perform_leavesSparing hs.queue
    rw [hrun] at hperform
    exact hs.onMachine hperform
  | opened _ _ => exact hs.gather (List.forall_mem_singleton.2 trivial)
  | misplaced _ _ _ => exact hs
  | colon _ hname => exact (hs.next hname).2.gather fun _ ha => nomatch ha
  | «variable» _ hname => exact (hs.next hname).2.addVariable _
  | @constant name rest n data _ hname _ =>
    have htaken := (hs.next hname).2.onMachine (m := { s.machine with data }) hs.queue
    exact htaken.define (.value n) name
  | valueless _ hname _ => exact (hs.next hname).2
  | nameless _ _ _ => exact hs
  | misnamed _ _ hline => exact (hs.next hline).2

theorem Advanced.sparesReturns {s : Session} {r : EStateM.Result Error Session Bool}
    (hs : s.SparesReturns) (h : Advanced s r) : (finalState r).SparesReturns := by
  have hall := hs.frames
  cases h with
  | frame hframes hrun =>
    rw [hframes] at hall
    have hf := hall _ (.head _)
    have hstep := hf.step_leavesSparing (fun g hg => hall g (.tail _ hg)) hs.queue
    rw [hrun] at hstep
    exact (hs.onMachine hstep.2).schedule hstep.1
  | frameFailed hframes hrun =>
    rw [hframes] at hall
    have hf := hall _ (.head _)
    have hstep := hf.step_leavesSparing (fun g hg => hall g (.tail _ hg)) hs.queue
    rw [hrun] at hstep
    exact hs.onMachine hstep
  | finished _ _ => exact hs
  | unknown _ hline _ => exact (hs.next hline).2
  | dispatched _ hline ha h | refused _ hline ha h =>
    obtain ⟨ht, hrest⟩ := hs.next hline
    exact h.sparesReturns hrest (hs.resolve ht ha)

/-! ## What a step does to the indices -/

/-- The return stack holds the indices of the loops that are active, above `start`; if the step
failed, `start` is still there below what is left. -/
def KeepsIndices {α : Type} (start : Stack) : EStateM.Result Error Session α → Prop
  | .ok _ t => t.machine.returns = loopIndices t.frames ++ start
  | .error _ t => start <:+ t.machine.returns

theorem Dispatched.keepsIndices {s : Session} {a : Action} {r : EStateM.Result Error Session Unit}
    (h : Dispatched s a r) (hframes : s.frames = []) (ha : a.UsesOnly Primitive.SparesReturns) :
    KeepsIndices s.machine.returns r := by
  cases h with
  | @performed operation frames m _ hrun =>
    have hperform := ha.perform_mirrorsLoops s.machine
    rw [hrun] at hperform
    change m.returns = loopIndices (frames ++ s.frames) ++ s.machine.returns
    rw [hframes, List.append_nil]
    exact hperform
  | failed _ hrun =>
    have hperform := ha.perform_mirrorsLoops s.machine
    rw [hrun] at hperform
    exact hperform
  -- Whatever else happens, no loop begins, and the return stack is not touched.
  | gathered _ _ | defined _ _ | nested _ _ | closed _ _ _ | opened _ _ | colon _ _
  | «variable» _ _ | constant _ _ _ =>
    simp [KeepsIndices, hframes, define, Session.addVariable, addConstant]
  | undefined _ _ | unbalanced _ _ _ | misplaced _ _ _ | valueless _ _ _ | nameless _ _ _
  | misnamed _ _ _ => exact List.suffix_rfl

/-- The return stack holds the indices of the counted loops that are active, above `start`, which is
what it held when the line started. -/
structure Mirrored (start : Stack) (s : Session) : Prop extends SparesReturns s where
  returns : s.machine.returns = loopIndices s.frames ++ start
  depth : s.line ≠ none → s.returnDepth = start.length
  rest : s.line = none → s.frames = [] ∧ ∀ actions depth, s.gathering ≠ .block actions depth

variable {start : Stack} {s t : Session}

theorem Advanced.keepsIndices {r : EStateM.Result Error Session Bool} (hs : Mirrored start s)
    (h : Advanced s r) : KeepsIndices start r := by
  have hall := hs.frames
  have hreturns := hs.returns
  cases h with
  | frame hframes hrun =>
    rw [hframes] at hall hreturns
    have hstep := (hall _ (.head _)).step_mirrorsLoops hreturns
    rw [hrun] at hstep
    exact hstep
  | frameFailed hframes hrun =>
    rw [hframes] at hall hreturns
    have hstep := (hall _ (.head _)).step_mirrorsLoops hreturns
    rw [hrun] at hstep
    exact hstep
  | finished _ _ => exact hreturns
  | unknown _ _ _ => exact ⟨_, hreturns.symm⟩
  | dispatched hframes hline ha h | refused hframes hline ha h =>
    obtain ⟨ht, -⟩ := hs.next hline
    have hkeeps := h.keepsIndices hframes (hs.resolve ht ha)
    rw [hframes] at hreturns
    rwa [show s.machine.returns = start from hreturns] at hkeeps

theorem Mirrored.advanced (hs : Mirrored start s) (h : Advanced s (.ok true t)) :
    Mirrored start t := by
  have hline := Unloaded.line_of_advanced hs.rest h nofun
  obtain ⟨hdepth, hline'⟩ := h.kept
  exact ⟨h.sparesReturns hs.toSparesReturns, h.keepsIndices hs,
    fun _ => hdepth.trans (hs.depth hline), fun hnone => absurd hnone (hline' hline)⟩

theorem Mirrored.onMachine (hs : Mirrored start s) {m : Machine}
    (hreturns : m.returns = s.machine.returns) (hqueue : m.QueueSparesReturns) :
    Mirrored start { s with machine := m } :=
  ⟨hs.toSparesReturns.onMachine hqueue, hreturns.trans hs.returns, hs.depth, hs.rest⟩

/-- A line that is abandoned leaves what the return stack held when it started. -/
theorem mirrored_abandon (hs : s.SparesReturns) (hstart : start <:+ s.machine.returns)
    (hdepth : s.returnDepth = start.length) (e : Error) : Mirrored start (s.abandon e).2 := by
  obtain ⟨above, habove⟩ := hstart
  refine ⟨⟨hs.dictionary, .nil, trivial, nofun, hs.queue⟩, ?_, fun h => absurd rfl h,
    fun _ => ⟨rfl, nofun⟩⟩
  change s.machine.returns.truncate s.returnDepth = start
  rw [← habove, hdepth, Stack.truncate_append]

/-- So does a line that comes to its end. -/
theorem Mirrored.endLine (hs : Mirrored start s) (hframes : s.frames = [])
    (hg : ∀ actions depth, s.gathering ≠ .block actions depth) :
    Mirrored start { s with line := none } :=
  ⟨⟨hs.dictionary, hs.frames, hs.gathering, nofun, hs.queue⟩, hs.returns, fun h => absurd rfl h,
    fun _ => ⟨hframes, hg⟩⟩

theorem Mirrored.stopped {reply : Reply} (hs : Mirrored start s) (h : Stopped s reply t) :
    Mirrored start t := by
  cases h with
  | waiting _ => exact hs
  | finished _ hframes hg =>
    have hended := hs.endLine hframes fun _ _ hblock => nomatch hg.symm.trans hblock
    exact hended.onMachine rfl hended.queue
  | defining _ hframes hg =>
    exact hs.endLine hframes fun _ _ hblock => nomatch hg.symm.trans hblock
  | unclosed _ hframes hg =>
    have hline : s.line ≠ none := fun hnone => (hs.rest hnone).2 _ _ hg
    exact mirrored_abandon hs.toSparesReturns ⟨_, hs.returns.symm⟩ (hs.depth hline) _
  | failed _ h =>
    have hline := Unloaded.line_of_advanced hs.rest h nofun
    have hspares := h.sparesReturns hs.toSparesReturns
    have hdepth := h.kept.1.trans (hs.depth hline)
    exact mirrored_abandon hspares (h.keepsIndices hs) hdepth _

/-- Without a line in progress the return stack holds no index. -/
theorem Mirrored.returns_of_rest (hs : Mirrored start s) (hline : s.line = none) :
    s.machine.returns = start := by
  rw [hs.returns, (hs.rest hline).1]
  rfl

theorem Mirrored.startLine (hs : Mirrored start s) (hline : s.line = none) {text : String}
    (htext : LineSparesReturns text.toList) :
    Mirrored s.machine.returns (s.startLine text) where
  toSparesReturns := ⟨hs.dictionary, hs.frames, hs.gathering, (hs.takeLine htext).line, hs.queue⟩
  returns := by
    change s.machine.returns = loopIndices s.frames ++ s.machine.returns
    rw [(hs.rest hline).1]
    rfl
  depth _ := rfl
  rest := nofun

end Session

end Forth
