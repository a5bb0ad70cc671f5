import Forth.Proofs.BalancedBodies
import Forth.Proofs.CountedLoops
import Forth.Proofs.Termination
import Forth.Session.Boot
import Mathlib.Data.Rat.Floor

/-!
# The ranges of counted loops

The range of a counted loop is tested twice, at the entry and after each round, and the step to the
next index is an addition that wraps around.  A plain loop runs exactly its range all the same: its
index goes toward the limit by one, meets it, and never has to leave the cells
(`loop_runs_its_range`).

A loop with a stride of its own may pass the limit instead.  Its rounds up to there are the ones of
its range, but it only ends with them if the index behind the limit is a cell
(`strideLoop_runs_its_range`).  Otherwise the index wraps around to the other end, where it is in
range again, and the loop goes on (`strideLoop_past_its_range`).
-/

namespace Forth

namespace Session

namespace CountedLoop

/-! ## How many steps it takes to the limit -/

/-- The step leads from the start toward the limit, unless these are the same. -/
def Toward (start limit stride : Cell) : Prop :=
  (start < limit → 0 < stride) ∧ (limit < start → stride < 0)

/-- The number of steps that it takes to meet the limit or to pass it. -/
def stepsTo (start limit stride : Cell) : Nat :=
  ⌈(|(limit.toInt : ℚ) - start.toInt| / |(stride.toInt : ℚ)|)⌉₊

section

variable {start limit stride : Cell} {k : Nat}

theorem lt_stepsTo_iff (h : stride.toInt ≠ 0) :
    k < stepsTo start limit stride ↔ k * |stride.toInt| < |limit.toInt - start.toInt| := by
  have hpos : (0 : ℚ) < |(stride.toInt : ℚ)| := abs_pos.2 (by exact_mod_cast h)
  rw [stepsTo, Nat.lt_ceil, lt_div_iff₀ hpos]
  exact_mod_cast Iff.rfl

theorem lt_stepsTo_iff_of_lt (h : start < limit) (hstride : 0 < stride) :
    k < stepsTo start limit stride ↔ start.toInt + k * stride.toInt < limit.toInt := by
  have hpos : 0 < stride.toInt := Int64.lt_iff_toInt_lt.1 hstride
  have hlt := Int64.lt_iff_toInt_lt.1 h
  rw [lt_stepsTo_iff (by omega), abs_of_pos hpos, abs_of_pos (by omega)]
  omega

theorem lt_stepsTo_iff_of_gt (h : limit < start) (hstride : stride < 0) :
    k < stepsTo start limit stride ↔ limit.toInt < start.toInt + k * stride.toInt := by
  have hneg : stride.toInt < 0 := Int64.lt_iff_toInt_lt.1 hstride
  have hlt := Int64.lt_iff_toInt_lt.1 h
  rw [lt_stepsTo_iff (by omega), abs_of_neg hneg, abs_of_neg (by omega), Int.mul_neg]
  omega

theorem stepsTo_self (start stride : Cell) : stepsTo start start stride = 0 := by
  simp [stepsTo]

theorem stepsTo_pos (h : Toward start limit stride) (hne : start ≠ limit) :
    0 < stepsTo start limit stride := by
  have hstride : stride.toInt ≠ 0 := by
    rcases Std.lt_trichotomy start limit with hlt | heq | hgt
    · exact (Int64.lt_iff_toInt_lt.1 (h.1 hlt)).ne'
    · exact absurd heq hne
    · exact (Int64.lt_iff_toInt_lt.1 (h.2 hgt)).ne
  have hapart : limit.toInt - start.toInt ≠ 0 := fun heq => hne (Int64.toInt_inj.1 (by omega))
  rw [lt_stepsTo_iff hstride]
  simpa using hapart

/-- With a step of one, the number of steps is the distance. -/
theorem stepsTo_unit (start limit : Cell) :
    stepsTo start limit (if start < limit then 1 else -1) =
      (limit.toInt - start.toInt).natAbs := by
  have hunit : |(if start < limit then 1 else -1 : Cell).toInt| = 1 := by
    split <;> rfl
  have hne : (if start < limit then 1 else -1 : Cell).toInt ≠ 0 := abs_pos.1 (by omega)
  refine eq_of_forall_lt_iff fun k => ?_
  rw [lt_stepsTo_iff hne, hunit, Int.mul_one, Int.abs_eq_natAbs, Int.ofNat_lt]

theorem toInt_unit (start limit : Cell) :
    (if start < limit then 1 else -1 : Cell).toInt = if start < limit then 1 else -1 := by
  split <;> rfl

theorem toward_unit (start limit : Cell) :
    Toward start limit (if start < limit then 1 else -1) := by
  refine ⟨fun h => ?_, fun h => ?_⟩
  · rw [if_pos h]
    decide
  · rw [if_neg (by grind)]
    decide

/-! ## The indices of the range -/

/-- An index of the range lies between the start and the limit. -/
theorem between_of_lt_stepsTo (h : Toward start limit stride)
    (hk : k < stepsTo start limit stride) :
    start < limit ∧ start.toInt ≤ start.toInt + k * stride.toInt ∧
        start.toInt + k * stride.toInt < limit.toInt ∨
      limit < start ∧ start.toInt + k * stride.toInt ≤ start.toInt ∧
        limit.toInt < start.toInt + k * stride.toInt := by
  rcases Std.lt_trichotomy start limit with hlt | rfl | hgt
  · have hstride : 0 ≤ k * stride.toInt :=
      Int.mul_nonneg k.cast_nonneg (Int64.lt_iff_toInt_lt.1 (h.1 hlt)).le
    exact .inl ⟨hlt, by omega, (lt_stepsTo_iff_of_lt hlt (h.1 hlt)).1 hk⟩
  · rw [stepsTo_self] at hk
    omega
  · have hstride : k * stride.toInt ≤ 0 :=
      Int.mul_nonpos_of_nonneg_of_nonpos k.cast_nonneg (Int64.lt_iff_toInt_lt.1 (h.2 hgt)).le
    exact .inr ⟨hgt, by omega, (lt_stepsTo_iff_of_gt hgt (h.2 hgt)).1 hk⟩

/-- No index of the range wraps around. -/
theorem toInt_indexAfter (h : Toward start limit stride) (hk : k < stepsTo start limit stride) :
    (indexAfter start stride k).toInt = start.toInt + k * stride.toInt := by
  have hstart := And.intro start.le_toInt start.toInt_lt
  have hlimit := And.intro limit.le_toInt limit.toInt_lt
  have hbetween := between_of_lt_stepsTo h hk
  exact Int64.toInt_ofInt_of_le (by omega) (by omega)

theorem map_toInt_indexAfter (h : Toward start limit stride) :
    ((List.range (stepsTo start limit stride)).map (indexAfter start stride)).map Int64.toInt =
      (List.range (stepsTo start limit stride)).map fun k : Nat =>
        start.toInt + k * stride.toInt := by
  rw [List.map_map]
  exact List.map_congr_left fun k hk => toInt_indexAfter h (List.mem_range.1 hk)

/-- Every index of the range comes before the limit. -/
theorem before_limit (h : Toward start limit stride) {i : Cell}
    (hi : i ∈ (List.range (stepsTo start limit stride)).map (indexAfter start stride)) :
    start < limit ∧ i < limit ∨ limit < start ∧ limit < i := by
  obtain ⟨k, hk, rfl⟩ := List.mem_map.1 hi
  have hk := List.mem_range.1 hk
  obtain ⟨hlt, -, hbefore⟩ | ⟨hgt, -, hbefore⟩ := between_of_lt_stepsTo h hk
  · refine .inl ⟨hlt, ?_⟩
    rwa [Int64.lt_iff_toInt_lt, toInt_indexAfter h hk]
  · refine .inr ⟨hgt, ?_⟩
    rwa [Int64.lt_iff_toInt_lt, toInt_indexAfter h hk]

/-- A loop runs upwards if its limit is above its start. -/
theorem inRange_of_lt (h : start < limit) (i : Cell) :
    inRange i limit (start < limit) = decide (i < limit) := by
  simp only [inRange, h, decide_true, if_true]

/-- A loop runs downwards if its limit is below its start. -/
theorem inRange_of_gt (h : limit < start) (i : Cell) :
    inRange i limit (start < limit) = decide (limit < i) := by
  have hnot : ¬ start < limit := by grind
  simp only [inRange, hnot, decide_false, Bool.false_eq_true, if_false]

theorem inRange_indexAfter (h : Toward start limit stride) (hk : k < stepsTo start limit stride) :
    inRange (indexAfter start stride k) limit (start < limit) = true := by
  obtain ⟨hlt, hbefore⟩ | ⟨hgt, hbefore⟩ :=
    before_limit h (List.mem_map_of_mem (List.mem_range.2 hk))
  · rw [inRange_of_lt hlt, decide_eq_true hbefore]
  · rw [inRange_of_gt hgt, decide_eq_true hbefore]

/-- The index after the range meets the limit or passes it, by less than a step. -/
theorem past_limit (h : Toward start limit stride) (hne : start ≠ limit) :
    start < limit ∧ limit.toInt ≤ start.toInt + stepsTo start limit stride * stride.toInt ∧
        start.toInt + stepsTo start limit stride * stride.toInt < limit.toInt + stride.toInt ∨
      limit < start ∧ start.toInt + stepsTo start limit stride * stride.toInt ≤ limit.toInt ∧
        limit.toInt + stride.toInt < start.toInt + stepsTo start limit stride * stride.toInt := by
  obtain ⟨n, hn⟩ := Nat.exists_eq_add_one.2 (stepsTo_pos h hne)
  have hlast : (stepsTo start limit stride : Int) * stride.toInt =
      n * stride.toInt + stride.toInt := by
    rw [hn, Int.natCast_succ, Int.add_mul, Int.one_mul]
  have hbefore : n < stepsTo start limit stride := by omega
  have hnot := Nat.lt_irrefl (stepsTo start limit stride)
  rcases Std.lt_trichotomy start limit with hlt | heq | hgt
  · rw [lt_stepsTo_iff_of_lt hlt (h.1 hlt)] at hbefore hnot
    exact .inl ⟨hlt, by omega, by omega⟩
  · exact absurd heq hne
  · rw [lt_stepsTo_iff_of_gt hgt (h.2 hgt)] at hbefore hnot
    exact .inr ⟨hgt, by omega, by omega⟩

/-- The integer that the index after the range stands for is one of the cells. -/
def LastIsCell (start limit stride : Cell) : Prop :=
  -2 ^ 63 ≤ start.toInt + stepsTo start limit stride * stride.toInt ∧
    start.toInt + stepsTo start limit stride * stride.toInt < 2 ^ 63

/-- A step of one meets the limit. -/
theorem lastIsCell_unit (start limit : Cell) :
    LastIsCell start limit (if start < limit then 1 else -1) := by
  have hlimit := And.intro limit.le_toInt limit.toInt_lt
  rw [LastIsCell, stepsTo_unit, toInt_unit]
  split
  next hlt =>
    rw [Int64.lt_iff_toInt_lt] at hlt
    omega
  next hnot =>
    rw [Int64.lt_iff_toInt_lt] at hnot
    omega

theorem inRange_last_of_cell (h : Toward start limit stride)
    (hcell : LastIsCell start limit stride) :
    inRange (indexAfter start stride (stepsTo start limit stride)) limit (start < limit) =
      false := by
  by_cases hne : start = limit
  · subst hne
    simp [stepsTo_self, indexAfter_zero, inRange]
  · have hlast : (indexAfter start stride (stepsTo start limit stride)).toInt =
        start.toInt + stepsTo start limit stride * stride.toInt :=
      Int64.toInt_ofInt_of_le hcell.1 hcell.2
    obtain ⟨hlt, hpast, -⟩ | ⟨hgt, hpast, -⟩ := past_limit h hne
    · rw [inRange_of_lt hlt, decide_eq_false_iff_not, Int64.lt_iff_toInt_lt, hlast]
      omega
    · rw [inRange_of_gt hgt, decide_eq_false_iff_not, Int64.lt_iff_toInt_lt, hlast]
      omega

/-- An index after the range that is not a cell wraps around to before the limit. -/
theorem inRange_last_of_not_cell (h : Toward start limit stride)
    (hcell : ¬ LastIsCell start limit stride) :
    inRange (indexAfter start stride (stepsTo start limit stride)) limit (start < limit) =
      true := by
  have hstart := And.intro start.le_toInt start.toInt_lt
  have hlimit := And.intro limit.le_toInt limit.toInt_lt
  have hstride := And.intro stride.le_toInt stride.toInt_lt
  have hlast : (indexAfter start stride (stepsTo start limit stride)).toInt =
      (start.toInt + stepsTo start limit stride * stride.toInt).bmod (2 ^ 64) :=
    Int64.toInt_ofInt
  unfold LastIsCell at hcell
  -- The index after the range is past the limit by less than the stride, so wrapping around brings
  -- it back to the other side of the limit.
  by_cases hne : start = limit
  · subst hne
    rw [stepsTo_self] at hcell
    omega
  · obtain ⟨hlt, hpast, hnear⟩ | ⟨hgt, hpast, hnear⟩ := past_limit h hne
    · rw [← Int.sub_bmod_right, Int.bmod_eq_of_le (by omega) (by omega)] at hlast
      rw [inRange_of_lt hlt, decide_eq_true_eq, Int64.lt_iff_toInt_lt, hlast]
      omega
    · rw [← Int.add_bmod_right, Int.bmod_eq_of_le (by omega) (by omega)] at hlast
      rw [inRange_of_gt hgt, decide_eq_true_eq, Int64.lt_iff_toInt_lt, hlast]
      omega

end

/-! ## The rounds of the range -/

/-- **A loop that goes on by the same step runs its range.**  After that it is through, or, if the
next index is not a cell, in a round with the one to which that wraps around. -/
theorem Strides.exists_range {l : CountedLoop} {start stride : Cell} {x : Session × List Cell}
    (h : l.Strides stride x) (hstart : l.ArrivesAt start x)
    (hascending : l.ascending = decide (start < l.limit)) (htoward : Toward start l.limit stride) :
    ∃ y, l.Rounds ((List.range (stepsTo start l.limit stride)).map (indexAfter start stride)) x y ∧
      (LastIsCell start l.limit stride → l.IsOver y) ∧
      (¬ LastIsCell start l.limit stride →
        l.Begins (indexAfter start stride (stepsTo start l.limit stride)) y) := by
  obtain ⟨y, hrounds, hy⟩ := h.exists_rounds hstart (stepsTo start l.limit stride)
    fun k hk => by rw [hascending, inRange_indexAfter htoward hk]
  refine ⟨y, hrounds, fun hcell => ?_, fun hcell => ?_⟩
  · rwa [ArrivesAt, hascending, inRange_last_of_cell htoward hcell, if_neg Bool.false_ne_true] at hy
  · rwa [ArrivesAt, hascending, inRange_last_of_not_cell htoward hcell, if_pos rfl] at hy

end CountedLoop

/-! ## A body that waits -/

/-- The trees of `i sleep`, with others behind them. -/
def napping (tail : Body) : Body :=
  .leaf (.invoke "i" (.primitive .index)) :: .leaf (.invoke "sleep" (.primitive .sleep)) :: tail

theorem not_remains_of_length_lt {trees tail : Body} {outer : List Frame}
    {x : Session × List Cell} (hframes : x.1.frames = .block trees :: outer)
    (h : tail.length < trees.length) : ¬ Remains [.block tail] outer x := by
  rintro ⟨hremain, -⟩
  obtain rfl : trees = tail := by simpa [hframes] using hremain
  omega

/-- Sleeping for as many milliseconds as the index says leaves the return stack as it is. -/
theorem completes_napping {l : CountedLoop} {tail : Body} (hbody : l.body = napping tail)
    (x : Session × List Cell) : l.Completes [.block tail] x := by
  intro _ i y _ hbegins
  obtain ⟨s, codes⟩ := y
  have hframes : s.frames = .block (napping tail) :: l.around i := by rw [← hbody, hbegins.frames]
  have hwait : s.machine.wait = none := hbegins.wait
  -- The states after `i` and after `sleep`, which waits for as long as the index says.
  let pushed : Session :=
    { s with
      machine := { s.machine with data := i :: s.machine.data }
      frames := .block (.leaf (.invoke "sleep" (.primitive .sleep)) :: tail) :: l.around i }
  let asleep : Session :=
    { s with
      machine := { s.machine with wait := some (.timer i) }
      frames := .block tail :: l.around i }
  have hpush : s.tick = .more pushed := by
    have hindex : s.machine.returns.peek? 1 = some i := by
      rw [show s.machine.returns = i :: l.returns from hbegins.returns]
      rfl
    have hrun : Primitive.index.run.run s.machine =
        .ok () { s.machine with data := i :: s.machine.data } := by
      simp only [Primitive.run, EStateM.run_bind, Exec.peekReturn, EStateM.run_get, hindex,
        EStateM.run_pure, Exec.pushData_run]
    rw [tick_of_frame hwait hframes, stepInto, napping, Frame.step_primitive_run, hrun]
    rfl
  have hsleep : pushed.tick = .more asleep := tick_of_tree (s := pushed) hwait rfl
  have hanswer : tickServed (asleep, codes) =
      .more (asleep.onMachine Event.timer.received, codes) :=
    tickServed_of_answer? (tick_of_wait rfl) rfl
  refine ⟨(asleep.onMachine Event.timer.received, codes), ?_, rfl⟩
  have hnap : RunsUntil [.block tail] (l.around i) (asleep, codes)
      (asleep.onMachine Event.timer.received, codes) :=
    .step (show asleep.frames = .block tail :: [] ++ l.around i from rfl)
      (by simp [Remains, asleep]) hanswer (.here ⟨rfl, rfl⟩)
  have hrest : RunsUntil [.block tail] (l.around i) (pushed, codes)
      (asleep.onMachine Event.timer.received, codes) :=
    .step (show pushed.frames = .block _ :: [] ++ l.around i from rfl)
      (not_remains_of_length_lt rfl (Nat.lt_succ_self _)) (tickServed_of_more hsleep codes) hnap
  exact .step (show s.frames = .block (napping tail) :: [] ++ l.around i from hframes)
    (not_remains_of_length_lt hframes (show tail.length < tail.length + 2 by omega))
    (tickServed_of_more hpush codes) hrest

/-- A session that is about to enter a loop with this body and this range. -/
def aboutToLoop (body : Body) (byStep : Bool) (start limit : Cell) : Session :=
  { withPrimitives fun _ => 0 with
    machine := { Machine.initial fun _ => 0 with data := [start, limit] }
    frames := [.block [.counted body byStep]] }

/-! ## Plain loops -/

/-- The actions between `do` and `loop` are the body of a plain loop. -/
theorem compile_loop {actions : List Action} {body : Body} (h : compile actions = .ok body) :
    compile (.control .do :: actions ++ [.control .loop]) = .ok [.counted body false] :=
  Construction.compile_of_reads
    (Construction.reads_of_parses (.loop (parses_of_compile h) .nil) [] [])

open CountedLoop

/-- **A plain loop runs exactly its range.**  The indices of its rounds lead from the start to the
last cell before the limit, one by one; there are as many of them as the limit is away from the
start.  Each is on top of the return stack while its round begins.  No step from one of them wraps
around, the limit has no round, and then the loop is gone and the return stack is as it was before.
The body only has to come to its end with the return stack as it found it, in whatever round it
runs; its waits are answered as they come. -/
theorem loop_runs_its_range {s : Session} {codes : List Cell} {body rest : Body}
    {below : List Frame} {start limit : Cell} {data : List Cell} (hwait : s.machine.wait = none)
    (hframes : s.frames = .block (.counted body false :: rest) :: below)
    (hdata : s.machine.data = start :: limit :: data)
    (hbody : ∀ x, tickServed (s, codes) = .more x →
      (s.entering body false start limit rest below).Completes [] x) :
    (∀ actions, compile actions = .ok body →
      compile (.control .do :: actions ++ [.control .loop]) = .ok [.counted body false]) ∧
    ∃ is x y, tickServed (s, codes) = .more x ∧
      (s.entering body false start limit rest below).Rounds is x y ∧
      (y.1.frames = .block rest :: below ∧ y.1.machine.returns = s.machine.returns ∧
        y.1.machine.wait = none) ∧
      is.length = (limit.toInt - start.toInt).natAbs ∧
      is.map Int64.toInt =
        ((List.range is.length).map fun k : Nat =>
          start.toInt + k * if start < limit then 1 else -1) ∧
      limit ∉ is ∧
      ∀ i ∈ is, (i + if start < limit then 1 else -1).toInt =
        i.toInt + if start < limit then 1 else -1 := by
  refine ⟨fun actions => compile_loop, ?_⟩
  obtain ⟨x, hentry, hx⟩ := exists_entry codes hwait hframes hdata
  -- A plain loop is one whose rounds go on by one, up or down.
  have hstrides : (s.entering body false start limit rest below).Strides
      (if start < limit then 1 else -1) x := by
    simpa [entering] using (hbody x hentry).strides_plain rfl
  -- An index of the range is on this side of the limit, so adding one does not wrap around.
  have htoward := toward_unit start limit
  obtain ⟨y, hrounds, hover, -⟩ := hstrides.exists_range hx rfl htoward
  have hend := hover (lastIsCell_unit start limit)
  refine ⟨_, x, y, hentry, hrounds, ⟨hend.frames, hend.returns, hend.wait⟩, ?_, ?_, ?_, ?_⟩
  · rw [List.length_map, List.length_range]
    exact stepsTo_unit start limit
  · rw [List.length_map, List.length_range, ← toInt_unit]
    exact map_toInt_indexAfter htoward
  · intro hmem
    obtain ⟨-, hlt⟩ | ⟨-, hlt⟩ := before_limit htoward hmem
    · exact absurd hlt Int64.lt_irrefl
    · exact absurd hlt Int64.lt_irrefl
  · intro i hi
    obtain ⟨hup, hlt⟩ | ⟨hdown, hgt⟩ := before_limit htoward hi
    · rw [if_pos hup, if_pos hup, toInt_succ hlt]
    · have hnot : ¬ start < limit := by grind
      rw [if_neg hnot, if_neg hnot, toInt_pred hgt]
      rfl

theorem loop_runs_its_range_least :
    let l := (aboutToLoop (napping []) false (Int64.minValue + 2) Int64.minValue).entering
      (napping []) false (Int64.minValue + 2) Int64.minValue [] []
    ∃ is x y, tickServed (aboutToLoop (napping []) false (Int64.minValue + 2) Int64.minValue, []) =
        .more x ∧
      l.Completes [] x ∧ l.Rounds is x y ∧ y.1.frames = [.block []] ∧
      is.map Int64.toInt = [-9223372036854775806, -9223372036854775807] := by
  intro l
  have hbody (x : Session × List Cell) : l.Completes [] x := by
    intro is i y hrounds hbegins
    obtain ⟨z, hz, hreturns⟩ := completes_napping rfl x is i y hrounds hbegins
    obtain ⟨hframes, hwait⟩ := hz.remains
    exact ⟨_, hz.trans (.finished z.2 hwait hframes), hreturns⟩
  obtain ⟨-, is, x, y, hentry, hrounds, hend, hlength, hindices, -, -⟩ :=
    loop_runs_its_range (s := aboutToLoop (napping []) false (Int64.minValue + 2) Int64.minValue)
      rfl rfl rfl fun x (_ : tickServed (_, []) = .more x) => hbody x
  rw [hlength] at hindices
  exact ⟨is, x, y, hentry, hbody x, hrounds, hend.1, hindices⟩

/-! ## Loops with a stride -/

/-- The actions between `do` and `+loop` are the body of a loop that takes its steps from the data
stack. -/
theorem compile_plusLoop {actions : List Action} {body : Body} (h : compile actions = .ok body)
    (stride : Cell) :
    compile (.control .do :: actions ++ [.perform (.number stride), .control .plusLoop]) =
      .ok [.counted (body ++ [.leaf (.number stride)]) true] := by
  have hround := (parses_of_compile h).append (.perform (.number stride) .nil)
  have hloop := Parses.plusLoop hround .nil
  rw [List.cons_append, List.append_assoc] at hloop
  exact Construction.compile_of_reads (Construction.reads_of_parses hloop [] [])

/-- **A loop with a stride runs its range.**  The indices of its rounds go from the start by the
stride, all of them strictly before the limit, and there are as many as it takes to meet the limit
or to pass it.  If the index after them is a cell, then the loop is through.  Otherwise that index
wraps around, which brings it back before the limit, and the loop goes on with one more round. -/
theorem strideLoop_runs_its_range {s : Session} {codes : List Cell} {body rest : Body}
    {below : List Frame} {start limit stride : Cell} {data : List Cell}
    (hwait : s.machine.wait = none)
    (hframes : s.frames =
      .block (.counted (body ++ [.leaf (.number stride)]) true :: rest) :: below)
    (hdata : s.machine.data = start :: limit :: data)
    (htoward : (start < limit → 0 < stride) ∧ (limit < start → stride < 0))
    (hbody : ∀ x, tickServed (s, codes) = .more x →
      (s.entering (body ++ [.leaf (.number stride)]) true start limit rest below).Completes
        [.block [.leaf (.number stride)]] x) :
    (∀ actions, compile actions = .ok body →
      compile (.control .do :: actions ++ [.perform (.number stride), .control .plusLoop]) =
        .ok [.counted (body ++ [.leaf (.number stride)]) true]) ∧
    ∃ is x y, tickServed (s, codes) = .more x ∧
      (s.entering (body ++ [.leaf (.number stride)]) true start limit rest below).Rounds is x y ∧
      is.length = ⌈(|(limit.toInt : ℚ) - start.toInt| / |(stride.toInt : ℚ)|)⌉₊ ∧
      is.map Int64.toInt =
        ((List.range is.length).map fun k : Nat => start.toInt + k * stride.toInt) ∧
      (∀ i ∈ is, start < limit ∧ i < limit ∨ limit < start ∧ limit < i) ∧
      (-2 ^ 63 ≤ start.toInt + is.length * stride.toInt ∧
          start.toInt + is.length * stride.toInt < 2 ^ 63 →
        y.1.frames = .block rest :: below ∧ y.1.machine.returns = s.machine.returns ∧
          y.1.machine.wait = none) ∧
      (¬ (-2 ^ 63 ≤ start.toInt + is.length * stride.toInt ∧
          start.toInt + is.length * stride.toInt < 2 ^ 63) →
        (s.entering (body ++ [.leaf (.number stride)]) true start limit rest below).Begins
          (.ofInt (start.toInt + is.length * stride.toInt)) y) := by
  refine ⟨fun actions h => compile_plusLoop h stride, ?_⟩
  obtain ⟨x, hentry, hx⟩ := exists_entry codes hwait hframes hdata
  -- Whether the loop is over after the range depends on the index that is next being a cell.
  obtain ⟨y, hrounds, hover, hagain⟩ :=
    ((hbody x hentry).strides_number rfl).exists_range hx rfl htoward
  refine ⟨_, x, y, hentry, hrounds, ?_, ?_, ?_, ?_, ?_⟩
  · rw [List.length_map, List.length_range]
    rfl
  · rw [List.length_map, List.length_range]
    exact map_toInt_indexAfter htoward
  · exact fun i hi => before_limit htoward hi
  · rw [List.length_map, List.length_range]
    intro hcell
    have hend := hover hcell
    exact ⟨hend.frames, hend.returns, hend.wait⟩
  · rw [List.length_map, List.length_range]
    exact hagain

theorem strideLoop_runs_its_range_descending :
    let l := (aboutToLoop (napping [.leaf (.number (-3))]) true 10 0).entering
      (napping [.leaf (.number (-3))]) true 10 0 [] []
    ∃ is x y, tickServed (aboutToLoop (napping [.leaf (.number (-3))]) true 10 0, []) = .more x ∧
      l.Completes [.block [.leaf (.number (-3))]] x ∧ l.Rounds is x y ∧ y.1.frames = [.block []] ∧
      is.map Int64.toInt = [10, 7, 4, 1] := by
  intro l
  have hframes : (aboutToLoop (napping [.leaf (.number (-3))]) true 10 0).frames =
      [.block [.counted (napping [] ++ [.leaf (.number (-3))]) true]] := rfl
  obtain ⟨-, is, x, y, hentry, hrounds, hlength, hindices, -, hend, -⟩ :=
    strideLoop_runs_its_range rfl hframes rfl (by decide)
      fun x (_ : tickServed (_, []) = .more x) => completes_napping rfl x
  have hfour : is.length = 4 := by
    rw [hlength]
    change ⌈(|((0 : Int) : ℚ) - (10 : Int)| / |((-3 : Int) : ℚ)|)⌉₊ = 4
    rw [Nat.ceil_eq_iff (by decide)]
    norm_num [abs_of_pos, abs_of_neg]
  rw [hfour] at hindices hend
  exact ⟨is, x, y, hentry, completes_napping rfl x, hrounds, (hend (by decide)).1, hindices⟩

/-- A loop of one round runs three of them, as the index passes the limit and the last cell. -/
theorem strideLoop_past_its_range :
    (∃ t, (withPrimitives fun _ => 0).Answers
        (.line "6917529027641081856 4611686018427387904 do i . 6917529027641081856 +loop")
        (.ok .ok) t ∧
      t.machine.output.console = "4611686018427387904 -6917529027641081856 0  ok") ∧
    ⌈(|(6917529027641081856 : ℚ) - 4611686018427387904| / |(6917529027641081856 : ℚ)|)⌉₊ = 1 := by
  have hrun : ((withPrimitives fun _ => 0).readLine 40
      "6917529027641081856 4611686018427387904 do i . 6917529027641081856 +loop").any (fun r =>
        r.1 = .ok .ok ∧
        r.2.machine.output.console = "4611686018427387904 -6917529027641081856 0  ok") = true := by
    decide +kernel
  obtain ⟨⟨reply, t⟩, hread, ht⟩ := (Option.any_eq_true _ _).1 hrun
  obtain ⟨rfl, hconsole⟩ := of_decide_eq_true ht
  refine ⟨⟨t, ⟨40, hread⟩, hconsole⟩, ?_⟩
  rw [Nat.ceil_eq_iff (by decide)]
  norm_num [abs_of_pos, abs_of_neg]

end Session

end Forth
