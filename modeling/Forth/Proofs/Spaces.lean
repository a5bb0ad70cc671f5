import Forth.Proofs.Prelude
import Forth.Proofs.SideBySide
import Forth.Proofs.Termination

/-!
# Spaces

The word `spaces` takes a count and is a loop over `space` from 0 to that count.  A loop runs in the
direction that leads from its start to its limit, so a body that does the same in every round is run
as often as the limit is away from the start (`Tree.eval_counted_iterate`).  For `spaces` that is the
count itself if it is not negative.  Nothing keeps a negative count out of the loop, which then runs
downwards: as many spaces are printed as for the count without its sign (`spaces_runs_to_its_count`,
`spaces_of_negative`).
-/

namespace Forth

/-! ## Loops that do the same in every round -/

/-- Each round of the body, whatever its index, changes the machine in this way and leaves the index
on the return stack. -/
def Body.Repeats (body : Body) (round : Machine → Machine) : Prop :=
  ∀ (index : Cell) (m : Machine), m.wait = none →
    (round m).wait = none ∧
      Body.eval body { m with returns := index :: m.returns } =
        some (.done { round m with returns := index :: (round m).returns })

/-- The index has not gone past the limit. -/
def Approaches (index limit : Cell) (ascending : Bool) : Prop :=
  if ascending then index ≤ limit else limit ≤ index

theorem approaches_start (start limit : Cell) : Approaches start limit (start < limit) := by
  unfold Approaches
  by_cases h : start < limit
  · simpa [h] using Int64.le_of_lt h
  · simpa [h] using Int64.not_lt.1 h

theorem inRange_iff_of_approaches {index limit : Cell} {ascending : Bool}
    (h : Approaches index limit ascending) :
    inRange index limit ascending = true ↔ distance index limit ≠ 0 := by
  unfold distance
  cases ascending with
  | true =>
    have hle := Int64.le_iff_toInt_le.1 (show index ≤ limit from h)
    simp only [inRange, if_true, decide_eq_true_eq, Int64.lt_iff_toInt_lt]
    omega
  | false =>
    have hle := Int64.le_iff_toInt_le.1 (show limit ≤ index from h)
    simp only [inRange, Bool.false_eq_true, if_false, decide_eq_true_eq, Int64.lt_iff_toInt_lt]
    omega

/-- The next index is closer to the limit by one, and is not past it either. -/
theorem approaches_next {index limit : Cell} {ascending : Bool}
    (h : inRange index limit ascending = true) :
    Approaches (index + if ascending then 1 else -1) limit ascending ∧
      distance index limit = distance (index + if ascending then 1 else -1) limit + 1 := by
  unfold distance
  cases ascending with
  | true =>
    have hlt : index < limit := by simpa [inRange] using h
    have hcells := Int64.lt_iff_toInt_lt.1 hlt
    simp only [Approaches, if_true, Int64.le_iff_toInt_le, toInt_succ hlt]
    omega
  | false =>
    have hlt : limit < index := by simpa [inRange] using h
    have hcells := Int64.lt_iff_toInt_lt.1 hlt
    simp only [Approaches, Bool.false_eq_true, if_false, Int64.le_iff_toInt_le, toInt_pred hlt]
    omega

section

variable {body : Body} {round : Machine → Machine} {m : Machine}

/-- The rounds that are left are as many as the index is away from the limit. -/
theorem Rounds.eval_iterate (h : Body.Repeats body round) {index limit : Cell} {ascending : Bool}
    (happroaches : Approaches index limit ascending) (hwait : m.wait = none) :
    Rounds.eval ⟨Body.eval body, false, index, limit, ascending⟩ m =
      some (.done (round^[distance index limit] m)) := by
  induction hdistance : distance index limit generalizing index m with
  | zero =>
    have hout : ¬ inRange index limit ascending = true :=
      fun hin => (inRange_iff_of_approaches happroaches).1 hin hdistance
    exact Rounds.eval_of_not_inRange hout m
  | succ k ih =>
    have hin : inRange index limit ascending = true :=
      (inRange_iff_of_approaches happroaches).2 (by omega)
    obtain ⟨hnext, hcloser⟩ := approaches_next hin
    obtain ⟨hround, heval⟩ := h index m hwait
    have hend : (endRound false ascending).run
        { round m with returns := index :: (round m).returns } =
          .ok (if ascending then 1 else -1) (round m) := rfl
    rw [Rounds.eval_of_inRange hin]
    simp only [heval, andThen_done, hend]
    rw [ih hnext hround (by omega), Function.iterate_succ_apply]

/-- **A plain loop repeats its body as often as the limit is away from the start**, in whichever
direction that is. -/
theorem Tree.eval_counted_iterate (h : Body.Repeats body round) (hwait : m.wait = none)
    (start limit : Cell) (below : Stack) :
    (Tree.counted body false).eval { m with data := start :: limit :: below } =
      some (.done (round^[distance start limit] { m with data := below })) := by
  have hrange : popRange.run { m with data := start :: limit :: below } =
      .ok (start, limit) { m with data := below } := rfl
  rw [Tree.eval, hrange]
  exact Rounds.eval_iterate h (approaches_start start limit) hwait

end

/-- A word brings a machine to one machine only. -/
theorem Definition.Brings.unique {word : Definition} {m m₁ m₂ : Machine} (h₁ : word.Brings m m₁)
    (h₂ : word.Brings m m₂) : m₁ = m₂ := by
  obtain ⟨frames, m', hinvoke, hruns⟩ := h₁
  obtain ⟨frames', m'', hinvoke', hruns'⟩ := h₂
  obtain ⟨rfl, rfl⟩ : frames = frames' ∧ m' = m'' := by
    simpa using hinvoke.symm.trans hinvoke'
  -- Above no frames at all, the run of the word is a whole run.
  let s := Session.bare fun _ => 0
  have hends {m₀ : Machine} (hleads : Leads Session.frameTick (s.placed m' (frames ++ []))
      (s.placed m₀ [])) :
      Ends Session.frameTick (s.placed m' (frames ++ [])) (.ok (), s.placed m₀ []) :=
    hleads.ends_iff.2 (.done (s.frameTick_nil m₀))
  have hsame := (hends (hruns s []).2).unique (hends (hruns' s []).2)
  exact congrArg (fun r => r.2.machine) hsame

namespace Prelude

/-! ## The loop of `spaces` -/

/-- So many space characters. -/
def blanks (k : Nat) : String :=
  String.ofList (List.replicate k ' ')

/-- The machine after one space character is printed. -/
def printBlank (m : Machine) : Machine :=
  { m with output := m.output.print " " }

theorem iterate_printBlank (k : Nat) (m : Machine) :
    printBlank^[k] m = { m with output := m.output.print (blanks k) } := by
  induction k generalizing m with
  | zero =>
    rw [Function.iterate_zero_apply, show blanks 0 = "" from rfl, Output.print_empty]
  | succ k ih =>
    have hblanks : blanks (k + 1) = " " ++ blanks k := by
      rw [blanks, List.replicate_succ, ← List.singleton_append, String.ofList_append]
      rfl
    rw [Function.iterate_succ_apply, ih, hblanks, ← Output.print_print]
    rfl

theorem eval_space (m : Machine) (hwait : m.wait = none) :
    Body.eval space m = some (.done (printBlank m)) := by
  have hnumber : (Tree.leaf (.number 32)).eval m = some (.done { m with data := 32 :: m.data }) := by
    rw [Tree.eval]
  have hemit : Primitive.emit.run.run { m with data := 32 :: m.data } = .ok () (printBlank m) := rfl
  calc Body.eval space m
    _ = Body.eval [primitive "emit" .emit] { m with data := 32 :: m.data } :=
      Body.eval_cons_of_done hnumber
    _ = Body.eval [] (printBlank m) := Body.eval_cons_of_done (Tree.eval_primitive hemit hwait)
    _ = _ := Body.eval_nil _

theorem repeats_space : Body.Repeats [compiled "space" space] printBlank := by
  intro index m hwait
  refine ⟨hwait, ?_⟩
  have hcall : (compiled "space" space).eval { m with returns := index :: m.returns } =
      some (.done (printBlank { m with returns := index :: m.returns })) := by
    rw [compiled, Tree.eval]
    exact eval_space _ hwait
  rw [Body.eval_cons_of_done hcall, Body.eval_nil]
  rfl

/-- The loop is as long as the count is away from zero. -/
theorem brings_spaces (random : Nat → UInt64) {m : Machine} (hwait : m.wait = none) (n : Cell)
    (below : Stack) :
    Brings random "spaces" { m with data := n :: below }
      { m with data := below, output := m.output.print (blanks n.toInt.natAbs) } := by
  refine ⟨_, Session.find?_boot random rfl, Definition.brings_of_eval hwait ?_⟩
  have hstart : (Tree.leaf (.number 0)).eval { m with data := n :: below } =
      some (.done { m with data := 0 :: n :: below }) := by
    rw [Tree.eval]
  have hdistance : distance 0 n = n.toInt.natAbs := by
    rw [distance, Int64.toInt_zero, Int.sub_zero]
  have hloop := Tree.eval_counted_iterate repeats_space hwait 0 n below
  rw [hdistance, iterate_printBlank] at hloop
  rw [Body.eval_cons_of_done hstart, Body.eval_cons_of_done hloop, Body.eval_nil]

/-- **A count that is not negative prints that many spaces.**  In a new session `spaces` comes to its
end for every count and whatever lies below it, takes the count off the data stack, and changes
nothing else but the printed text.  A negative count is not taken for none: it prints as many spaces
as its absolute value says, since the loop from 0 to the count runs downwards then. -/
theorem spaces_runs_to_its_count (random : Nat → UInt64) {m : Machine} (hwait : m.wait = none)
    (n : Cell) (below : Stack) :
    (0 ≤ n → Brings random "spaces" { m with data := n :: below }
      { m with data := below, output := m.output.print (blanks (max n.toInt 0).toNat) }) ∧
    (n < 0 → Brings random "spaces" { m with data := n :: below }
      { m with data := below, output := m.output.print (blanks (-n.toInt).toNat) }) := by
  have hbrings := brings_spaces random hwait n below
  refine ⟨fun hn => ?_, fun hn => ?_⟩
  · have hcount : n.toInt.natAbs = (max n.toInt 0).toNat := by
      rw [Int64.le_iff_toInt_le, Int64.toInt_zero] at hn
      omega
    rwa [hcount] at hbrings
  · have hcount : n.toInt.natAbs = (-n.toInt).toNat := by
      rw [Int64.lt_iff_toInt_lt, Int64.toInt_zero] at hn
      omega
    rwa [hcount] at hbrings

/-- Five spaces for 5, none for 0, and 2⁶³ of them for the least cell. -/
theorem spaces_runs_to_its_count_least :
    (Machine.initial fun _ => 0).wait = none ∧ (0 : Cell) ≤ 5 ∧ Int64.minValue < 0 ∧
      Brings (fun _ => 0) "spaces" { Machine.initial fun _ => 0 with data := [5, 7] }
        { Machine.initial fun _ => 0 with
          data := [7], output := Output.empty.print "     " } ∧
      Brings (fun _ => 0) "spaces" { Machine.initial fun _ => 0 with data := [0, 7] }
        { Machine.initial fun _ => 0 with data := [7] } ∧
      Brings (fun _ => 0) "spaces" { Machine.initial fun _ => 0 with data := [Int64.minValue, 7] }
        { Machine.initial fun _ => 0 with
          data := [7], output := Output.empty.print (blanks (2 ^ 63)) } := by
  have hwait : (Machine.initial fun _ => 0).wait = none := rfl
  have hfive : (0 : Cell) ≤ 5 := by decide
  have hleast : Int64.minValue < 0 := by decide
  have hmany := (spaces_runs_to_its_count (fun _ => 0) hwait Int64.minValue [7]).2 hleast
  have hcount : (-Int64.minValue.toInt).toNat = 2 ^ 63 := by decide
  rw [hcount] at hmany
  exact ⟨hwait, hfive, hleast, (spaces_runs_to_its_count (fun _ => 0) hwait 5 [7]).1 hfive,
    (spaces_runs_to_its_count (fun _ => 0) hwait 0 [7]).1 (by decide), hmany⟩

/-- Of -3 spaces three are printed, and not none. -/
theorem spaces_of_negative :
    Brings (fun _ => 0) "spaces" { Machine.initial fun _ => 0 with data := [-3] }
        { Machine.initial fun _ => 0 with output := Output.empty.print "   " } ∧
      ¬ Brings (fun _ => 0) "spaces" { Machine.initial fun _ => 0 with data := [-3] }
        (Machine.initial fun _ => 0) := by
  have hbrings := brings_spaces (fun _ => 0) (m := Machine.initial fun _ => 0) rfl (-3) []
  refine ⟨hbrings, fun hnone => ?_⟩
  obtain ⟨word, hword, h⟩ := hbrings
  obtain ⟨word', hword', h'⟩ := hnone
  obtain rfl : word = word' := by simpa using hword.symm.trans hword'
  have hprinted := congrArg (fun m : Machine => m.output.console) (h.unique h')
  exact absurd hprinted (by decide)

end Prelude

end Forth
