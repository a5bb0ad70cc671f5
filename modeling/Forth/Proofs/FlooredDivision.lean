import Forth.Session.Boot
import Mathlib.Algebra.Order.Field.Basic
import Mathlib.Data.Int.ModEq
import Mathlib.Data.Rat.Floor
import Mathlib.Tactic.Linarith

/-!
# Division is floored

The machine divides toward zero, and the words of the language correct its quotient and its rest
where that is not the way down.  The two corrections look at different things, the quotient at the
signs of the operands and the rest at its own sign; they are made together all the same
(`Cell.rest_lt_zero_iff`).  So quotient and rest go together, and they are the ones of the rational
quotient rounded down, for all operands but the two whose quotient is no cell
(`division_is_floored`).
-/

namespace Forth

/-! ## Quotients of integers rounded down -/

/-- The quotient that leaves a rest between zero and the divisor is the one that is rounded
down. -/
theorem floor_div_of_rest {a b q r : Int} (h : b * q + r = a)
    (hr : 0 ≤ r ∧ r < b ∨ b < r ∧ r ≤ 0) : ⌊(a / b : ℚ)⌋ = q := by
  rw [Int.floor_eq_iff]
  obtain ⟨hlow, hhigh⟩ | ⟨hlow, hhigh⟩ := hr
  · have hb : (0 : ℚ) < b := by exact_mod_cast hlow.trans_lt hhigh
    rw [le_div_iff₀ hb, div_lt_iff₀ hb]
    constructor
    · have : q * b ≤ a := by linarith
      exact_mod_cast this
    · have : a < (q + 1) * b := by linarith
      exact_mod_cast this
  · have hb : (b : ℚ) < 0 := by exact_mod_cast hlow.trans_le hhigh
    rw [le_div_iff_of_neg hb, div_lt_iff_of_neg hb]
    constructor
    · have : a ≤ q * b := by linarith
      exact_mod_cast this
    · have : (q + 1) * b < a := by linarith
      exact_mod_cast this

/-- The rest of a division toward zero is smaller than the divisor and has the sign of the
dividend. -/
theorem tmod_bounds {a b : Int} (hb : b ≠ 0) :
    (a.tmod b).natAbs < b.natAbs ∧ (0 ≤ a → 0 ≤ a.tmod b) ∧ (a ≤ 0 → a.tmod b ≤ 0) := by
  refine ⟨?_, Int.tmod_nonneg b, fun ha => ?_⟩
  · rw [Int.natAbs_tmod]
    exact Nat.mod_lt _ (Int.natAbs_pos.2 hb)
  · have hneg := Int.tmod_nonneg b (Int.neg_nonneg_of_nonpos ha)
    rw [Int.neg_tmod] at hneg
    omega

/-- A quotient by a divisor that is not a unit is at most half as large. -/
theorem two_mul_natAbs_tdiv_le {a b : Int} (hb : 2 ≤ b.natAbs) :
    2 * (a.tdiv b).natAbs ≤ a.natAbs := by
  rw [Int.natAbs_tdiv]
  calc 2 * (a.natAbs / b.natAbs) ≤ b.natAbs * (a.natAbs / b.natAbs) :=
        Nat.mul_le_mul_right _ hb
    _ ≤ a.natAbs := Nat.mul_div_le _ _

namespace Cell

/-! ## The two corrections -/

variable {a b : Cell}

theorem toInt_ne_zero (h : b ≠ 0) : b.toInt ≠ 0 :=
  fun hb => h (Int64.toInt_inj.1 hb)

/-- A rest that is not zero has the sign of the dividend, so the corrections of the quotient and of
the rest are made for the same operands. -/
theorem rest_lt_zero_iff (hb : b ≠ 0) (h : a % b ≠ 0) : a % b < 0 ↔ a < 0 := by
  obtain ⟨-, hup, hdown⟩ := tmod_bounds (a := a.toInt) (toInt_ne_zero hb)
  have hrest := toInt_ne_zero h
  rw [Int64.toInt_mod] at hrest
  rw [Int64.lt_iff_toInt_lt, Int64.lt_iff_toInt_lt, Int64.toInt_mod, Int64.toInt_zero]
  omega

/-- The division leaves a rest, and the operands have different signs. -/
def IsCorrected (a b : Cell) : Prop :=
  a % b ≠ 0 ∧ decide (a < 0) ≠ decide (b < 0)

instance (a b : Cell) : Decidable (IsCorrected a b) := by
  unfold IsCorrected
  infer_instance

theorem floorDiv_eq (a b : Cell) :
    a.floorDiv b = if IsCorrected a b then a / b - 1 else a / b := rfl

theorem floorMod_eq (hb : b ≠ 0) :
    a.floorMod b = if IsCorrected a b then a % b + b else a % b := by
  unfold floorMod IsCorrected
  by_cases hrest : a % b = 0
  · simp [hrest]
  · simp only [rest_lt_zero_iff hb hrest]

/-- The rest of the machine's division, moved by the divisor where that is made, as an integer. -/
theorem toInt_floorMod (hb : b ≠ 0) :
    (a.floorMod b).toInt =
      if IsCorrected a b then a.toInt.tmod b.toInt + b.toInt else a.toInt.tmod b.toInt := by
  rw [floorMod_eq hb]
  split
  · rename_i h
    obtain ⟨hsmall, hup, hdown⟩ := tmod_bounds (a := a.toInt) (toInt_ne_zero hb)
    have hsigns : ¬ (a.toInt < 0 ↔ b.toInt < 0) := by
      simpa [Int64.lt_iff_toInt_lt] using h.2
    have hlow := Int64.le_toInt b
    have hhigh := Int64.toInt_lt b
    rw [Int64.toInt_add, Int64.toInt_mod]
    -- The two summands have different signs.
    apply Int.bmod_eq_of_le <;> omega
  · exact Int64.toInt_mod a b

/-- The rest lies between zero and the divisor. -/
theorem floorMod_bounds (hb : b ≠ 0) :
    0 ≤ (a.floorMod b).toInt ∧ (a.floorMod b).toInt < b.toInt ∨
      b.toInt < (a.floorMod b).toInt ∧ (a.floorMod b).toInt ≤ 0 := by
  obtain ⟨hsmall, hup, hdown⟩ := tmod_bounds (a := a.toInt) (toInt_ne_zero hb)
  rw [toInt_floorMod hb]
  by_cases h : IsCorrected a b
  · have hrest := toInt_ne_zero h.1
    have hsigns : ¬ (a.toInt < 0 ↔ b.toInt < 0) := by
      simpa [Int64.lt_iff_toInt_lt] using h.2
    rw [Int64.toInt_mod] at hrest
    rw [if_pos h]
    omega
  · have hsigns : a.toInt.tmod b.toInt = 0 ∨ (a.toInt < 0 ↔ b.toInt < 0) := by
      have hnot := not_and_or.1 h
      rw [not_ne_iff, not_ne_iff, ← Int64.toInt_inj, Int64.toInt_mod, decide_eq_decide] at hnot
      simpa [Int64.lt_iff_toInt_lt] using hnot
    have hne := toInt_ne_zero hb
    rw [if_neg h]
    omega

/-- The quotient of the machine's division, lowered by one where that is made, as an integer.  The
quotient of the least cell by -1 is no cell. -/
theorem toInt_floorDiv (hb : b ≠ 0) (h : ¬ (a = Int64.minValue ∧ b = -1)) :
    (a.floorDiv b).toInt =
      if IsCorrected a b then a.toInt.tdiv b.toInt - 1 else a.toInt.tdiv b.toInt := by
  have hquotient : (a / b).toInt = a.toInt.tdiv b.toInt := by
    obtain ha | hb := not_and_or.1 h
    · exact Int64.toInt_div_of_ne_left a b ha
    · exact Int64.toInt_div_of_ne_right a b hb
  rw [floorDiv_eq]
  split
  · rename_i hc
    -- There is a rest, so the divisor is no unit and the quotient is far from the least cell.
    have hrest := toInt_ne_zero hc.1
    rw [Int64.toInt_mod] at hrest
    have hsmall := (tmod_bounds (a := a.toInt) (toInt_ne_zero hb)).1
    have hhalf := two_mul_natAbs_tdiv_le (a := a.toInt) (b := b.toInt) (by omega)
    have hlow := Int64.le_toInt a
    have hhigh := Int64.toInt_lt a
    have hone : (1 : Int64).toInt = 1 := rfl
    rw [Int64.toInt_sub, hquotient, hone]
    apply Int.bmod_eq_of_le <;> omega
  · exact hquotient

/-- Quotient and rest go together. -/
theorem toInt_floorDiv_floorMod (hb : b ≠ 0) (h : ¬ (a = Int64.minValue ∧ b = -1)) :
    b.toInt * (a.floorDiv b).toInt + (a.floorMod b).toInt = a.toInt := by
  have htogether := Int.mul_tdiv_add_tmod a.toInt b.toInt
  rw [toInt_floorDiv hb h, toInt_floorMod hb]
  split
  · rw [Int.mul_sub]
    omega
  · exact htogether

/-- They do so in the arithmetic of cells as well, whatever the operands. -/
theorem floorDiv_mul_add_floorMod (hb : b ≠ 0) : a.floorDiv b * b + a.floorMod b = a := by
  have htogether : a / b * b + a % b = a := by
    rw [← Int64.toInt_inj, Int64.toInt_add, Int64.toInt_mul, Int64.toInt_div, Int64.toInt_mod]
    rw [Int.bmod_mul_bmod, Int.bmod_add_bmod, Int.mul_comm, Int.mul_tdiv_add_tmod]
    exact Int.bmod_eq_of_le (Int64.le_toInt a) (Int64.toInt_lt a)
  rw [floorDiv_eq, floorMod_eq hb]
  split
  · calc (a / b - 1) * b + (a % b + b) = a / b * b + a % b := by grind
      _ = a := htogether
  · exact htogether

end Cell

/-! ## The words -/

namespace Exec

theorem forM_pushData_run (xs : List Cell) (m : Machine) :
    (xs.forM pushData).run m = .ok () { m with data := xs.reverse ++ m.data } := by
  induction xs generalizing m with
  | nil => rfl
  | cons x xs ih =>
    change (xs.forM pushData).run { m with data := x :: m.data } = _
    rw [ih, List.reverse_cons, List.append_assoc, List.singleton_append]

end Exec

/-- The operands are gone when the divisor is refused. -/
theorem Primitive.division_run (results : Cell → Cell → List Cell) {a b : Cell} {m : Machine}
    {below : Stack} (hm : m.data = b :: a :: below) :
    (division results).run m =
      if b = 0 then .error .divisionByZero { m with data := below }
      else .ok () { m with data := (results a b).reverse ++ below } := by
  simp only [division, EStateM.run_bind, Exec.popData_run, hm]
  by_cases hb : b = 0
  · simp only [if_pos hb]
    rfl
  · simp only [if_neg hb]
    exact Exec.forM_pushData_run _ _

namespace Session

/-- **Division is floored for all operands.**  If the divisor is not zero, the rest is what the
rational quotient, rounded down, leaves of the dividend; so it is zero, or it has the sign of the
divisor and is smaller.  The quotient is the rational one rounded down, except that the least cell
divided by -1 is itself, which is the same modulo 2⁶⁴; and quotient and rest go together.

The words `/`, `mod` and `/mod` take both operands off the stack and push the quotient, the rest,
and the quotient above the rest.  With zero for the divisor they fail and have pushed nothing. -/
theorem division_is_floored (a b : Cell) :
    (b ≠ 0 →
      (a.floorMod b).toInt = a.toInt - b.toInt * ⌊(a.toInt / b.toInt : ℚ)⌋ ∧
      ((a.floorMod b).toInt = 0 ∨
        (a.floorMod b).toInt.sign = b.toInt.sign ∧
          (a.floorMod b).toInt.natAbs < b.toInt.natAbs) ∧
      (a.floorDiv b).toInt =
        (if a = Int64.minValue ∧ b = -1 then -2 ^ 63 else ⌊(a.toInt / b.toInt : ℚ)⌋) ∧
      (a.floorDiv b).toInt ≡ ⌊(a.toInt / b.toInt : ℚ)⌋ [ZMOD 2 ^ 64] ∧
      a.floorDiv b * b + a.floorMod b = a) ∧
    ∀ random name results,
      (name, results) ∈ [("/", [a.floorDiv b]), ("mod", [a.floorMod b]),
        ("/mod", [a.floorDiv b, a.floorMod b])] →
      ∃ p, (withPrimitives random).dictionary.find? name = some (.word (.primitive p)) ∧
        ∀ m below, m.data = b :: a :: below →
          p.run.run m =
            if b = 0 then .error .divisionByZero { m with data := below }
            else .ok () { m with data := results ++ below } := by
  refine ⟨fun hb => ?_, fun random name results hname => ?_⟩
  · have hbounds := Cell.floorMod_bounds (a := a) hb
    have hsigned : (a.floorMod b).toInt = 0 ∨ (a.floorMod b).toInt.sign = b.toInt.sign ∧
        (a.floorMod b).toInt.natAbs < b.toInt.natAbs := by
      obtain ⟨hlow, hhigh⟩ | ⟨hlow, hhigh⟩ := hbounds
      · refine hlow.eq_or_lt.imp Eq.symm fun hpos => ⟨?_, by omega⟩
        rw [Int.sign_eq_one_of_pos hpos, Int.sign_eq_one_of_pos (hpos.trans hhigh)]
      · refine hhigh.eq_or_lt.imp id fun hneg => ⟨?_, by omega⟩
        rw [Int.sign_eq_neg_one_of_neg hneg, Int.sign_eq_neg_one_of_neg (hlow.trans hneg)]
    -- One quotient is no cell.  There the statement is one about fixed cells, apart from the rest,
    -- and everywhere else the quotient is exact.
    by_cases hleast : a = Int64.minValue ∧ b = -1
    · obtain ⟨rfl, rfl⟩ := hleast
      have hfloor : ⌊((Int64.minValue.toInt : ℚ) / (-1 : Cell).toInt)⌋ = 2 ^ 63 :=
        floor_div_of_rest (r := 0) rfl (.inr ⟨by decide, le_refl 0⟩)
      rw [hfloor]
      exact ⟨by decide, hsigned, by decide, by decide, Cell.floorDiv_mul_add_floorMod hb⟩
    · have htogether := Cell.toInt_floorDiv_floorMod hb hleast
      rw [floor_div_of_rest htogether hbounds, if_neg hleast]
      exact ⟨by omega, hsigned, rfl, .refl _, Cell.floorDiv_mul_add_floorMod hb⟩
  · simp only [List.mem_cons, Prod.mk.injEq, List.not_mem_nil, or_false] at hname
    obtain ⟨rfl, rfl⟩ | ⟨rfl, rfl⟩ | ⟨rfl, rfl⟩ := hname
    · exact ⟨.divide, rfl, fun m below hm => Primitive.division_run _ hm⟩
    · exact ⟨.remainder, rfl, fun m below hm => Primitive.division_run _ hm⟩
    · exact ⟨.divideWithRemainder, rfl, fun m below hm => Primitive.division_run _ hm⟩

/-- The one quotient that is no cell. -/
theorem division_is_floored_least :
    (-1 : Cell) ≠ 0 ∧ (Cell.floorDiv Int64.minValue (-1)).toInt = -2 ^ 63 ∧
      Cell.floorDiv Int64.minValue (-1) * -1 + Cell.floorMod Int64.minValue (-1) =
        Int64.minValue ∧
      ∃ p, (withPrimitives fun _ => 0).dictionary.find? "/mod" = some (.word (.primitive p)) ∧
        p.run.run { Machine.initial fun _ => 0 with data := [-1, Int64.minValue, 7] } =
          .ok () { Machine.initial fun _ => 0 with data := [Int64.minValue, 0, 7] } := by
  obtain ⟨hcells, hwords⟩ := division_is_floored Int64.minValue (-1)
  obtain ⟨-, -, hquotient, -, htogether⟩ := hcells (by decide)
  obtain ⟨p, hp, hrun⟩ := hwords (fun _ => 0) "/mod" _ (.tail _ (.tail _ (.head _)))
  have hresults : Cell.floorDiv Int64.minValue (-1) = Int64.minValue ∧
      Cell.floorMod Int64.minValue (-1) = 0 := by decide
  have hunit : (-1 : Cell) ≠ 0 := by decide
  simp only [hresults, hunit, if_false] at hrun
  exact ⟨hunit, hquotient, htogether, p, hp, hrun _ [7] rfl⟩

end Session

end Forth
