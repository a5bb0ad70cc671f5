import Forth.Proofs.StackEffects
import Forth.Proofs.Variables
import Forth.Session.Boot

/-!
# The words of the prelude

The prelude is source text: its words are taken off lines, looked up, compiled and entered in the
dictionary before a session starts.  `Prelude.words` is what they come to (`boot_dictionary`), and
the rest of this file says what they compute (`prelude_words_compute`): the minimum and the maximum,
the absolute value and so on, of all cells, with the results of integer arithmetic taken modulo 2⁶⁴.

The effect of a word is put together from those of the words in it, in the order of its body.  The
two words that look at the memory are no mere effects on the data stack, so they are followed tree by
tree.
-/

namespace Forth

/-! ## The definitions -/

namespace Prelude

def primitive (name : String) (p : Primitive) : Tree :=
  .leaf (.invoke name (.primitive p))

def compiled (name : String) (body : Body) : Tree :=
  .leaf (.invoke name (.compiled body))

/-- A number, and a primitive word that takes it as its second operand. -/
def withNumber (n : Cell) (name : String) (p : Primitive) : Body :=
  [.leaf (.number n), primitive name p]

def isNegative : Body := withNumber 0 "<" .less

def negate : Body := withNumber (-1) "*" .multiply

def space : Body := withNumber 32 "emit" .emit

def duplicatePair : Body := [primitive "over" .copySecond, primitive "over" .copySecond]

def duplicateTrue : Body :=
  [primitive "dup" .duplicate, .branch [primitive "dup" .duplicate] []]

def absolute : Body :=
  [primitive "dup" .duplicate, compiled "0<" isNegative, .branch [compiled "negate" negate] []]

/-- Goes on with the first body if the lower one of two cells is less, else with the second one. -/
def byOrder (less other : Body) : Body :=
  [compiled "2dup" duplicatePair, primitive "<" .less, .branch less other]

def dropUpper : Body := [primitive "drop" .drop]

def dropLower : Body := [primitive "swap" .swap, primitive "drop" .drop]

def showCell : Body := [primitive "@" .fetch, primitive "." .print]

def addTo : Body :=
  [primitive "dup" .duplicate, primitive "@" .fetch, primitive "rot" .rotate, primitive "+" .add,
    primitive "swap" .swap, primitive "!" .store]

/-- The words that are defined in the language itself, the newest first. -/
def words : List (String × Definition) :=
  [("+!", .compiled addTo),
   ("?", .compiled showCell),
   ("max", .compiled (byOrder dropLower dropUpper)),
   ("min", .compiled (byOrder dropUpper dropLower)),
   ("abs", .compiled absolute),
   ("negate", .compiled negate),
   ("2/", .compiled (withNumber 2 "/" .divide)),
   ("2*", .compiled (withNumber 2 "*" .multiply)),
   ("2-", .compiled (withNumber 2 "-" .subtract)),
   ("2+", .compiled (withNumber 2 "+" .add)),
   ("1-", .compiled (withNumber 1 "-" .subtract)),
   ("1+", .compiled (withNumber 1 "+" .add)),
   ("2dup", .compiled duplicatePair),
   ("?dup", .compiled duplicateTrue),
   ("0>", .compiled (withNumber 0 ">" .greater)),
   ("0<", .compiled isNegative),
   ("0=", .compiled (withNumber 0 "=" .equal)),
   ("spaces", .compiled [.leaf (.number 0), .counted [compiled "space" space] false]),
   ("space", .compiled space),
   ("cr", .compiled (withNumber 10 "emit" .emit)),
   ("cells", .compiled (withNumber 1 "*" .multiply)),
   ("last-key", .value 1000)]

end Prelude

namespace Session

set_option maxRecDepth 20000 in
/-- The prelude is read, compiled and entered in the dictionary as these words. -/
theorem boot_dictionary (random : Nat → UInt64) :
    (boot random).dictionary =
      Prelude.words.map (fun w => (w.1, .word w.2)) ++ (withPrimitives random).dictionary :=
  -- In parentheses, since a plain `rfl` would be checked a second time, as a rule for `dsimp`.
  (rfl)

theorem find?_boot (random : Nat → UInt64) {name : String} {word : Definition}
    (h : Prelude.words.lookup (Text.lowerCase name) = some word) :
    (boot random).dictionary.find? name = some (.word word) := by
  rw [Dictionary.find?, boot_dictionary, List.lookup_append]
  have hmap : ∀ ws : List (String × Definition),
      (ws.map fun w => (w.1, Meaning.word w.2)).lookup (Text.lowerCase name) =
        (ws.lookup (Text.lowerCase name)).map .word := by
    intro ws
    induction ws with
    | nil => rfl
    | cons w ws ih =>
      rw [List.map_cons, List.lookup_cons, List.lookup_cons, ih]
      split <;> rfl
  rw [hmap, h]
  rfl

end Session

/-! ## Results modulo 2⁶⁴ -/

namespace Cell

variable (a b : Cell)

theorem ofInt_min : Int64.ofInt (min a.toInt b.toInt) = if a < b then a else b := by
  by_cases h : a < b
  · rw [if_pos h, Int.min_eq_left (Int.le_of_lt (Int64.lt_iff_toInt_lt.1 h)), Int64.ofInt_toInt]
  · have hle : b.toInt ≤ a.toInt := Int.not_lt.1 (mt Int64.lt_iff_toInt_lt.2 h)
    rw [if_neg h, Int.min_eq_right hle, Int64.ofInt_toInt]

theorem ofInt_max : Int64.ofInt (max a.toInt b.toInt) = if a < b then b else a := by
  by_cases h : a < b
  · rw [if_pos h, Int.max_eq_right (Int.le_of_lt (Int64.lt_iff_toInt_lt.1 h)), Int64.ofInt_toInt]
  · have hle : b.toInt ≤ a.toInt := Int.not_lt.1 (mt Int64.lt_iff_toInt_lt.2 h)
    rw [if_neg h, Int.max_eq_left hle, Int64.ofInt_toInt]

theorem ofInt_neg : Int64.ofInt (-a.toInt) = a * -1 := by
  rw [Int64.ofInt_neg, Int64.ofInt_toInt]
  grind

theorem ofInt_natAbs : Int64.ofInt a.toInt.natAbs = if a < 0 then a * -1 else a := by
  have hsign : a < 0 ↔ a.toInt < 0 := by rw [Int64.lt_iff_toInt_lt, Int64.toInt_zero]
  by_cases h : a < 0
  · rw [if_pos h, Int.ofNat_natAbs_of_nonpos (Int.le_of_lt (hsign.1 h)), ofInt_neg]
  · rw [if_neg h, Int.natAbs_of_nonneg (Int.not_lt.1 (mt hsign.2 h)), Int64.ofInt_toInt]

theorem ofInt_add (k : Int) : Int64.ofInt (a.toInt + k) = a + Int64.ofInt k := by
  rw [Int64.ofInt_add, Int64.ofInt_toInt]

theorem ofInt_sub (k : Int) : Int64.ofInt (a.toInt - k) = a - Int64.ofInt k := by
  rw [Int64.ofInt_sub, Int64.ofInt_toInt]

theorem ofInt_twice : Int64.ofInt (2 * a.toInt) = a * 2 := by
  have htwo : Int64.ofInt 2 = 2 := rfl
  rw [Int64.ofInt_mul, Int64.ofInt_toInt, htwo, Int64.mul_comm]

theorem ofInt_half : Int64.ofInt ⌊(a.toInt / 2 : ℚ)⌋ = a.floorDiv 2 := by
  have htwo : (2 : Cell) ≠ 0 := by decide
  have hnot : ¬ (a = Int64.minValue ∧ (2 : Cell) = -1) := fun h => absurd h.2 (by decide)
  have hfloor := floor_div_of_rest (toInt_floorDiv_floorMod (a := a) htwo hnot)
    (floorMod_bounds htwo)
  have hint : ((2 : Cell).toInt : ℚ) = 2 := by rfl
  rw [hint] at hfloor
  rw [hfloor, Int64.ofInt_toInt]

theorem ofBool_eq {p q : Prop} [Decidable p] [Decidable q] (h : p ↔ q) :
    ofBool (decide p) = if q then -1 else 0 := by
  by_cases hq : q <;> simp [ofBool, h, hq]

theorem ofBool_ne_zero_iff {p : Prop} [Decidable p] : ofBool (decide p) ≠ 0 ↔ p := by
  by_cases hp : p <;> simp [ofBool, hp]

end Cell

/-! ## Effects of the words -/

namespace Prelude

variable (a b n : Cell)

theorem turns_withNumber {k : Cell} {p : Primitive} {ys : Stack} (h : p.Turns [k, n] ys)
    (name : String) : Body.Turns (withNumber k name p) [n] ys :=
  Tree.Turns.cons ((Tree.turns_number k).above [n]) ((h.tree name).cons (Body.turns_nil ys))

theorem turns_negate : Body.Turns negate [n] [Int64.ofInt (-n.toInt)] := by
  rw [Cell.ofInt_neg]
  exact turns_withNumber n (Primitive.turns_multiply n (-1)) "*"

theorem turns_isNegative : Body.Turns isNegative [n] [.ofBool (n < 0)] :=
  turns_withNumber n (Primitive.turns_less n 0) "<"

theorem turns_duplicatePair : Body.Turns duplicatePair [b, a] [b, a, b, a] := by
  refine Tree.Turns.cons ((Primitive.turns_copySecond a b).tree "over") ?_
  exact (((Primitive.turns_copySecond b a).tree "over").above [a]).cons (Body.turns_nil _)

theorem turns_duplicateTrue : Body.Turns duplicateTrue [n] (if n = 0 then [n] else [n, n]) := by
  refine Tree.Turns.cons ((Primitive.turns_duplicate n).tree "dup") ?_
  refine Tree.Turns.cons (Tree.turns_branch ?_) (Body.turns_nil _)
  by_cases hn : n = 0
  · rw [if_neg (not_not_intro hn), if_pos hn]
    exact Body.turns_nil _
  · rw [if_pos hn, if_neg hn]
    exact ((Primitive.turns_duplicate n).tree "dup").cons (Body.turns_nil _)

theorem turns_absolute : Body.Turns absolute [n] [Int64.ofInt n.toInt.natAbs] := by
  refine Tree.Turns.cons ((Primitive.turns_duplicate n).tree "dup") ?_
  refine Tree.Turns.cons (((turns_isNegative n).tree "0<").above [n]) ?_
  refine Tree.Turns.cons (Tree.turns_branch ?_) (Body.turns_nil _)
  rw [Cell.ofInt_natAbs]
  by_cases hn : n < 0
  · rw [if_pos (Cell.ofBool_ne_zero_iff.2 hn), if_pos hn, ← Cell.ofInt_neg]
    exact ((turns_negate n).tree "negate").cons (Body.turns_nil _)
  · rw [if_neg (mt Cell.ofBool_ne_zero_iff.1 hn), if_neg hn]
    exact Body.turns_nil _

theorem turns_byOrder {less other : Body} {xs : Stack}
    (h : Body.Turns (if a < b then less else other) [b, a] xs) :
    Body.Turns (byOrder less other) [b, a] xs := by
  have hbranch : Body.Turns (if Cell.ofBool (a < b) ≠ 0 then less else other) [b, a] xs := by
    simpa only [Cell.ofBool_ne_zero_iff] using h
  refine Tree.Turns.cons ((turns_duplicatePair a b).tree "2dup") ?_
  refine Tree.Turns.cons (((Primitive.turns_less a b).tree "<").above [b, a]) ?_
  exact (Tree.turns_branch hbranch).cons (Body.turns_nil _)

theorem turns_dropUpper : Body.Turns dropUpper [b, a] [a] :=
  (((Primitive.turns_drop b).tree "drop").above [a]).cons (Body.turns_nil _)

theorem turns_dropLower : Body.Turns dropLower [b, a] [b] := by
  refine Tree.Turns.cons ((Primitive.turns_swap a b).tree "swap") ?_
  exact (((Primitive.turns_drop a).tree "drop").above [b]).cons (Body.turns_nil _)

theorem turns_minimum :
    Body.Turns (byOrder dropUpper dropLower) [b, a] [Int64.ofInt (min a.toInt b.toInt)] := by
  apply turns_byOrder
  rw [Cell.ofInt_min]
  split
  · exact turns_dropUpper a b
  · exact turns_dropLower a b

theorem turns_maximum :
    Body.Turns (byOrder dropLower dropUpper) [b, a] [Int64.ofInt (max a.toInt b.toInt)] := by
  apply turns_byOrder
  rw [Cell.ofInt_max]
  split
  · exact turns_dropLower a b
  · exact turns_dropUpper a b

/-! ## The words that look at the memory -/

variable {a n} {m : Machine} {below : Stack}

theorem toAddress?_of_nonneg (ha : 0 ≤ a) : a.toAddress? = some a.toUInt64 := by
  rw [Cell.toAddress?, if_neg (Int64.not_lt.2 ha)]

theorem fetch_run (ha : 0 ≤ a) (m : Machine) (below : Stack) :
    Primitive.fetch.run.run { m with data := a :: below } =
      .ok () { m with data := m.memory.get a.toUInt64 :: below } := by
  simp only [Primitive.run, EStateM.run_bind]
  rw [Exec.popAddress_run rfl, toAddress?_of_nonneg ha]
  rfl

theorem store_run (ha : 0 ≤ a) (m : Machine) (n : Cell) (below : Stack) :
    Primitive.store.run.run { m with data := a :: n :: below } =
      .ok () { m with data := below, memory := m.memory.set a.toUInt64 n } := by
  simp only [Primitive.run, EStateM.run_bind]
  rw [Exec.popAddress_run rfl, toAddress?_of_nonneg ha]
  rfl

theorem eval_showCell (ha : 0 ≤ a) (hwait : m.wait = none) :
    Body.eval showCell { m with data := a :: below } =
      some (.done { m with
        data := below
        output := m.output.print ((m.memory.get a.toUInt64).decimal ++ " ") }) := by
  have hprint : Primitive.print.run.run { m with data := m.memory.get a.toUInt64 :: below } =
      .ok () { m with
        data := below
        output := m.output.print ((m.memory.get a.toUInt64).decimal ++ " ") } := rfl
  calc Body.eval showCell { m with data := a :: below }
    _ = Body.eval [primitive "." .print] { m with data := m.memory.get a.toUInt64 :: below } :=
      Body.eval_cons_of_done (Tree.eval_primitive (fetch_run ha m below) hwait)
    _ = Body.eval [] { m with
          data := below
          output := m.output.print ((m.memory.get a.toUInt64).decimal ++ " ") } :=
      Body.eval_cons_of_done (Tree.eval_primitive hprint hwait)
    _ = _ := Body.eval_nil _

theorem eval_addTo (ha : 0 ≤ a) (hwait : m.wait = none) :
    Body.eval addTo { m with data := a :: n :: below } =
      some (.done { m with
        data := below
        memory := m.memory.set a.toUInt64 (m.memory.get a.toUInt64 + n) }) := by
  calc Body.eval addTo { m with data := a :: n :: below }
    _ = Body.eval (addTo.drop 1) { m with data := a :: a :: n :: below } :=
      Body.eval_cons_of_done ((Primitive.turns_duplicate a).tree "dup" m (n :: below) hwait)
    _ = Body.eval (addTo.drop 2) { m with data := m.memory.get a.toUInt64 :: a :: n :: below } :=
      Body.eval_cons_of_done (Tree.eval_primitive (fetch_run ha m (a :: n :: below)) hwait)
    _ = Body.eval (addTo.drop 3) { m with data := n :: m.memory.get a.toUInt64 :: a :: below } :=
      Body.eval_cons_of_done ((Primitive.turns_rotate n a _).tree "rot" m below hwait)
    _ = Body.eval (addTo.drop 4) { m with data := (m.memory.get a.toUInt64 + n) :: a :: below } :=
      Body.eval_cons_of_done ((Primitive.turns_add _ n).tree "+" m (a :: below) hwait)
    _ = Body.eval (addTo.drop 5) { m with data := a :: (m.memory.get a.toUInt64 + n) :: below } :=
      Body.eval_cons_of_done ((Primitive.turns_swap a _).tree "swap" m below hwait)
    _ = Body.eval [] { m with
          data := below, memory := m.memory.set a.toUInt64 (m.memory.get a.toUInt64 + n) } :=
      Body.eval_cons_of_done (Tree.eval_primitive (store_run ha m _ below) hwait)
    _ = _ := Body.eval_nil _

/-! ## The words of a new session -/

/-- The word of this name in a new session brings the first machine to the second one. -/
def Brings (random : Nat → UInt64) (name : String) (m m' : Machine) : Prop :=
  ∃ word, (Session.boot random).dictionary.find? name = some (.word word) ∧ word.Brings m m'

theorem brings_of_turns (random : Nat → UInt64) {name : String} {body : Body} {xs ys : Stack}
    (hname : words.lookup (Text.lowerCase name) = some (.compiled body))
    (h : Body.Turns body xs ys) (hwait : m.wait = none) (below : Stack) :
    Brings random name { m with data := xs ++ below } { m with data := ys ++ below } :=
  ⟨_, Session.find?_boot random hname, h.brings hwait below⟩

theorem brings_withNumber (random : Nat → UInt64) {name second : String} {p : Primitive}
    {k n : Cell} {ys : Stack}
    (hname : words.lookup (Text.lowerCase name) = some (.compiled (withNumber k second p)))
    (h : p.Turns [k, n] ys) (hwait : m.wait = none) (below : Stack) :
    Brings random name { m with data := n :: below } { m with data := ys ++ below } :=
  brings_of_turns random hname (turns_withNumber n h second) hwait below

/-- **The words of the prelude compute what their names say**, for all operands and whatever lies
below them, in a session with any frames scheduled and any line in progress.  Results are taken
modulo 2⁶⁴.  Of the machine only the operands change, the memory for `+!` at one address, and the
printed text for `?`. -/
theorem prelude_words_compute (random : Nat → UInt64) {m : Machine} (hwait : m.wait = none)
    (below : Stack) :
    (∀ (a b : Cell) (name : String) (results : Stack),
      (name, results) ∈
        [("min", [Int64.ofInt (min a.toInt b.toInt)]),
         ("max", [Int64.ofInt (max a.toInt b.toInt)]),
         ("2dup", [b, a, b, a])] →
      Brings random name { m with data := b :: a :: below } { m with data := results ++ below }) ∧
    (∀ (n : Cell) (name : String) (results : Stack),
      (name, results) ∈
        [("abs", [Int64.ofInt n.toInt.natAbs]),
         ("negate", [Int64.ofInt (-n.toInt)]),
         ("2/", [Int64.ofInt ⌊(n.toInt / 2 : ℚ)⌋]),
         ("2*", [Int64.ofInt (2 * n.toInt)]),
         ("1+", [Int64.ofInt (n.toInt + 1)]),
         ("1-", [Int64.ofInt (n.toInt - 1)]),
         ("2+", [Int64.ofInt (n.toInt + 2)]),
         ("2-", [Int64.ofInt (n.toInt - 2)]),
         ("0=", [if n.toInt = 0 then -1 else 0]),
         ("0<", [if n.toInt < 0 then -1 else 0]),
         ("0>", [if 0 < n.toInt then -1 else 0]),
         ("?dup", if n.toInt = 0 then [n] else [n, n])] →
      Brings random name { m with data := n :: below } { m with data := results ++ below }) ∧
    (∀ n a : Cell, 0 ≤ a →
      ∃ memory : Memory,
        Brings random "+!" { m with data := a :: n :: below } { m with data := below, memory } ∧
        memory.get a.toUInt64 = Int64.ofInt ((m.memory.get a.toUInt64).toInt + n.toInt) ∧
        (∀ c, c ≠ a.toUInt64 → memory.get c = m.memory.get c) ∧
        memory.named = m.memory.named ∧ memory.free = m.memory.free) ∧
    ∀ a : Cell, 0 ≤ a →
      Brings random "?" { m with data := a :: below }
        { m with
          data := below
          output := m.output.print ((m.memory.get a.toUInt64).decimal ++ " ") } := by
  refine ⟨fun a b name results hname => ?_, fun n name results hname => ?_, fun n a ha => ?_,
    fun a ha => ?_⟩
  · simp only [List.mem_cons, Prod.mk.injEq, List.not_mem_nil, or_false] at hname
    obtain ⟨rfl, rfl⟩ | ⟨rfl, rfl⟩ | ⟨rfl, rfl⟩ := hname
    · exact brings_of_turns random rfl (turns_minimum a b) hwait below
    · exact brings_of_turns random rfl (turns_maximum a b) hwait below
    · exact brings_of_turns random rfl (turns_duplicatePair a b) hwait below
  -- The comparisons are stated of integers, the primitive words compare cells.
  · have hzero : n = 0 ↔ n.toInt = 0 := Int64.toInt_inj.symm
    have hneg : n < 0 ↔ n.toInt < 0 := Int64.lt_iff_toInt_lt
    have hpos : n > 0 ↔ 0 < n.toInt := Int64.lt_iff_toInt_lt
    simp only [List.mem_cons, Prod.mk.injEq, List.not_mem_nil, or_false] at hname
    obtain ⟨rfl, rfl⟩ | ⟨rfl, rfl⟩ | ⟨rfl, rfl⟩ | ⟨rfl, rfl⟩ | ⟨rfl, rfl⟩ | ⟨rfl, rfl⟩ |
      ⟨rfl, rfl⟩ | ⟨rfl, rfl⟩ | ⟨rfl, rfl⟩ | ⟨rfl, rfl⟩ | ⟨rfl, rfl⟩ | ⟨rfl, rfl⟩ := hname
    · exact brings_of_turns random rfl (turns_absolute n) hwait below
    · exact brings_of_turns random rfl (turns_negate n) hwait below
    -- The definition of `2/` divides by two, and division is floored.  The words below push a number
    -- onto the operand in the same way and leave the rest to a primitive word.
    · rw [Cell.ofInt_half]
      have hdivide := Primitive.turns_divide n (b := 2) (by decide)
      exact brings_withNumber random rfl hdivide hwait below
    · rw [Cell.ofInt_twice]
      exact brings_withNumber random rfl (Primitive.turns_multiply n 2) hwait below
    · rw [Cell.ofInt_add]
      exact brings_withNumber random rfl (Primitive.turns_add n 1) hwait below
    · rw [Cell.ofInt_sub]
      exact brings_withNumber random rfl (Primitive.turns_subtract n 1) hwait below
    · rw [Cell.ofInt_add]
      exact brings_withNumber random rfl (Primitive.turns_add n 2) hwait below
    · rw [Cell.ofInt_sub]
      exact brings_withNumber random rfl (Primitive.turns_subtract n 2) hwait below
    · rw [← Cell.ofBool_eq hzero]
      exact brings_withNumber random rfl (Primitive.turns_equal n 0) hwait below
    · rw [← Cell.ofBool_eq hneg]
      exact brings_withNumber random rfl (Primitive.turns_less n 0) hwait below
    · rw [← Cell.ofBool_eq hpos]
      exact brings_withNumber random rfl (Primitive.turns_greater n 0) hwait below
    · simp only [← hzero]
      exact brings_of_turns random rfl (turns_duplicateTrue n) hwait below
  · refine ⟨_, ⟨_, Session.find?_boot random rfl,
      Definition.brings_of_eval hwait (eval_addTo ha hwait)⟩, ?_, fun c hc => ?_, rfl, rfl⟩
    · rw [Memory.get_set, if_pos rfl, Cell.ofInt_add, Int64.ofInt_toInt]
    · rw [Memory.get_set, if_neg (Ne.symm hc)]
  · exact ⟨_, Session.find?_boot random rfl,
      Definition.brings_of_eval hwait (eval_showCell ha hwait)⟩

/-- The absolute value of the least cell is out of range, and so it stays. -/
theorem prelude_words_compute_least :
    (Machine.initial fun _ => 0).wait = none ∧
      Brings (fun _ => 0) "abs"
        { Machine.initial fun _ => 0 with data := [Int64.minValue, 7] }
        { Machine.initial fun _ => 0 with data := [Int64.minValue, 7] } ∧
      Brings (fun _ => 0) "min"
        { Machine.initial fun _ => 0 with data := [Int64.minValue, Int64.maxValue, 7] }
        { Machine.initial fun _ => 0 with data := [Int64.minValue, 7] } := by
  have hwait : (Machine.initial fun _ => 0).wait = none := rfl
  obtain ⟨hbinary, hunary, -, -⟩ := prelude_words_compute (fun _ => 0) hwait [7]
  have habs : Int64.ofInt Int64.minValue.toInt.natAbs = Int64.minValue := by decide
  have hmin : Int64.ofInt (min Int64.maxValue.toInt Int64.minValue.toInt) = Int64.minValue := by
    decide
  have habsolute := hunary Int64.minValue _ _ (.head _)
  have hminimum := hbinary Int64.maxValue Int64.minValue _ _ (.head _)
  rw [habs] at habsolute
  rw [hmin] at hminimum
  exact ⟨hwait, habsolute, hminimum⟩

end Prelude

end Forth
