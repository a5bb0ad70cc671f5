import Forth.Proofs.LetterCase
import Mathlib.Data.Nat.Digits.Lemmas

/-!
# The grammar of numerals

A numeral is an optional sign and a magnitude, and a magnitude is a decimal digit with decimal
digits and underscores behind it, or a mark of its base with digits of that base and underscores
behind it, one digit at least.  `Denotes` is that grammar, together with the integer that a numeral
stands for, whatever its size.  It says nothing of how a text is read.

Reading a text gives exactly the cell that the grammar lets it denote, and nothing if there is no
such cell (`numerals_are_exact`).  The reader goes from left to right and multiplies what it has by
the base for each further digit, so the induction is on the digits behind a magnitude that is
already read (`digitsFrom_eq_some_iff`).
-/

namespace Forth.Numeral

/-! ## The grammar -/

/-- The character is the digit of this value in this base, as a small letter or as a capital one. -/
def IsDigit (base d : Nat) (c : Char) : Prop :=
  d < base ∧ (c = Nat.digitChar d ∨ c = (Nat.digitChar d).toUpper)

/-- The characters are these digits, with any number of underscores before, between and behind
them. -/
inductive Spells (base : Nat) : List Char → List Nat → Prop
  | nil : Spells base [] []
  | underscore {cs : List Char} {ds : List Nat} (h : Spells base cs ds) :
    Spells base ('_' :: cs) ds
  | digit {c : Char} {cs : List Char} {d : Nat} {ds : List Nat} (hc : IsDigit base d c)
    (h : Spells base cs ds) : Spells base (c :: cs) (d :: ds)

/-- The number with these digits, that of the highest power first. -/
def valueOf (base : Nat) (ds : List Nat) : Nat :=
  Nat.ofDigits base ds.reverse

/-- The letters that mark a base. -/
def marks : List (Char × Nat) :=
  [('x', 16), ('X', 16), ('b', 2), ('B', 2)]

/-- The characters are a numeral without its sign, for this number. -/
inductive IsMagnitude : List Char → Nat → Prop
  | decimal {c : Char} {cs : List Char} {d : Nat} {ds : List Nat} (hc : IsDigit 10 d c)
    (h : Spells 10 cs ds) : IsMagnitude (c :: cs) (valueOf 10 (d :: ds))
  | marked {mark : Char} {base : Nat} {cs : List Char} {ds : List Nat}
    (hmark : (mark, base) ∈ marks) (h : Spells base cs ds) (hds : ds ≠ []) :
    IsMagnitude ('0' :: mark :: cs) (valueOf base ds)

/-- The characters are a numeral for this integer. -/
inductive Denotes : List Char → Int → Prop
  | unsigned {cs : List Char} {n : Nat} (h : IsMagnitude cs n) : Denotes cs n
  | plus {cs : List Char} {n : Nat} (h : IsMagnitude cs n) : Denotes ('+' :: cs) n
  | minus {cs : List Char} {n : Nat} (h : IsMagnitude cs n) : Denotes ('-' :: cs) (-n)

/-! ## Digits -/

variable {base : Nat}

theorem digitChar_cases : ∀ d < 16,
    (d < 10 → Nat.digitChar d = Char.ofNat (d + 48)) ∧
      (10 ≤ d → Nat.digitChar d = Char.ofNat (d + 87) ∧
        (Nat.digitChar d).toUpper = Char.ofNat (d + 55)) := by
  decide

theorem isDigit_of_digit? (hbase : base ≤ 16) {c : Char} {d : Nat} (h : digit? base c = some d) :
    IsDigit base d c := by
  have hchar {k : Nat} (hk : d + k = c.toNat) : c = Char.ofNat (d + k) := by
    rw [hk, Char.ofNat_toNat]
  unfold digit? at h
  simp only [Option.ite_none_right_eq_some, Option.some.injEq] at h
  obtain ⟨hlt, hvalue⟩ := h
  rw [hvalue] at hlt
  obtain ⟨hsmall, hlarge⟩ := digitChar_cases d (hlt.trans_le hbase)
  refine ⟨hlt, ?_⟩
  -- The three ranges of characters: the digits, the small letters and the capital letters.
  split at hvalue
  · rename_i hrange
    have hlow : 48 ≤ c.toNat := hrange.1
    have hhigh : c.toNat ≤ 57 := hrange.2
    have hc : d + 48 = c.toNat := by rw [← hvalue]; exact Nat.sub_add_cancel hlow
    left
    rw [hsmall (by omega)]
    exact hchar hc
  split at hvalue
  · rename_i hrange
    have hlow : 97 ≤ c.toNat := hrange.1
    have hc : d + 87 = c.toNat := by
      have : c.toNat - 97 + 10 = d := hvalue
      omega
    left
    rw [(hlarge (by omega)).1]
    exact hchar hc
  split at hvalue
  · rename_i hrange
    have hlow : 65 ≤ c.toNat := hrange.1
    have hc : d + 55 = c.toNat := by
      have : c.toNat - 65 + 10 = d := hvalue
      omega
    right
    rw [(hlarge (by omega)).2]
    exact hchar hc
  · omega

/-- The value of a digit does not depend on the base. -/
theorem digit?_of_lt {c : Char} {d : Nat} (h : digit? 16 c = some d) (hd : d < base) :
    digit? base c = some d := by
  unfold digit? at h ⊢
  grind

theorem digit?_eq_some_iff (hbase : base ≤ 16) {c : Char} {d : Nat} :
    digit? base c = some d ↔ IsDigit base d c := by
  have hvalues : ∀ d < 16, digit? 16 (Nat.digitChar d) = some d ∧
      digit? 16 (Nat.digitChar d).toUpper = some d := by decide
  refine ⟨isDigit_of_digit? hbase, fun ⟨hd, hc⟩ => ?_⟩
  obtain ⟨hsmall, hcapital⟩ := hvalues d (hd.trans_le hbase)
  obtain rfl | rfl := hc
  · exact digit?_of_lt hsmall hd
  · exact digit?_of_lt hcapital hd

theorem not_isDigit_underscore (hbase : base ≤ 16) (d : Nat) : ¬ IsDigit base d '_' := by
  rw [← digit?_eq_some_iff hbase, digit?]
  simp

/-! ## Sequences of digits -/

@[simp] theorem valueOf_nil : valueOf base [] = 0 := rfl

theorem valueOf_cons (d : Nat) (ds : List Nat) :
    valueOf base (d :: ds) = d * base ^ ds.length + valueOf base ds := by
  unfold valueOf
  rw [List.reverse_cons, Nat.ofDigits_append, Nat.ofDigits_singleton, List.length_reverse]
  ring

/-- What is read so far counts for more with each digit that follows. -/
theorem digitsFrom_eq_some_iff (hbase : base ≤ 16) {acc n : Nat} {cs : List Char} :
    digitsFrom base acc cs = some n ↔
      ∃ ds, Spells base cs ds ∧ n = acc * base ^ ds.length + valueOf base ds := by
  -- The accumulator holds the value of the digits so far, so the statement is for any value of it.
  induction cs generalizing acc with
  | nil =>
    constructor
    · intro h
      exact ⟨[], .nil, by simpa using (Option.some.inj h).symm⟩
    · rintro ⟨ds, ⟨⟩, rfl⟩
      simp [digitsFrom]
  | cons c cs ih =>
    rw [digitsFrom]
    split
    · rename_i hc
      subst hc
      rw [ih]
      constructor
      · rintro ⟨ds, h, hn⟩
        exact ⟨ds, .underscore h, hn⟩
      · rintro ⟨ds, h, hn⟩
        cases h with
        | underscore h => exact ⟨ds, h, hn⟩
        | digit hc _ => exact absurd hc (not_isDigit_underscore hbase _)
    · rename_i hc
      rw [Option.bind_eq_some_iff]
      constructor
      · rintro ⟨d, hd, hrest⟩
        obtain ⟨ds, h, rfl⟩ := ih.1 hrest
        refine ⟨d :: ds, .digit ((digit?_eq_some_iff hbase).1 hd) h, ?_⟩
        rw [valueOf_cons, List.length_cons]
        ring
      · rintro ⟨ds, h, hn⟩
        cases h with
        | underscore _ => exact absurd rfl hc
        | @digit _ _ d ds hd h =>
          refine ⟨d, (digit?_eq_some_iff hbase).2 hd, ih.2 ⟨ds, h, ?_⟩⟩
          rw [hn, valueOf_cons, List.length_cons]
          ring

/-- There are no digits in underscores alone. -/
theorem Spells.all_underscore_iff (hbase : base ≤ 16) {cs : List Char} {ds : List Nat}
    (h : Spells base cs ds) : cs.all (· = '_') = true ↔ ds = [] := by
  induction h with
  | nil => simp
  | underscore _ ih => simpa using ih
  | @digit c _ d _ hc _ _ =>
    have hne : c ≠ '_' := fun h => not_isDigit_underscore hbase d (h ▸ hc)
    simp [hne]

theorem digits_eq_some_iff (hbase : base ≤ 16) {n : Nat} {cs : List Char} :
    digits base cs = some n ↔ ∃ ds, Spells base cs ds ∧ ds ≠ [] ∧ n = valueOf base ds := by
  unfold digits
  rw [Option.ite_none_left_eq_some, digitsFrom_eq_some_iff hbase]
  simp only [Nat.zero_mul, Nat.zero_add]
  constructor
  · rintro ⟨hall, ds, h, hn⟩
    exact ⟨ds, h, fun hds => hall ((h.all_underscore_iff hbase).2 hds), hn⟩
  · rintro ⟨ds, h, hds, hn⟩
    exact ⟨fun hall => hds ((h.all_underscore_iff hbase).1 hall), ds, h, hn⟩

/-! ## Magnitudes and signs -/

theorem base_le_of_mem_marks {mark : Char} (h : (mark, base) ∈ marks) : base ≤ 16 := by
  have hmarks : ∀ m ∈ marks, m.2 ≤ 16 := by decide
  exact hmarks _ h

/-- A letter that marks a base is no decimal digit. -/
theorem not_spells_mark {mark : Char} (h : (mark, base) ∈ marks) (cs : List Char) (ds : List Nat) :
    ¬ Spells 10 (mark :: cs) ds := by
  have hmarks : ∀ m ∈ marks, m.1 ≠ '_' ∧ digit? 10 m.1 = none := by decide
  obtain ⟨hne, hnone⟩ := hmarks _ h
  intro hspells
  cases hspells with
  | underscore _ => exact hne rfl
  | digit hd _ =>
    rw [(digit?_eq_some_iff (by decide)).2 hd] at hnone
    exact nomatch hnone

theorem magnitude_marked {mark : Char} (h : (mark, base) ∈ marks) (cs : List Char) :
    magnitude ('0' :: mark :: cs) = digits base cs := by
  simp only [marks, List.mem_cons, Prod.mk.injEq, List.not_mem_nil, or_false] at h
  obtain ⟨rfl, rfl⟩ | ⟨rfl, rfl⟩ | ⟨rfl, rfl⟩ | ⟨rfl, rfl⟩ := h <;> rfl

theorem magnitude_unmarked {c : Char} {cs : List Char}
    (h : ∀ mark base rest, (mark, base) ∈ marks → c :: cs ≠ '0' :: mark :: rest) :
    magnitude (c :: cs) = if c = '_' then none else digits 10 (c :: cs) := by
  cases cs with
  | nil => exact magnitude_singleton c
  | cons d cs =>
    have hx : ¬ (c = '0' ∧ (d = 'x' ∨ d = 'X')) := by
      rintro ⟨rfl, rfl | rfl⟩
      · exact h 'x' 16 cs (by decide) rfl
      · exact h 'X' 16 cs (by decide) rfl
    have hb : ¬ (c = '0' ∧ (d = 'b' ∨ d = 'B')) := by
      rintro ⟨rfl, rfl | rfl⟩
      · exact h 'b' 2 cs (by decide) rfl
      · exact h 'B' 2 cs (by decide) rfl
    rw [magnitude_cons_cons, if_neg hx, if_neg hb]

/-- A decimal magnitude does not begin with an underscore. -/
theorem digits_ten_eq_some_iff {c : Char} {cs : List Char} {n : Nat} (hc : c ≠ '_') :
    digits 10 (c :: cs) = some n ↔
      ∃ d ds, IsDigit 10 d c ∧ Spells 10 cs ds ∧ n = valueOf 10 (d :: ds) := by
  rw [digits_eq_some_iff (by decide)]
  constructor
  · rintro ⟨ds, h, -, hn⟩
    cases h with
    | underscore _ => exact absurd rfl hc
    | digit hd h => exact ⟨_, _, hd, h, hn⟩
  · rintro ⟨d, ds, hd, h, hn⟩
    exact ⟨d :: ds, .digit hd h, List.cons_ne_nil d ds, hn⟩

theorem magnitude_eq_some_iff {cs : List Char} {n : Nat} :
    magnitude cs = some n ↔ IsMagnitude cs n := by
  by_cases hmarked : ∃ mark base rest, (mark, base) ∈ marks ∧ cs = '0' :: mark :: rest
  · obtain ⟨mark, base, rest, hmark, rfl⟩ := hmarked
    rw [magnitude_marked hmark, digits_eq_some_iff (base_le_of_mem_marks hmark)]
    constructor
    · rintro ⟨ds, h, hds, rfl⟩
      exact .marked hmark h hds
    · intro h
      cases h with
      | decimal _ h => exact absurd h (not_spells_mark hmark _ _)
      | @marked _ base' _ ds hmark' h hds =>
        -- A letter marks one base only.
        have hbase : base' = base := by
          have hone : ∀ m ∈ marks, ∀ m' ∈ marks, m.1 = m'.1 → m.2 = m'.2 := by decide
          exact hone _ hmark' _ hmark rfl
        subst hbase
        exact ⟨ds, h, hds, rfl⟩
  · have hunmarked : ∀ mark base rest, (mark, base) ∈ marks → cs ≠ '0' :: mark :: rest :=
      fun mark base rest hmark hcs => hmarked ⟨mark, base, rest, hmark, hcs⟩
    cases cs with
    | nil =>
      constructor
      · intro h
        cases h
      · intro h
        cases h
    | cons c cs =>
      rw [magnitude_unmarked hunmarked]
      split
      · rename_i hc
        subst hc
        constructor
        · intro h
          cases h
        · intro h
          cases h with
          | decimal hd _ => exact absurd hd (not_isDigit_underscore (by decide) _)
      · rename_i hc
        rw [digits_ten_eq_some_iff hc]
        constructor
        · rintro ⟨d, ds, hd, h, rfl⟩
          exact .decimal hd h
        · intro h
          cases h with
          | decimal hd h => exact ⟨_, _, hd, h, rfl⟩
          | marked hmark _ _ => exact absurd rfl (hunmarked _ _ _ hmark)

/-- A sign is no digit. -/
theorem not_isMagnitude_sign {c : Char} (hc : c = '-' ∨ c = '+') (cs : List Char) (n : Nat) :
    ¬ IsMagnitude (c :: cs) n := by
  intro h
  cases h with
  | @decimal _ _ d _ hd _ =>
    have hsome := (digit?_eq_some_iff (by decide)).2 hd
    obtain rfl | rfl := hc <;> exact nomatch hsome
  | marked _ _ _ => obtain h | h := hc <;> exact nomatch h

theorem IsMagnitude.unique {cs : List Char} {m n : Nat} (hm : IsMagnitude cs m)
    (hn : IsMagnitude cs n) : m = n :=
  Option.some.inj ((magnitude_eq_some_iff.2 hm).symm.trans (magnitude_eq_some_iff.2 hn))

/-- The grammar has one reading of a numeral. -/
theorem Denotes.unique {cs : List Char} {v w : Int} (hv : Denotes cs v) (hw : Denotes cs w) :
    v = w := by
  cases hv with
  | unsigned h =>
    cases hw with
    | unsigned h' => rw [h.unique h']
    | plus _ => exact absurd h (not_isMagnitude_sign (.inr rfl) _ _)
    | minus _ => exact absurd h (not_isMagnitude_sign (.inl rfl) _ _)
  | plus h =>
    cases hw with
    | unsigned h' => exact absurd h' (not_isMagnitude_sign (.inr rfl) _ _)
    | plus h' => rw [h.unique h']
  | minus h =>
    cases hw with
    | unsigned h' => exact absurd h' (not_isMagnitude_sign (.inl rfl) _ _)
    | minus h' => rw [h.unique h']

theorem cellOfInt?_eq_some_iff {v : Int} {n : Cell} : cellOfInt? v = some n ↔ v = n.toInt := by
  have hleast : Int64.minValue.toInt = -2 ^ 63 := Int64.toInt_minValue
  have hgreatest : Int64.maxValue.toInt = 2 ^ 63 - 1 := Int64.toInt_maxValue
  unfold cellOfInt?
  rw [Option.ite_none_right_eq_some, Option.some.injEq]
  constructor
  · rintro ⟨⟨hlow, hhigh⟩, rfl⟩
    exact (Int64.toInt_ofInt_of_le (by omega) (by omega)).symm
  · rintro rfl
    have hlow := Int64.le_toInt n
    have hhigh := Int64.toInt_lt n
    exact ⟨⟨by omega, by omega⟩, Int64.ofInt_toInt n⟩

theorem parseChars_eq_some_iff {cs : List Char} {n : Cell} :
    parseChars cs = some n ↔ Denotes cs n.toInt := by
  have hread (cs : List Char) (sign : Nat → Int) :
      ((magnitude cs).bind fun k => cellOfInt? (sign k)) = some n ↔
        ∃ k, IsMagnitude cs k ∧ sign k = n.toInt := by
    simp only [Option.bind_eq_some_iff, magnitude_eq_some_iff, cellOfInt?_eq_some_iff]
  -- The first character decides which rule of the grammar may apply, and a sign is no magnitude.
  cases cs with
  | nil =>
    constructor
    · intro h
      cases h
    · intro h
      generalize n.toInt = v at h
      cases h with
      | unsigned h => cases h
  | cons c cs =>
    rw [parseChars_cons]
    split
    · rename_i hc
      subst hc
      rw [hread]
      constructor
      · rintro ⟨k, h, hk⟩
        exact hk ▸ .minus h
      · intro h
        generalize n.toInt = v at h
        cases h with
        | unsigned h => exact absurd h (not_isMagnitude_sign (.inl rfl) _ _)
        | minus h => exact ⟨_, h, rfl⟩
    split
    · rename_i hc
      subst hc
      rw [hread]
      constructor
      · rintro ⟨k, h, hk⟩
        exact hk ▸ .plus h
      · intro h
        generalize n.toInt = v at h
        cases h with
        | unsigned h => exact absurd h (not_isMagnitude_sign (.inr rfl) _ _)
        | plus h => exact ⟨_, h, rfl⟩
    · rename_i hminus hplus
      rw [hread]
      constructor
      · rintro ⟨k, h, hk⟩
        exact hk ▸ .unsigned h
      · intro h
        generalize n.toInt = v at h
        cases h with
        | unsigned h => exact ⟨_, h, rfl⟩
        | plus _ => exact absurd rfl hplus
        | minus _ => exact absurd rfl hminus

/-- **Numerals are read exactly.**  A text is a numeral for one integer at most, and it is read as a
cell exactly if it is one for the integer of that cell.  So it is read as none exactly if it is no
numeral, or one for an integer that is out of the range of cells. -/
theorem numerals_are_exact (text : String) :
    (∀ v w, Denotes text.toList v → Denotes text.toList w → v = w) ∧
    (∀ n : Cell, parse? text = some n ↔ Denotes text.toList n.toInt) ∧
    (parse? text = none ↔ ∀ v, Denotes text.toList v → v < -2 ^ 63 ∨ 2 ^ 63 - 1 < v) := by
  refine ⟨fun v w => Denotes.unique, fun n => parseChars_eq_some_iff, fun hnone v hv => ?_,
    fun hrange => ?_⟩
  · by_contra hin
    have hcell : (Int64.ofInt v).toInt = v := Int64.toInt_ofInt_of_le (by omega) (by omega)
    have hsome := parseChars_eq_some_iff.2 (hcell.symm ▸ hv)
    exact nomatch hnone.symm.trans hsome
  · refine Option.eq_none_iff_forall_ne_some.2 fun n hn => ?_
    have hlow := Int64.le_toInt n
    have hhigh := Int64.toInt_lt n
    have hout := hrange n.toInt (parseChars_eq_some_iff.1 hn)
    omega

/-- The least cell needs its sign. -/
example : parse? "-0x8000_0000_0000_0000" = some Int64.minValue ∧
    parse? "0x8000_0000_0000_0000" = none := by
  decide

end Forth.Numeral
