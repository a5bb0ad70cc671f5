import Forth.Proofs.Variables
import Mathlib.Algebra.Ring.Nat
import Mathlib.Data.List.Induction
import Mathlib.Data.List.Nodup

/-!
# The history of a memory

A memory is an account of what it was asked.  This file puts the operations of a memory in a row,
each with what it told, and reads the answers off the ones before them
(`memory_answers_from_its_history`): the address of a new variable is the number of cells handed
out so far, counted from 1000, so that no cell is handed out twice; a name finds the variable that
was added last under it; a cell holds what was stored in it last.

The three parts of a memory change independently, and so there is one invariant for each: the free
pointer stands at the number of cells handed out, as long as that is an address (`toNat_free`), the
names find the latest variable (`addressOf?_eq_some_iff`), and the cells hold the latest value
(`get_eq_iff`).  A variable that is added while only the last address is free would break the first
of them, since the pointer would start again at zero; no history has one.
-/

namespace Forth.Memory

/-! ## Histories -/

/-- An operation of a memory, with what it told. -/
inductive Access
  | added (name : String) (a : Address)
  | found (name : String) (a? : Option Address)
  | read (a : Address) (value : Cell)
  | stored (a : Address) (value : Cell)
  | allotted (n : Address)

/-- The access leads from the first memory to the second one.  Variables are added while more than
the last address is free. -/
inductive Performs (m : Memory) : Access → Memory → Prop
  | addVariable (name : String) (hroom : m.free ≠ -1) :
      Performs m (.added name (m.addVariable name).1) (m.addVariable name).2
  | addressOf? (name : String) : Performs m (.found name (m.addressOf? name)) m
  | get (a : Address) : Performs m (.read a (m.get a)) m
  | set (a : Address) (value : Cell) : Performs m (.stored a value) (m.set a value)
  | allot (n : Address) : Performs m (.allotted n) (m.allot n)

/-- A new memory comes to this one by the accesses of `past`, the oldest first. -/
inductive History : List Access → Memory → Prop
  | start : History [] empty
  | next {past : List Access} {m m' : Memory} {e : Access} (h : History past m)
      (he : m.Performs e m') : History (past ++ [e]) m'

/-- What happened before has a history of its own, and so has each access in the middle. -/
theorem History.cut {before after : List Access} {m : Memory} (h : History (before ++ after) m) :
    ∃ m₁, History before m₁ := by
  induction after using List.reverseRecOn generalizing m with
  | nil => exact ⟨m, by simpa using h⟩
  | append_singleton after e ih =>
    generalize hpast : before ++ (after ++ [e]) = past at h
    cases h with
    | start => simp at hpast
    | next h he =>
      rw [← List.append_assoc] at hpast
      obtain ⟨rfl, -⟩ := List.append_inj' hpast rfl
      exact ih h

theorem History.access {before after : List Access} {e : Access} {m : Memory}
    (h : History (before ++ e :: after) m) :
    ∃ m₁ m₂, History before m₁ ∧ m₁.Performs e m₂ := by
  rw [List.append_cons] at h
  obtain ⟨m₂, h₂⟩ := h.cut
  generalize hpast : before ++ [e] = past at h₂
  cases h₂ with
  | start => simp at hpast
  | next h₁ he =>
    obtain ⟨rfl, hlast⟩ := List.append_inj' hpast rfl
    cases hlast
    exact ⟨_, _, h₁, he⟩

/-! ## What a history has handed out -/

/-- The variable that is added, with its address. -/
def Access.entry? : Access → Option (String × Address)
  | added name a => some (name, a)
  | _ => none

/-- The number of cells that are skipped. -/
def Access.skips : Access → Nat
  | allotted n => n.toNat
  | _ => 0

/-- The variables with their addresses, the oldest first. -/
def newVariables (past : List Access) : List (String × Address) :=
  past.filterMap Access.entry?

/-- The first address that is not handed out, if there are that many: one cell belongs to each
variable, and the cells that were skipped belong to whoever skipped them. -/
def frontier (past : List Access) : Nat :=
  1000 + (newVariables past).length + (past.map Access.skips).sum

/-- How far an access moves the frontier. -/
def Access.cells (e : Access) : Nat :=
  e.entry?.toList.length + e.skips

theorem newVariables_append (past more : List Access) :
    newVariables (past ++ more) = newVariables past ++ newVariables more :=
  List.filterMap_append

theorem newVariables_singleton (e : Access) : newVariables [e] = e.entry?.toList := by
  cases h : e.entry? <;> simp [newVariables, h]

theorem frontier_append (past more : List Access) :
    frontier (past ++ more) =
      frontier past + (newVariables more).length + (more.map Access.skips).sum := by
  simp only [frontier, newVariables_append, List.map_append, List.length_append, List.sum_append]
  omega

theorem frontier_snoc (past : List Access) (e : Access) :
    frontier (past ++ [e]) = frontier past + e.cells := by
  simp only [frontier_append, newVariables_singleton, Access.cells, List.map_cons, List.map_nil,
    List.sum_cons, List.sum_nil]
  omega

theorem frontier_le_append (past more : List Access) :
    frontier past ≤ frontier (past ++ more) := by
  rw [frontier_append]
  omega

theorem toNat_ne_last {a : Address} (h : a ≠ -1) : a.toNat ≠ 2 ^ 64 - 1 :=
  fun hnat => h (UInt64.toNat_inj.1 hnat)

/-- The free pointer after skipping cells stops at the last address. -/
theorem toNat_free_allot (m : Memory) (n : Address) :
    (m.allot n).free.toNat = min (m.free.toNat + n.toNat) (2 ^ 64 - 1) := by
  have hm := m.free.toNat_lt
  have hn := n.toNat_lt
  have hsum : (m.free + n).toNat = (m.free.toNat + n.toNat) % 2 ^ 64 := UInt64.toNat_add _ _
  have hlast : (-1 : Address).toNat = 2 ^ 64 - 1 := rfl
  simp only [allot, UInt64.lt_iff_toNat_lt]
  split <;> omega

/-- The free pointer stands at the frontier, and at the last address once the frontier is beyond
that. -/
theorem toNat_free {past : List Access} {m : Memory} (h : History past m) :
    m.free.toNat = min (frontier past) (2 ^ 64 - 1) := by
  induction h with
  | start => rfl
  | @next past m m' e h he ih =>
    rw [frontier_snoc]
    cases he with
    | addVariable name hroom =>
      have hlast := toNat_ne_last hroom
      have hfree : (m.addVariable name).2.free.toNat = m.free.toNat + 1 := toNat_succ hroom
      have hcells : (Access.added name (m.addVariable name).1).cells = 1 := rfl
      omega
    | allot n =>
      have hfree := toNat_free_allot m n
      have hcells : (Access.allotted n).cells = n.toNat := Nat.zero_add _
      omega
    | addressOf? _ => exact ih
    | get _ => exact ih
    | set _ _ => exact ih

/-- A variable gets the first cell that is not handed out. -/
theorem History.toNat_added {before after : List Access} {name : String} {a : Address}
    {m : Memory} (h : History (before ++ .added name a :: after) m) :
    a.toNat = frontier before := by
  obtain ⟨m₁, m₂, h₁, he⟩ := h.access
  cases he with
  | addVariable _ hroom =>
    have hfree := toNat_free h₁
    have hlast := toNat_ne_last hroom
    have ha : (m₁.addVariable name).1 = m₁.free := rfl
    rw [ha]
    omega

/-- All variables lie before the frontier. -/
theorem History.toNat_lt_frontier {past : List Access} {m : Memory} (h : History past m)
    {v : String × Address} (hv : v ∈ newVariables past) : v.2.toNat < frontier past := by
  obtain ⟨e, he, hve⟩ := List.mem_filterMap.1 hv
  obtain ⟨before, after, rfl⟩ := List.append_of_mem he
  cases e with
  | added name a =>
    cases hve
    have hcell : (Access.added name a).cells = 1 := rfl
    calc a.toNat = frontier before := h.toNat_added
      _ < frontier (before ++ [.added name a]) := by
        rw [frontier_snoc]
        omega
      _ ≤ frontier (before ++ [.added name a] ++ after) := frontier_le_append _ _
      _ = frontier (before ++ .added name a :: after) := by
        rw [List.append_assoc, List.singleton_append]
  | _ => cases hve

theorem History.pairwise_variables {past : List Access} {m : Memory} (h : History past m) :
    ((newVariables past).map Prod.snd).Pairwise (· < ·) := by
  induction h with
  | start => exact .nil
  | @next past m m' e h he ih =>
    rw [newVariables_append, newVariables_singleton, List.map_append, List.pairwise_append]
    refine ⟨ih, ?_, ?_⟩
    · cases e.entry? <;> simp
    · intro a ha b hb
      obtain ⟨v, hv, rfl⟩ := List.mem_map.1 ha
      cases e with
      | added name c =>
        obtain rfl : b = c := by simpa [Access.entry?] using hb
        rw [UInt64.lt_iff_toNat_lt, (h.next he).toNat_added]
        exact h.toNat_lt_frontier hv
      | _ => simp [Access.entry?] at hb

/-! ## The latest access of a kind -/

/-- Of the wanted accesses, `e` is the last one. -/
def Latest (wanted : Access → Prop) (past : List Access) (e : Access) : Prop :=
  wanted e ∧ ∃ earlier later, past = earlier ++ e :: later ∧ ∀ f ∈ later, ¬ wanted f

/-- A store at this address. -/
def Access.StoresAt (a : Address) : Access → Prop
  | stored b _ => b = a
  | _ => False

/-- A new variable of this name, in whatever letter case. -/
def Access.AddsNamed (name : String) : Access → Prop
  | added other _ => Text.lowerCase other = Text.lowerCase name
  | _ => False

section

variable {wanted : Access → Prop} {past : List Access} {e f : Access}

theorem not_latest_nil : ¬ Latest wanted [] e := by
  rintro ⟨-, earlier, later, hpast, -⟩
  simp at hpast

theorem latest_snoc_of_wanted (hf : wanted f) : Latest wanted (past ++ [f]) e ↔ e = f := by
  constructor
  · rintro ⟨he, earlier, later, hpast, hlater⟩
    cases later using List.reverseRecOn with
    | nil => exact (List.append_inj' hpast rfl).2 |> List.singleton_inj.1 |> Eq.symm
    | append_singleton later g =>
      rw [← List.cons_append, ← List.append_assoc] at hpast
      obtain ⟨-, hlast⟩ := List.append_inj' hpast rfl
      cases hlast
      exact absurd hf (hlater f (by simp))
  · rintro rfl
    exact ⟨hf, past, [], rfl, by simp⟩

theorem latest_snoc_of_not_wanted (hf : ¬ wanted f) :
    Latest wanted (past ++ [f]) e ↔ Latest wanted past e := by
  constructor
  · rintro ⟨he, earlier, later, hpast, hlater⟩
    cases later using List.reverseRecOn with
    | nil =>
      obtain ⟨-, hlast⟩ := List.append_inj' hpast rfl
      cases hlast
      exact absurd he hf
    | append_singleton later g =>
      rw [← List.cons_append, ← List.append_assoc] at hpast
      obtain ⟨hinit, -⟩ := List.append_inj' hpast rfl
      exact ⟨he, earlier, later, hinit, fun x hx => hlater x (List.mem_append_left _ hx)⟩
  · rintro ⟨he, earlier, later, rfl, hlater⟩
    refine ⟨he, earlier, later ++ [f], by simp, fun x hx => ?_⟩
    rcases List.mem_append.1 hx with hx | hx
    · exact hlater x hx
    · rwa [List.mem_singleton.1 hx]

end

/-- A name stands for the variable that was added last under it. -/
theorem addressOf?_eq_some_iff {past : List Access} {m : Memory} (h : History past m)
    (name : String) (a : Address) :
    m.addressOf? name = some a ↔
      ∃ other, Latest (Access.AddsNamed name) past (.added other a) := by
  induction h with
  | start =>
    constructor
    · intro hfound
      simp [addressOf?, empty] at hfound
    · rintro ⟨other, hlatest⟩
      exact absurd hlatest not_latest_nil
  | @next past m m' e h he ih =>
    cases he with
    | addVariable other hroom =>
      rw [addressOf?_addVariable]
      -- The new variable hides the others with its name and no others.
      by_cases hname : Text.lowerCase name = Text.lowerCase other
      · have hwanted : Access.AddsNamed name (.added other (m.addVariable other).1) := hname.symm
        simp only [if_pos hname, latest_snoc_of_wanted hwanted, Access.added.injEq]
        constructor
        · intro hfree
          exact ⟨other, rfl, (Option.some.inj hfree).symm⟩
        · rintro ⟨_, _, rfl⟩
          rfl
      · have hother : ¬ Access.AddsNamed name (.added other (m.addVariable other).1) :=
          fun hwanted => hname hwanted.symm
        simp only [if_neg hname, latest_snoc_of_not_wanted hother, ih]
    -- No other access adds a variable.
    | addressOf? _ | get _ | set _ _ | allot _ =>
      refine Iff.trans ih (exists_congr fun other => Iff.symm ?_)
      apply latest_snoc_of_not_wanted
      exact not_false

/-- What a cell holds: the value that was stored in it last, or zero. -/
def Holds (past : List Access) (a : Address) (value : Cell) : Prop :=
  Latest (Access.StoresAt a) past (.stored a value) ∨
    value = 0 ∧ ∀ e ∈ past, ¬ Access.StoresAt a e

theorem holds_snoc_of_stored (past : List Access) (a : Address) (value stored : Cell) :
    Holds (past ++ [.stored a stored]) a value ↔ stored = value := by
  have hstores : Access.StoresAt a (.stored a stored) := rfl
  unfold Holds
  rw [latest_snoc_of_wanted hstores]
  constructor
  · rintro (heq | ⟨-, hnever⟩)
    · cases heq
      rfl
    · exact absurd hstores (hnever _ (by simp))
  · rintro rfl
    exact .inl rfl

theorem holds_snoc_of_not_stored {past : List Access} {a : Address} {e : Access}
    (he : ¬ Access.StoresAt a e) (value : Cell) :
    Holds (past ++ [e]) a value ↔ Holds past a value := by
  have hnever : (∀ f ∈ past ++ [e], ¬ Access.StoresAt a f) ↔ ∀ f ∈ past, ¬ Access.StoresAt a f := by
    simp only [List.forall_mem_append, List.forall_mem_singleton, he, not_false_eq_true, and_true]
  unfold Holds
  rw [latest_snoc_of_not_wanted he, hnever]

theorem get_eq_iff {past : List Access} {m : Memory} (h : History past m) (a : Address)
    (value : Cell) : m.get a = value ↔ Holds past a value := by
  induction h with
  | start =>
    rw [get_empty]
    constructor
    · rintro rfl
      exact .inr ⟨rfl, by simp⟩
    · rintro (hlatest | ⟨rfl, -⟩)
      · exact absurd hlatest not_latest_nil
      · rfl
  | @next past m m' e h he ih =>
    cases he with
    | set b stored =>
      rw [get_set]
      by_cases hb : b = a
      · subst hb
        rw [if_pos rfl, holds_snoc_of_stored]
      · have hother : ¬ Access.StoresAt a (.stored b stored) := hb
        rw [if_neg hb, holds_snoc_of_not_stored hother, ih]
    | addVariable _ _ | addressOf? _ | get _ | allot _ =>
      refine Iff.trans ih (Iff.symm ?_)
      apply holds_snoc_of_not_stored
      exact not_false

/-! ## The answers -/

theorem History.found_iff {before after : List Access} {name : String} {a? : Option Address}
    {m : Memory} (h : History (before ++ .found name a? :: after) m) (a : Address) :
    a? = some a ↔ ∃ other, Latest (Access.AddsNamed name) before (.added other a) := by
  obtain ⟨m₁, m₂, h₁, he⟩ := h.access
  cases he with
  | addressOf? _ => exact addressOf?_eq_some_iff h₁ name a

theorem History.holds_read {before after : List Access} {a : Address} {value : Cell} {m : Memory}
    (h : History (before ++ .read a value :: after) m) : Holds before a value := by
  obtain ⟨m₁, m₂, h₁, he⟩ := h.access
  cases he with
  | get _ => exact (get_eq_iff h₁ a _).1 rfl

/-- Two variables at one address are one variable. -/
theorem History.eq_of_address_eq {past : List Access} {m : Memory} (h : History past m)
    {v w : String × Address} (hv : v ∈ newVariables past) (hw : w ∈ newVariables past)
    (ha : v.2 = w.2) : v = w := by
  have hdistinct : ((newVariables past).map Prod.snd).Nodup :=
    h.pairwise_variables.imp fun hlt => UInt64.ne_of_lt hlt
  exact List.inj_on_of_nodup_map hdistinct hv hw ha

/-- A name finds a variable that was added under it. -/
theorem History.exists_of_found {past : List Access} {m : Memory} (h : History past m)
    {name : String} {a : Address} (hfound : .found name (some a) ∈ past) :
    ∃ v ∈ newVariables past, Text.lowerCase v.1 = Text.lowerCase name ∧ v.2 = a := by
  obtain ⟨before, after, rfl⟩ := List.append_of_mem hfound
  obtain ⟨other, hname, earlier, later, rfl, -⟩ := (h.found_iff a).1 rfl
  exact ⟨(other, a), List.mem_filterMap.2 ⟨.added other a, by simp, rfl⟩, hname, rfl⟩

/-- A memory hands out its cells in order, from 1000 on and each one once, and answers for each name
with the variable that was added last and for each cell with the value that was stored last. -/
theorem memory_answers_from_its_history {past : List Access} {m : Memory} (h : History past m) :
    ((newVariables past).map Prod.snd).Pairwise (· < ·) ∧
    (∀ before name a after, past = before ++ .added name a :: after →
      1000 ≤ a.toNat ∧
      a.toNat = 1000 + (newVariables before).length + (before.map Access.skips).sum) ∧
    (∀ before e between name a after, past = before ++ e :: between ++ .added name a :: after →
      ∀ c, frontier before ≤ c → c < frontier before + e.cells → c ≠ a.toNat) ∧
    (∀ before name a? after, past = before ++ .found name a? :: after →
      ∀ a, a? = some a ↔ ∃ other, Latest (Access.AddsNamed name) before (.added other a)) ∧
    (∀ v ∈ newVariables past, ∀ w ∈ newVariables past,
      Text.lowerCase v.1 ≠ Text.lowerCase w.1 → v.2 ≠ w.2) ∧
    (∀ name other a, .found name (some a) ∈ past → .found other (some a) ∈ past →
      Text.lowerCase name = Text.lowerCase other) ∧
    ∀ before a value after, past = before ++ .read a value :: after →
      Latest (Access.StoresAt a) before (.stored a value) ∨
        value = 0 ∧ ∀ e ∈ before, ¬ Access.StoresAt a e := by
  refine ⟨h.pairwise_variables, ?_, ?_, ?_, ?_, ?_, ?_⟩
  · rintro before name a after rfl
    have ha := h.toNat_added
    unfold frontier at ha
    omega
  · rintro before e between name a after rfl c - hc
    -- What was taken in between starts where the cells of `e` end.
    have hfrontier := frontier_le_append (before ++ [e]) between
    rw [frontier_snoc, ← List.append_cons, ← h.toNat_added] at hfrontier
    omega
  · rintro before name a? after rfl a
    exact h.found_iff a
  · intro v hv w hw hname ha
    exact hname (by rw [h.eq_of_address_eq hv hw ha])
  · intro name other a hname hother
    obtain ⟨v, hv, hvname, hva⟩ := h.exists_of_found hname
    obtain ⟨w, hw, hwname, hwa⟩ := h.exists_of_found hother
    rw [← hvname, ← hwname, h.eq_of_address_eq hv hw (hva.trans hwa.symm)]
  · rintro before a value after rfl
    exact h.holds_read

/-- A variable under an old name in another letter case, behind ten cells that are skipped, and then
so many cells that the free pointer stops at the last address. -/
def redefinition : List Access :=
  [.added "Foo" 1000, .allotted 10, .added "foo" 1011, .stored 1000 42, .stored 5 7,
    .found "FOO" (some 1011), .allotted (-1), .read 1000 42, .read 1011 0]

theorem history_redefinition : ∃ m, History redefinition m :=
  have h := History.start.next (.addVariable "Foo" (by decide)) |>.next (.allot 10)
    |>.next (.addVariable "foo" (by decide)) |>.next (.set 1000 42) |>.next (.set 5 7)
    |>.next (.addressOf? "FOO") |>.next (.allot (-1)) |>.next (.get 1000) |>.next (.get 1011)
  ⟨_, h⟩

theorem memory_answers_from_its_history_redefinition :
    (∃ m, History redefinition m) ∧ [(1000 : Address), 1011].Pairwise (· < ·) ∧
      (1011 : Address).toNat = 1000 + 1 + 10 ∧
      (∃ other, Latest (Access.AddsNamed "FOO") (redefinition.take 5) (.added other 1011)) ∧
      (Latest (Access.StoresAt 1000) (redefinition.take 7) (.stored 1000 42) ∨
        (42 : Cell) = 0 ∧ ∀ e ∈ redefinition.take 7, ¬ Access.StoresAt 1000 e) := by
  obtain ⟨m, h⟩ := history_redefinition
  obtain ⟨hup, hat, -, hfound, -, -, hread⟩ := memory_answers_from_its_history h
  exact ⟨⟨m, h⟩, hup, (hat (redefinition.take 2) "foo" 1011 _ rfl).2,
    (hfound (redefinition.take 5) "FOO" _ _ rfl 1011).1 rfl,
    hread (redefinition.take 7) 1000 42 _ rfl⟩

end Forth.Memory
