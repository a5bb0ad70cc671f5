import Forth.Proofs.HostInvariants

/-!
# Variables and their cells

The word of a variable pushes the address of its cell, and `!` and `@` take that address off the
stack again.  On the way the address is a cell, which is signed, so it survives only below 2⁶³: the
words reach the cell of a variable exactly if its address is that small
(`words_reach_low_cells`).  Nothing keeps addresses small, since the cells that are handed out
may be skipped in any number, and so there are variables out of reach (`variable_out_of_reach`).

Variables do not share cells.  Addresses are handed out upwards, so all variables lie below the free
pointer (`Memory.Ordered`), unless one of them got the last address there is, behind which the free
pointer starts again at zero.  For this, memory must not change but by the operations that it offers
(`Memory.Grows`), which holds of all that the language does (`Session.grows_of_tick`).
-/

namespace Forth

/-! ## Addresses on the stack -/

namespace Cell

/-- The first address that no cell stands for, which is 2⁶³. -/
def addressLimit : Nat := 0x8000000000000000

/-- The cell with the bits of an address is negative if the address has the topmost bit. -/
theorem ofAddress_lt_zero_iff (a : Address) : ofAddress a < 0 ↔ addressLimit ≤ a.toNat := by
  have hsigned : (ofAddress a).toInt = a.toBitVec.toInt := rfl
  have hbits : a.toBitVec.toNat = a.toNat := rfl
  rw [Int64.lt_iff_toInt_lt, hsigned, Int64.toInt_zero, BitVec.toInt_neg_iff, hbits]
  unfold addressLimit
  omega

/-- An address comes back from the stack as long as it does not have the topmost bit. -/
theorem toAddress?_ofAddress (a : Address) :
    (ofAddress a).toAddress? = if a.toNat < addressLimit then some a else none := by
  unfold toAddress?
  by_cases ha : a.toNat < addressLimit
  · have hsign : ¬ ofAddress a < 0 := by
      rw [ofAddress_lt_zero_iff]
      omega
    rw [if_neg hsign, if_pos ha, ofAddress, UInt64.toUInt64_toInt64]
  · have hsign : ofAddress a < 0 := (ofAddress_lt_zero_iff a).2 (by omega)
    rw [if_pos hsign, if_neg ha]

end Cell

/-! ## What happens to a memory -/

namespace Memory

/-- The second memory comes from the first one by what a memory offers. -/
inductive Grows (m : Memory) : Memory → Prop
  | refl : Grows m m
  | set {m' : Memory} (h : Grows m m') (a : Address) (value : Cell) : Grows m (m'.set a value)
  | addVariable {m' : Memory} (h : Grows m m') (name : String) : Grows m (m'.addVariable name).2
  | allot {m' : Memory} (h : Grows m m') (n : Address) : Grows m (m'.allot n)

theorem Grows.trans {m₁ m₂ m₃ : Memory} (h : m₁.Grows m₂) (h' : m₂.Grows m₃) : m₁.Grows m₃ := by
  induction h' with
  | refl => exact h
  | set _ a value ih => exact ih.set a value
  | addVariable _ name ih => exact ih.addVariable name
  | allot _ n ih => exact ih.allot n

/-- All variables lie below the free pointer, unless one of them lies at the last address: then the
free pointer has started again. -/
def Ordered (m : Memory) : Prop :=
  (∃ v ∈ m.named, v.2 = -1) ∨ ∀ v ∈ m.named, v.2.toNat < m.free.toNat

theorem ordered_empty : empty.Ordered :=
  .inr fun _ hv => by simp [empty] at hv

theorem toNat_succ {a : Address} (h : a ≠ -1) : (a + 1).toNat = a.toNat + 1 := by
  have hlast : a.toNat ≠ 2 ^ 64 - 1 := fun hnat => h (UInt64.toNat_inj.1 hnat)
  have hbound := a.toNat_lt
  rw [UInt64.toNat_add]
  simp only [UInt64.reduceToNat]
  omega

theorem Ordered.addVariable {m : Memory} (h : m.Ordered) (name : String) :
    (m.addVariable name).2.Ordered := by
  rcases h with ⟨v, hv, hlast⟩ | hbelow
  · exact .inl ⟨v, .tail _ hv, hlast⟩
  · by_cases hlast : m.free = -1
    · exact .inl ⟨_, .head _, hlast⟩
    · refine .inr fun v hv => ?_
      change v.2.toNat < (m.free + 1).toNat
      rw [toNat_succ hlast]
      rcases List.mem_cons.1 hv with rfl | hold
      · exact Nat.lt_succ_self _
      · exact Nat.lt_succ_of_lt (hbelow v hold)

/-- The free pointer goes up when cells are skipped, or stays where it is. -/
theorem free_le_allot (m : Memory) (n : Address) : m.free.toNat ≤ (m.allot n).free.toNat := by
  have hbound := m.free.toNat_lt
  unfold allot
  by_cases hwrap : m.free + n < m.free
  · simp only [if_pos hwrap]
    have hlast : (-1 : Address).toNat = 2 ^ 64 - 1 := rfl
    omega
  · simp only [if_neg hwrap]
    exact UInt64.le_iff_toNat_le.1 (UInt64.not_lt.1 hwrap)

theorem Ordered.allot {m : Memory} (h : m.Ordered) (n : Address) : (m.allot n).Ordered :=
  h.imp_right fun hbelow v hv => Nat.lt_of_lt_of_le (hbelow v hv) (m.free_le_allot n)

theorem Ordered.grows {m m' : Memory} (hm : m.Ordered) (h : m.Grows m') : m'.Ordered := by
  induction h with
  | refl => exact hm
  | set _ a value ih => exact ih
  | addVariable _ name ih => exact ih.addVariable name
  | allot _ n ih => exact ih.allot n

/-- A new variable gets a cell that belongs to no variable yet. -/
theorem Ordered.ne_free {m : Memory} (hm : m.Ordered) (hlast : ∀ v ∈ m.named, v.2 ≠ -1)
    {v : String × Address} (hv : v ∈ m.named) : v.2 ≠ m.free := by
  intro hfree
  rcases hm with ⟨w, hw, hw'⟩ | hbelow
  · exact hlast w hw hw'
  · have hless := hbelow v hv
    rw [hfree] at hless
    exact Nat.lt_irrefl _ hless

end Memory

/-! ## Actions that let the memory grow -/

/-- The action changes the memory by what the memory offers, if at all. -/
def Exec.GrowsMemory {α : Type} (action : Exec α) : Prop :=
  ∀ m : Machine, m.memory.Grows (finalState (action.run m)).memory

/-- The word changes the memory by what the memory offers, if at all. -/
def Primitive.GrowsMemory (p : Primitive) : Prop :=
  p.run.GrowsMemory

/-- The machine differs from that of the session in its memory by what a memory offers. -/
def Session.GrowsMemory (s : Session) (m : Machine) : Prop :=
  s.machine.memory.Grows m.memory

namespace Exec.GrowsMemory

variable {α β : Type}

theorem pure (x : α) : (Pure.pure x : Exec α).GrowsMemory :=
  fun _ => .refl

theorem throw (e : Error) : (MonadExcept.throw e : Exec α).GrowsMemory :=
  fun _ => .refl

theorem get : (MonadState.get : Exec Machine).GrowsMemory :=
  fun _ => .refl

theorem modified {f : Machine → Machine} (h : ∀ m : Machine, m.memory.Grows (f m).memory) :
    (modify f : Exec PUnit).GrowsMemory :=
  h

theorem bind {action : Exec α} {next : α → Exec β} (h : action.GrowsMemory)
    (hnext : ∀ x, (next x).GrowsMemory) : (action >>= next).GrowsMemory := by
  intro m
  have hfirst := h m
  rw [EStateM.run_bind]
  cases hrun : action.run m with
  | ok x m' =>
    rw [hrun] at hfirst
    exact hfirst.trans (hnext x m')
  | error e m' =>
    rw [hrun] at hfirst
    exact hfirst

theorem popData : Exec.popData.GrowsMemory := by
  refine bind get fun m => ?_
  cases m.data with
  | nil => exact throw _
  | cons n rest => exact bind (modified fun _ => .refl) fun _ => pure n

theorem popReturn : Exec.popReturn.GrowsMemory := by
  refine bind get fun m => ?_
  cases m.returns with
  | nil => exact throw _
  | cons n rest => exact bind (modified fun _ => .refl) fun _ => pure n

theorem peekReturn (n : Nat) : (Exec.peekReturn n).GrowsMemory := by
  refine bind get fun m => ?_
  cases m.returns.peek? n with
  | none => exact throw _
  | some i => exact pure i

/-- Of the pieces that words are put together from, two change the memory: one stores, and one skips
cells. -/
theorem compositional : CompositionalOnReturns fun action => action.GrowsMemory where
  pure := pure
  bind := bind
  divisionByZero := throw _
  invalidAddress := throw _
  pushData _ := modified fun _ => .refl
  popData := popData
  peekReturn := peekReturn
  print _ := modified fun _ => .refl
  drawRandom _ := .refl
  fetch _ := bind get fun _ => modified fun _ => .refl
  store a n := modified fun _ => .set .refl a n
  allot n := modified fun _ => .allot .refl n
  pushReturn _ := modified fun _ => .refl
  popReturn := popReturn

end Exec.GrowsMemory

namespace Primitive

open Exec.GrowsMemory

/-- The words of the language let the memory grow. -/
theorem growsMemory_of_language (p : Primitive) (hp : p.Allowed fun _ => False) :
    p.GrowsMemory := by
  have hprint (text : String) : (Exec.print text).GrowsMemory := compositional.print text
  refine p.run_of_compositional compositional.toCompositional (fun _ => compositional)
    (fun _ _ => modified fun _ => .refl)
    (fun _ => bind (hprint _) fun _ => bind get fun _ => hprint _) fun action h => ?_
  subst h
  exact hp.elim

end Primitive

/-! ## Frames and steps -/

theorem Operation.UsesOnly.perform_growsMemory {operation : Operation}
    (h : operation.UsesOnly Primitive.GrowsMemory) : operation.perform.GrowsMemory :=
  Operation.perform_of_compositional Exec.GrowsMemory.compositional.toCompositional
    fun _ _ hinvoke => (hinvoke ▸ h).word

theorem Frame.UsesOnly.step_growsMemory {f : Frame} (h : f.UsesOnly Primitive.GrowsMemory)
    (below : List Frame) : (f.step below).GrowsMemory := by
  refine Frame.step_of_compositional Exec.GrowsMemory.compositional below fun name p rest hf => ?_
  subst hf
  exact (h _ (.head _)).operation.word

namespace Session

variable {s t : Session}

theorem Dispatched.growsMemory {a : Action} {r : EStateM.Result Error Session Unit}
    (ha : a.UsesOnly Primitive.GrowsMemory) (h : Dispatched s a r) :
    s.machine.memory.Grows (finalState r).machine.memory := by
  cases h with
  | performed _ hrun | failed _ hrun =>
    have hgrows := Operation.UsesOnly.perform_growsMemory ha s.machine
    rwa [hrun] at hgrows
  | «variable» _ _ => exact .addVariable .refl _
  | _ => exact .refl

theorem Advanced.growsMemory {r : EStateM.Result Error Session Bool}
    (hs : s.UsesOnly Primitive.GrowsMemory) (h : Advanced s r) :
    s.machine.memory.Grows (finalState r).machine.memory := by
  cases h with
  | @frame f below _ _ hframes hrun | @frameFailed f below _ _ hframes hrun =>
    have hf : f.UsesOnly Primitive.GrowsMemory := hs.frames f (hframes ▸ .head below)
    have hgrows := hf.step_growsMemory below s.machine
    rwa [hrun] at hgrows
  | finished _ _ | unknown _ _ _ => exact .refl
  | dispatched _ _ ht h | refused _ _ ht h =>
    exact h.growsMemory (Token.resolve_usesOnly hs.dictionary ht)

theorem Stopped.growsMemory {reply : Reply} (hs : s.UsesOnly Primitive.GrowsMemory)
    (h : Stopped s reply t) : s.machine.memory.Grows t.machine.memory := by
  cases h with
  | failed _ h => exact h.growsMemory hs
  | _ => exact .refl

/-- **A step lets the memory grow.** -/
theorem grows_of_tick (hs : s.UsesOnly Primitive.GrowsMemory) :
    match s.tick with
    | .more t | .done (_, t) => s.machine.memory.Grows t.machine.memory := by
  have hspec := s.tick_spec
  cases htick : s.tick with
  | more t =>
    rw [htick] at hspec
    exact hspec.2.growsMemory hs
  | done r =>
    rw [htick] at hspec
    exact hspec.growsMemory hs

/-! ## Sessions -/

/-- The variables of the session lie below the free pointer, and all its words let the memory
grow. -/
structure KeepsVariables (s : Session) : Prop where
  ordered : s.machine.memory.Ordered
  uses : s.UsesOnly Primitive.GrowsMemory

theorem KeepsVariables.onMachine (hs : s.KeepsVariables) {m : Machine} (hm : s.GrowsMemory m) :
    ({ s with machine := m } : Session).KeepsVariables :=
  ⟨hs.ordered.grows hm, hs.uses.dictionary, hs.uses.frames, hs.uses.gathering⟩

theorem KeepsVariables.startLine (hs : s.KeepsVariables) (text : String) :
    (s.startLine text).KeepsVariables :=
  ⟨hs.ordered, hs.uses.startLine text⟩

theorem growsMemory_recordKey (m : Machine) (code : Cell) :
    m.memory.Grows (m.recordKey code).memory := by
  unfold Machine.recordKey
  cases m.memory.addressOf? lastKeyName with
  | none => exact .refl
  | some a => exact .set .refl a code

theorem growsMemory_received (e : Event) (m : Machine) : m.memory.Grows (e.received m).memory := by
  cases e with
  | key code => exact growsMemory_recordKey { m with wait := none } code
  | timer => exact .refl

/-- What a host does leaves the variables below the free pointer, as long as its words and its own
operations let the memory grow. -/
theorem survives_keepsVariables :
    Survives (fun s c => c.Within Primitive.GrowsMemory GrowsMemory s) KeepsVariables where
  step {s t} hs htick := by
    have hgrows := grows_of_tick hs.uses
    have huses := hs.uses.tick
    rw [htick] at hgrows huses
    exact ⟨hs.ordered.grows hgrows, huses⟩
  stop {s t reply} hs htick := by
    have hgrows := grows_of_tick hs.uses
    have huses := hs.uses.tick
    rw [htick] at hgrows huses
    exact ⟨hs.ordered.grows hgrows, huses⟩
  start hs _ _ := hs.startLine _
  queued _ hs _ := hs.onMachine .refl
  next {s text queue} hs _ _ _ :=
    (hs.onMachine (m := { s.machine with queue }) .refl).startLine text
  received e hs := hs.onMachine (growsMemory_received e _)
  recordKey code hs := hs.onMachine (growsMemory_recordKey _ code)
  suspend _ hs := hs.onMachine .refl
  exec hs hc := by
    rw [exec_snd]
    exact hs.onMachine hc.2
  -- A new variable is put at the free cell, above all the others.
  addVariable {s} name hs := by
    have hadded := hs.onMachine
      (m := { s.machine with memory := (s.machine.memory.addVariable name).2 })
      (.addVariable .refl name)
    exact ⟨hadded.ordered, hadded.uses.define (.value _)⟩
  addConstant _ n hs := ⟨hs.ordered, hs.uses.define (.value n)⟩
  addPrimitive hs hc := ⟨hs.ordered, hs.uses.define (.primitive hc)⟩
  wait hc := hc.1
  readLines _ := maySubmit_of_forall (fun _ _ => trivial) _ _
  loadSource _ := maySubmit_of_forall (fun _ _ => trivial) _ _

theorem keepsVariables_withPrimitives (random : Nat → UInt64) :
    (withPrimitives random).KeepsVariables where
  ordered := withPrimitives_invariant (I := fun s => s.machine.memory.Ordered) random
    Memory.ordered_empty fun _ _ _ hs => hs
  uses := IsNew.usesOnly Primitive.growsMemory_of_language (.inl rfl)

theorem Occurs.keepsVariables {random : Nat → UInt64}
    (h : Occurs Primitive.GrowsMemory GrowsMemory random s) : s.KeepsVariables :=
  survives_keepsVariables.occurs
    (fun _ hnew => survives_keepsVariables.isNew (fun _ hs => hs.onMachine .refl)
      (keepsVariables_withPrimitives random) hnew) h

end Session

/-! ## Storing and fetching -/

/-- Invokes a word and then runs a primitive word. -/
def Definition.thenRun (word : Definition) (p : Primitive) : Exec Unit := do
  discard word.invoke
  p.run

namespace Exec

theorem popAddress_run {m : Machine} {n : Cell} {below : Stack} (hm : m.data = n :: below) :
    popAddress.run m =
      match n.toAddress? with
      | none => .error .invalidAddress { m with data := below }
      | some a => .ok a { m with data := below } := by
  simp only [popAddress, EStateM.run_bind, popData_run, hm]
  cases n.toAddress? <;> rfl

end Exec

namespace Definition

variable {n : Cell} {a : Address}

theorem thenRun_value (n : Cell) (p : Primitive) (m : Machine) :
    ((value n).thenRun p).run m = p.run.run { m with data := n :: m.data } := rfl

theorem value_thenRun_store (hn : n.toAddress? = some a) {m : Machine} {x : Cell} {below : Stack}
    (hm : m.data = x :: below) :
    ((value n).thenRun .store).run m =
      .ok () { m with data := below, memory := m.memory.set a x } := by
  rw [thenRun_value]
  simp only [Primitive.run, EStateM.run_bind]
  rw [Exec.popAddress_run rfl]
  simp only [hn, Exec.popData_run, hm]
  rfl

theorem value_thenRun_fetch (hn : n.toAddress? = some a) (m : Machine) :
    ((value n).thenRun .fetch).run m = .ok () { m with data := m.memory.get a :: m.data } := by
  rw [thenRun_value]
  simp only [Primitive.run, EStateM.run_bind]
  rw [Exec.popAddress_run rfl]
  simp only [hn]
  rfl

theorem value_thenRun_invalid (hn : n.toAddress? = none) (m : Machine) :
    ((value n).thenRun .store).run m = .error .invalidAddress m ∧
      ((value n).thenRun .fetch).run m = .error .invalidAddress m := by
  rw [thenRun_value, thenRun_value]
  simp only [Primitive.run, EStateM.run_bind]
  rw [Exec.popAddress_run rfl]
  simp only [hn, and_self]

end Definition

namespace Session

/-- **Words reach the cells of variables below 2⁶³, and no others.**  Wherever a host has come that
started from a new session, between its calls or between two steps of a line, as long as its words
and its own operations change the memory only by what a memory offers: a new variable is found under
its name at the first address that was not handed out, and its word pushes the cell with the bits of
that address.

If the address is below 2⁶³, that cell is the address.  With a cell on the stack, the word and `!`
take both off the stack; then the word and `@` bring the cell back.  What the cells of all other
variables hold stays as it is, also of those that have been shadowed, unless a variable got the last
address there is and the addresses have started again.

If the address is not below 2⁶³, the word pushes a negative number, which is no address, and both `!`
and `@` refuse it. -/
theorem words_reach_low_cells :
    ∀ random s, Occurs Primitive.GrowsMemory GrowsMemory random s → ∀ name,
      let a := s.machine.memory.free
      let t := (s.addVariable name).2
      let word := Definition.value (Cell.ofAddress a)
      t.machine.memory.addressOf? name = some a ∧
      t.dictionary.find? name = some (.word word) ∧
      (a.toNat < Cell.addressLimit →
        (Cell.ofAddress a).toAddress? = some a ∧
        ∀ (m : Machine) x below, m.data = x :: below → ∃ stored : Machine,
          (word.thenRun .store).run m = .ok () stored ∧ stored.data = below ∧
          (word.thenRun .fetch).run stored = .ok () { stored with data := x :: below } ∧
          ((∀ v ∈ s.machine.memory.named, v.2 ≠ -1) →
            ∀ v ∈ s.machine.memory.named, stored.memory.get v.2 = m.memory.get v.2)) ∧
      (Cell.addressLimit ≤ a.toNat →
        Cell.ofAddress a < 0 ∧ (Cell.ofAddress a).toAddress? = none ∧
        ∀ m, (word.thenRun .store).run m = .error .invalidAddress m ∧
          (word.thenRun .fetch).run m = .error .invalidAddress m) := by
  intro random s hs name a t word
  have hfound : t.machine.memory.addressOf? name = some a :=
    (Memory.addressOf?_addVariable _ name name).trans (if_pos rfl)
  have hword : t.dictionary.find? name = some (.word word) :=
    (Dictionary.find?_add _ name name _).trans (if_pos rfl)
  refine ⟨hfound, hword, fun hlow => ?_, fun hhigh => ?_⟩
  -- An address below the limit is not negative as a cell, so it is read back.
  · have hback : (Cell.ofAddress a).toAddress? = some a := by
      rw [Cell.toAddress?_ofAddress, if_pos hlow]
    refine ⟨hback, fun m x below hm => ?_⟩
    refine ⟨_, Definition.value_thenRun_store hback hm, rfl, ?_, fun hlast v hv => ?_⟩
    · rw [Definition.value_thenRun_fetch hback]
      simp only [Memory.get_set, if_true]
    -- The variables lie below the free cell that the new one took.
    · have hother := hs.keepsVariables.ordered.ne_free hlast hv
      rw [Memory.get_set, if_neg hother.symm]
  · have hgone : (Cell.ofAddress a).toAddress? = none := by
      rw [Cell.toAddress?_ofAddress, if_neg (by omega)]
    exact ⟨(Cell.ofAddress_lt_zero_iff a).2 hhigh, hgone, Definition.value_thenRun_invalid hgone⟩

theorem words_reach_low_cells_new :
    let s := ((withPrimitives fun _ => 0).addVariable "total").2
    let t := (s.addVariable "counter").2
    let word := Definition.value 1001
    t.dictionary.find? "counter" = some (.word word) ∧
      ∃ stored : Machine, (word.thenRun .store).run { t.machine with data := [7] } = .ok () stored ∧
        stored.data = [] ∧ (word.thenRun .fetch).run stored = .ok () { stored with data := [7] } ∧
        stored.memory.get 1000 = t.machine.memory.get 1000 := by
  intro s t word
  have hnamed : s.machine.memory.named = [("total", 1000)] := rfl
  have hlast : ∀ v ∈ s.machine.memory.named, v.2 ≠ -1 := by
    rw [hnamed]
    decide
  have hnew : Occurs Primitive.GrowsMemory GrowsMemory (fun _ => 0) s :=
    .between (.inl rfl) (.cons (c := .addVariable "total") trivial (.addVariable _) (.nil s))
  obtain ⟨-, hword, hlow, -⟩ := words_reach_low_cells _ s hnew "counter"
  obtain ⟨-, hreach⟩ := hlow (by decide)
  obtain ⟨stored, hstored, hdata, hfetch, hothers⟩ :=
    hreach { t.machine with data := [7] } 7 [] rfl
  exact ⟨hword, stored, hstored, hdata, hfetch,
    hothers hlast ("total", 1000) (hnamed ▸ .head _)⟩

/-- A line may skip so many cells that the next variable is out of the reach of its word. -/
theorem variable_out_of_reach :
    ∃ s t u, (boot fun _ => 0).Answers (.line "9223372036854774807 allot") (.ok .ok) s ∧
      s.machine.memory.free.toNat = Cell.addressLimit ∧
      Replies s [.line "variable v", .line "5 v !"] [.ok .ok, .error .invalidAddress] t ∧
      Replies s [.line "variable v", .line "v @"] [.ok .ok, .error .invalidAddress] u := by
  have hrun : ((boot fun _ => 0).readLine 10 "9223372036854774807 allot").any (fun r =>
      r.1 = .ok .ok ∧ r.2.machine.memory.free.toNat = Cell.addressLimit ∧
      (r.2.callAll 10 [.line "variable v", .line "5 v !"]).map Prod.fst =
        some [.ok .ok, .error .invalidAddress] ∧
      (r.2.callAll 10 [.line "variable v", .line "v @"]).map Prod.fst =
        some [.ok .ok, .error .invalidAddress]) = true := by
    decide +kernel
  obtain ⟨⟨reply, s⟩, hread, hs⟩ := (Option.any_eq_true _ _).1 hrun
  obtain ⟨rfl, hfree, hstore, hfetch⟩ := of_decide_eq_true hs
  obtain ⟨⟨replies, t⟩, ht, rfl⟩ := Option.map_eq_some_iff.1 hstore
  obtain ⟨⟨replies', u⟩, hu, rfl⟩ := Option.map_eq_some_iff.1 hfetch
  exact ⟨s, t, u, ⟨10, hread⟩, hfree, replies_iff.2 ⟨10, ht⟩, replies_iff.2 ⟨10, hu⟩⟩

end Session

end Forth
