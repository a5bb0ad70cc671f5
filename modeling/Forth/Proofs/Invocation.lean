import Forth.Proofs.BalancedBodies
import Forth.Proofs.Onward
import Mathlib.Logic.Relation

/-!
# Which words invoke which

A compiled body holds the definitions of the words that it invokes, so a definition is a finite tree
in which the words that it invokes are smaller (`Definition.Invokes.sizeOf_lt`), and no word invokes
itself, be it through other words.  The dictionary shows the same in the order in which its words
were defined: a body is made of words that the dictionary has while it is gathered, and it enters
the dictionary after them.  So whatever a word invokes stands below it (`Dictionary.Layered`).
-/

namespace Forth

/-- The first word invokes the second one in its body. -/
def Definition.Invokes (word invoked : Definition) : Prop :=
  ∃ body name, word = .compiled body ∧ .invoke name invoked ∈ Body.leaves body

/-! ## The size of a definition -/

mutual

theorem Tree.sizeOf_le_of_mem_leaves {operation : Operation} {t : Tree}
    (h : operation ∈ t.leaves) : sizeOf operation ≤ sizeOf t := by
  match t with
  | .leaf other =>
    obtain rfl := List.mem_singleton.1 h
    simp
  | .branch consequent alternative =>
    rw [Tree.leaves, List.mem_append] at h
    rw [Tree.branch.sizeOf_spec]
    cases h with
    | inl h =>
      have hle := Body.sizeOf_le_of_mem_leaves h
      omega
    | inr h =>
      have hle := Body.sizeOf_le_of_mem_leaves h
      omega
  | .counted body byStep =>
    have hle := Body.sizeOf_le_of_mem_leaves h
    rw [Tree.counted.sizeOf_spec]
    omega
  | .untilTrue body =>
    have hle := Body.sizeOf_le_of_mem_leaves h
    rw [Tree.untilTrue.sizeOf_spec]
    omega

theorem Body.sizeOf_le_of_mem_leaves {operation : Operation} {body : List Tree}
    (h : operation ∈ Body.leaves body) : sizeOf operation ≤ sizeOf body := by
  match body with
  | [] => exact nomatch h
  | t :: rest =>
    rw [Body.leaves, List.mem_append] at h
    rw [List.cons.sizeOf_spec]
    cases h with
    | inl h =>
      have hle := Tree.sizeOf_le_of_mem_leaves h
      omega
    | inr h =>
      have hle := Body.sizeOf_le_of_mem_leaves h
      omega

end

theorem Definition.Invokes.sizeOf_lt {word invoked : Definition} (h : word.Invokes invoked) :
    sizeOf invoked < sizeOf word := by
  obtain ⟨body, name, rfl, hmem⟩ := h
  have hle := Body.sizeOf_le_of_mem_leaves hmem
  rw [Operation.invoke.sizeOf_spec] at hle
  rw [Definition.compiled.sizeOf_spec]
  omega

/-- No word invokes itself, directly or through other words. -/
theorem Definition.not_invokes_self (word : Definition) :
    ¬ Relation.TransGen Definition.Invokes word word := by
  have hlt {first last : Definition} (h : Relation.TransGen Definition.Invokes first last) :
      sizeOf last < sizeOf first := by
    induction h with
    | single h => exact h.sizeOf_lt
    | tail _ h ih => exact Nat.lt_trans h.sizeOf_lt ih
  intro h
  exact Nat.lt_irrefl _ (hlt h)

/-! ## The order of the dictionary -/

namespace Dictionary

/-- The word is in the dictionary, under some name. -/
def Knows (d : Dictionary) (word : Definition) : Prop :=
  ∃ name, (name, .word word) ∈ d

/-- The words that an entry invokes are entries below it. -/
def Layered : Dictionary → Prop
  | [] => True
  | entry :: older =>
    (∀ word invoked, entry.2 = .word word → word.Invokes invoked → Knows older invoked) ∧
      Layered older

variable {d older newer : Dictionary} {word invoked : Definition}

theorem Knows.add (h : d.Knows word) (name : String) (meaning : Meaning) :
    (d.add name meaning).Knows word := by
  obtain ⟨other, hmem⟩ := h
  exact ⟨other, .tail _ hmem⟩

theorem mem_of_find? {name : String} {meaning : Meaning} (h : d.find? name = some meaning) :
    (Text.lowerCase name, meaning) ∈ d := by
  obtain ⟨newer, older, hd, -⟩ := List.lookup_eq_some_iff.1 h
  rw [hd]
  exact List.mem_append_right _ (.head _)

/-- Whatever a word of the dictionary invokes is in the dictionary. -/
theorem Layered.knows (h : d.Layered) (hword : d.Knows word) (hinvokes : word.Invokes invoked) :
    d.Knows invoked := by
  induction d with
  | nil =>
    obtain ⟨name, hmem⟩ := hword
    exact nomatch hmem
  | cons entry d ih =>
    obtain ⟨hentry, hd⟩ := h
    obtain ⟨name, hmem⟩ := hword
    have hknows : Knows d invoked := by
      obtain rfl | hmem := List.mem_cons.1 hmem
      · exact hentry word invoked rfl hinvokes
      · exact ih hd ⟨name, hmem⟩
    obtain ⟨other, hother⟩ := hknows
    exact ⟨other, .tail _ hother⟩

/-- Whatever a word invokes, directly or through other words, is below its entry. -/
theorem Layered.knows_of_transGen {name : String}
    (h : Layered (newer ++ (name, .word word) :: older))
    (hinvokes : Relation.TransGen Definition.Invokes word invoked) : older.Knows invoked := by
  have hentry : Layered ((name, .word word) :: older) := by
    induction newer with
    | nil => exact h
    | cons entry newer ih => exact ih h.2
  induction hinvokes with
  | single h => exact hentry.1 word _ rfl h
  | tail _ h ih => exact hentry.2.knows ih h

end Dictionary

namespace Session

open Dictionary (Knows Layered)

/-- The dictionary is layered, and a definition that is open is made of its words. -/
structure Orders (s : Session) : Prop where
  dictionary : s.dictionary.Layered
  gathering : ∀ name actions, s.gathering = .definition name actions →
    ∀ spelling word, .perform (.invoke spelling word) ∈ actions → s.dictionary.Knows word

variable {word : Primitive → Prop} {change : Session → Machine → Prop} {s t : Session}

theorem Orders.define {name : String} {meaning : Meaning} (hs : s.Orders)
    (h : ∀ word invoked, meaning = .word word → word.Invokes invoked →
      s.dictionary.Knows invoked) : (s.define name meaning).Orders where
  dictionary := ⟨h, hs.dictionary⟩
  gathering _ actions hg spelling word hmem := (hs.gathering _ actions hg spelling word hmem).add _ _

/-- Primitive words, variables and constants invoke nothing. -/
theorem Orders.define_leaf (name : String) (definition : Definition) (hs : s.Orders)
    (h : ∀ body, definition ≠ .compiled body) : (s.define name (.word definition)).Orders := by
  apply hs.define
  rintro word invoked ⟨⟩ ⟨body, spelling, rfl, -⟩
  exact absurd rfl (h body)

theorem Orders.of_nothing (hd : s.dictionary.Layered) (hg : ∀ name actions,
    s.gathering ≠ .definition name actions) : s.Orders where
  dictionary := hd
  gathering name actions h := absurd h (hg name actions)

/-- A token that invokes a word invokes one of the dictionary. -/
theorem knows_of_resolve {d : Dictionary} {token : Token} {spelling : String}
    {definition : Definition} (h : token.resolve d = .ok (.perform (.invoke spelling definition))) :
    d.Knows definition := by
  cases token with
  | string text => cases h
  | word name =>
    rw [Token.resolve] at h
    cases hfind : d.find? name with
    | none =>
      rw [hfind] at h
      cases hnumeral : Numeral.parse? name <;> simp [hnumeral] at h
    | some meaning =>
      rw [hfind] at h
      cases meaning with
      | control c => cases h
      | word found =>
        obtain ⟨rfl, rfl⟩ := Operation.invoke.inj (Action.perform.inj (Except.ok.inj h))
        exact ⟨_, Dictionary.mem_of_find? hfind⟩

theorem Dispatched.orders {a : Action} {r : EStateM.Result Error Session Unit} (hs : s.Orders)
    (ha : ∀ spelling definition, a = .perform (.invoke spelling definition) →
      s.dictionary.Knows definition) (h : Dispatched s a r) : (finalState r).Orders := by
  -- A body that is compiled holds the words of the actions that were gathered for it, and these
  -- were in the dictionary when they were gathered, below the new entry.
  cases h with
  | @gathered name actions a hg _ =>
    refine ⟨hs.dictionary, ?_⟩
    rintro _ _ ⟨⟩ spelling definition hmem
    obtain hmem | hmem := List.mem_append.1 hmem
    · exact hs.gathering name actions hg spelling definition hmem
    · exact ha spelling definition (List.mem_singleton.1 hmem).symm
  | @defined name actions body hg hbody =>
    have hnothing : ({ s with gathering := .nothing } : Session).Orders :=
      .of_nothing hs.dictionary nofun
    apply hnothing.define
    rintro _ invoked ⟨⟩ ⟨_, spelling, ⟨⟩, hmem⟩
    rw [(parses_of_compile hbody).leaves_eq, List.mem_filterMap] at hmem
    obtain ⟨a, hmem, hoperation⟩ := hmem
    cases a with
    | control c => exact nomatch hoperation
    | perform operation =>
      obtain rfl := Option.some.inj hoperation
      exact hs.gathering name actions hg spelling invoked hmem
  | undefined _ _ | nested _ _ | closed _ _ _ | unbalanced _ _ _ | opened _ _ =>
    exact .of_nothing hs.dictionary nofun
  | performed _ _ | failed _ _ | misplaced _ _ _ | valueless _ _ _ | nameless _ _ _
  | misnamed _ _ _ => exact ⟨hs.dictionary, hs.gathering⟩
  | colon _ _ =>
    refine ⟨hs.dictionary, ?_⟩
    rintro _ _ ⟨⟩ _ _ hmem
    exact nomatch hmem
  | @«variable» name rest hg _ =>
    have htaken : ({ s with line := some rest } : Session).Orders := ⟨hs.dictionary, hs.gathering⟩
    have hdefined := htaken.define_leaf name (.value (Cell.ofAddress s.machine.memory.free)) nofun
    exact ⟨hdefined.dictionary, hdefined.gathering⟩
  | @constant name rest n data hg _ _ =>
    have htaken : ({ s with line := some rest } : Session).Orders := ⟨hs.dictionary, hs.gathering⟩
    have hdefined := htaken.define_leaf name (.value n) nofun
    exact ⟨hdefined.dictionary, hdefined.gathering⟩

theorem Advanced.orders {r : EStateM.Result Error Session Bool} (hs : s.Orders)
    (h : Advanced s r) : (finalState r).Orders := by
  cases h with
  | frame _ _ | frameFailed _ _ | finished _ _ | unknown _ _ _ =>
    exact ⟨hs.dictionary, hs.gathering⟩
  | @dispatched token rest a u _ _ hresolve h | @refused token rest a _ u _ _ hresolve h =>
    have htaken : ({ s with line := some rest } : Session).Orders := ⟨hs.dictionary, hs.gathering⟩
    exact h.orders htaken fun spelling definition ha => knows_of_resolve (ha ▸ hresolve)

theorem Stopped.orders {reply : Reply} (hs : s.Orders) (h : Stopped s reply t) : t.Orders := by
  cases h with
  | waiting _ => exact hs
  | finished _ _ _ | defining _ _ _ => exact ⟨hs.dictionary, hs.gathering⟩
  | unclosed _ _ _ => exact .of_nothing hs.dictionary nofun
  | failed _ h => exact .of_nothing (h.orders hs).dictionary nofun

/-- The dictionary is layered from a new session on. -/
theorem Onward.orders (h : Onward word change s t) (hs : s.Orders) : t.Orders := by
  induction h with
  | here => exact hs
  | addPrimitive _ name _ ih => exact ih.define_leaf _ _ nofun
  | addConstant _ name n ih => exact ih.define_leaf _ _ nofun
  | adjust _ _ ih | startLine _ _ _ ih => exact ⟨ih.dictionary, ih.gathering⟩
  | step _ htick ih => exact (advanced_of_tick htick).2.orders ih
  | stop _ htick ih => exact (stopped_of_tick htick).orders ih

theorem orders_withPrimitives (random : Nat → UInt64) : (withPrimitives random).Orders := by
  refine withPrimitives_invariant random ?_ fun s e _ hs => hs.define_leaf _ _ nofun
  have hcontrols (controls : List Control) (d : Dictionary) (hd : d.Layered) :
      Layered (controls.foldl (fun d c => d.add c.name (.control c)) d) := by
    induction controls generalizing d with
    | nil => exact hd
    | cons c controls ih => exact ih _ ⟨nofun, hd⟩
  exact .of_nothing (hcontrols Control.all [] trivial) nofun

end Session

end Forth
