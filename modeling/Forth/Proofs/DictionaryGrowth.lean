import Forth.Proofs.HostCode
import Forth.Proofs.Onward

/-!
# The dictionary grows

Entries are only added to a dictionary (`Grown`), so the older ones stay below the newer ones, all of
them stand under names in lower case, and a name stands for its newest entry
(`Dictionary.find?_eq_some_iff`).  Every step of a line keeps to that, and so does every call of a
host whose words take no entries out (`Session.HostRunBy.grown`).
-/

namespace Forth

/-! ## Adding entries -/

namespace Dictionary

/-- The second dictionary comes from the first one by adding entries. -/
inductive Grown (d : Dictionary) : Dictionary → Prop
  | refl : Grown d d
  | add {d' : Dictionary} (h : Grown d d') (name : String) (meaning : Meaning) :
    Grown d (d'.add name meaning)

variable {d d' d'' : Dictionary}

theorem Grown.trans (h : Grown d d') (h' : Grown d' d'') : Grown d d'' := by
  induction h' with
  | refl => exact h
  | add _ name meaning ih => exact ih.add name meaning

/-- Older entries stay below the newer ones. -/
theorem Grown.suffix (h : Grown d d') : d <:+ d' := by
  induction h with
  | refl => exact List.suffix_rfl
  | add _ name meaning ih => exact ih.trans (List.suffix_cons _ _)

/-- Entries are made under names in lower case. -/
theorem Grown.key (h : Grown [] d) : ∀ entry ∈ d, ∃ name, entry.1 = Text.lowerCase name := by
  induction h with
  | refl => exact fun _ hentry => nomatch hentry
  | add _ name meaning ih =>
    intro entry hentry
    obtain rfl | hentry := List.mem_cons.1 hentry
    · exact ⟨name, rfl⟩
    · exact ih entry hentry

/-- A name stands for the newest entry under its form in lower case. -/
theorem find?_eq_some_iff {name : String} {meaning : Meaning} :
    d.find? name = some meaning ↔
      ∃ newer older, d = newer ++ (Text.lowerCase name, meaning) :: older ∧
        ∀ entry ∈ newer, entry.1 ≠ Text.lowerCase name := by
  unfold find?
  rw [List.lookup_eq_some_iff]
  refine exists_congr fun newer => exists_congr fun older => and_congr_right fun _ => ?_
  simp only [bne_iff_ne]
  exact forall₂_congr fun _ _ => ne_comm

end Dictionary

namespace Session

open Dictionary (Grown)

variable {word : Primitive → Prop} {change : Session → Machine → Prop} {s t u : Session}

theorem Dispatched.grown {a : Action} {r : EStateM.Result Error Session Unit}
    (h : Dispatched s a r) : Grown s.dictionary (finalState r).dictionary := by
  cases h with
  | defined _ _ | «variable» _ _ | constant _ _ _ => exact Grown.refl.add _ _
  | _ => exact .refl

theorem Advanced.grown {r : EStateM.Result Error Session Bool} (h : Advanced s r) :
    Grown s.dictionary (finalState r).dictionary := by
  cases h with
  | dispatched _ _ _ h | refused _ _ _ h => exact h.grown
  | _ => exact .refl

theorem Stopped.grown {reply : Reply} (h : Stopped s reply t) :
    Grown s.dictionary t.dictionary := by
  cases h with
  | failed _ h => exact h.grown
  | _ => exact .refl

/-- Whatever becomes of a session, entries are only added to its dictionary. -/
theorem Onward.grown (h : Onward word change s t) : Grown s.dictionary t.dictionary := by
  induction h with
  | here => exact .refl
  | addPrimitive _ name _ ih | addConstant _ name _ ih => exact ih.add name _
  | adjust _ _ ih | startLine _ _ _ ih => exact ih
  | step _ htick ih => exact ih.trans (advanced_of_tick htick).2.grown
  | stop _ htick ih => exact ih.trans (stopped_of_tick htick).grown

theorem grown_withPrimitives (random : Nat → UInt64) :
    Grown [] (withPrimitives random).dictionary := by
  refine withPrimitives_invariant (I := fun s => Grown [] s.dictionary) random ?_
    fun s e _ hs => hs.add e.1 _
  have hcontrols : ∀ (controls : List Control) (d : Dictionary), Grown [] d →
      Grown [] (controls.foldl (fun d c => d.add c.name (.control c)) d) := by
    intro controls
    induction controls with
    | nil => exact fun d hd => hd
    | cons c controls ih => exact fun d hd => ih _ (hd.add c.name _)
  exact hcontrols Control.all [] .refl

/-! ## Calls only add entries -/

/-- The word takes no entry out of the dictionary. -/
def OnlyAdds (word : Interpretation Unit) : Prop :=
  ∀ s, Grown s.dictionary (finalState (word.run s)).dictionary

/-- A word that acts on the machine alone leaves the dictionary as it is. -/
theorem onlyAdds_lift (action : Exec Unit) : OnlyAdds (lift action) := by
  intro s
  rw [lift_run]
  cases action.run s.machine <;> exact .refl

theorem hostCall?_dictionary {action : Exec Unit} (h : s.hostCall? = some (action, t)) :
    t.dictionary = s.dictionary := by
  rw [nextPrimitive?_rest (nextPrimitive?_of_hostCall? h)]

theorem frameTick_dictionary (s : Session) : s.frameTick.state.dictionary = s.dictionary := by
  unfold frameTick
  cases s.machine.wait with
  | some w => rfl
  | none =>
    cases s.frames with
    | nil => rfl
    | cons f below =>
      simp only [lift_run]
      cases (f.step below).run s.machine <;> rfl

theorem tick_grown (s : Session) : Grown s.dictionary s.tick.state.dictionary := by
  cases htick : s.tick with
  | more t => exact (advanced_of_tick htick).2.grown
  | done r => exact (stopped_of_tick htick).grown

section

variable {code : HostCode} (hcode : ∀ action, OnlyAdds (code action))

include hcode

theorem tickBy_grown (s : Session) : Grown s.dictionary (s.tickBy code).state.dictionary := by
  rcases s.hostCall?_cases with ⟨action, t, hwait, hcall⟩ | hcall
  · have hgrown := hcode action t
    rw [hostCall?_dictionary hcall] at hgrown
    rw [tickBy_of_hostCall? hwait hcall]
    cases hrun : (code action).run t <;> rw [hrun] at hgrown <;> exact hgrown
  · rw [tickBy_of_no_hostCall? hcall]
    exact tick_grown s

theorem tickAllBy_grown (s : Session) :
    Grown s.dictionary (s.tickAllBy code).state.dictionary := by
  have hgrown := tickBy_grown hcode s
  unfold tickAllBy
  cases htick : s.tickBy code with
  | more t =>
    rw [htick] at hgrown
    exact hgrown
  | done r =>
    obtain ⟨reply, t⟩ := r
    rw [htick] at hgrown
    dsimp only
    split <;> exact hgrown

theorem frameTickBy_grown (s : Session) :
    Grown s.dictionary (s.frameTickBy code).state.dictionary := by
  by_cases hframes : s.frames = []
  · rw [frameTickBy_of_no_hostCall? fun _ hbusy => absurd hframes hbusy, frameTick_dictionary]
    exact .refl
  · rcases s.hostCall?_cases with ⟨action, t, hwait, hcall⟩ | hcall
    · have hgrown := hcode action t
      rw [hostCall?_dictionary hcall] at hgrown
      rw [frameTickBy_of_hostCall? hwait hframes hcall]
      cases hrun : (code action).run t <;> rw [hrun] at hgrown <;> exact hgrown
    · rw [frameTickBy_of_no_hostCall? fun hwait _ => hcall hwait, frameTick_dictionary]
      exact .refl

theorem AnswersBy.grown {c : Call} {reply : Reply} (h : s.AnswersBy code c reply t) :
    Grown s.dictionary t.dictionary := by
  cases h with
  | queued _ _ | refused _ => exact .refl
  | line _ h =>
    exact h.invariant (I := fun t => Grown s.dictionary t.dictionary)
      (fun u hu => hu.trans (tickBy_grown hcode u)) .refl
  | event _ h =>
    exact h.invariant (I := fun t => Grown s.dictionary t.dictionary)
      (fun u hu => hu.trans (tickAllBy_grown hcode u)) .refl

theorem RepliesBy.grown {calls : List Call} {replies : List Reply}
    (h : RepliesBy code s calls replies t) : Grown s.dictionary t.dictionary := by
  induction h with
  | nil _ => exact .refl
  | cons h _ ih => exact (h.grown hcode).trans ih

theorem LoadsBy.grown {texts : List String} {reply : Except Error Unit}
    (h : LoadsBy code s texts reply t) : Grown s.dictionary t.dictionary := by
  induction h with
  | nil _ => exact .refl
  | failed h _ => exact h.grown hcode
  | cons h _ ih => exact (h.grown hcode).trans ih

theorem ReturnsBy.grown {c : HostCall} {reply : HostReply} (h : s.ReturnsBy code c reply t) :
    Grown s.dictionary t.dictionary := by
  cases h with
  | readLine h | deliver h => exact h.grown hcode
  | readLines h => exact h.grown hcode
  | loadSource h => exact h.grown hcode
  | runFrames h =>
    exact h.invariant (I := fun t => Grown s.dictionary t.dictionary)
      (fun u hu => hu.trans (frameTickBy_grown hcode u)) .refl
  | recordKey _ | suspend _ => exact .refl
  | exec action =>
    rw [exec_snd]
    exact .refl
  | addVariable name | addConstant name _ | addPrimitive name _ => exact Grown.refl.add name _

/-- Whatever a host calls, entries are only added to the dictionary. -/
theorem HostRunBy.grown {calls : List HostCall} (h : HostRunBy code s calls t) :
    Grown s.dictionary t.dictionary := by
  induction h with
  | nil _ => exact .refl
  | cons h _ ih => exact (h.grown hcode).trans ih

end

end Session

end Forth
