import Forth.Proofs.Respects
import Forth.Session

/-!
# The primitive words that a session can come to

A host may add words that do anything to the machine, so what holds of a run depends on the words
that it can come to: those in the dictionary, and those in the actions and frames that the session
holds.  `UsesOnly P` says that all of them satisfy `P`.  Compiling keeps this
(`compile_usesOnly`), and so does every step of a frame, which moreover respects the relations that
the words respect (`Frame.UsesOnly.step_respects`).
-/

namespace Forth

variable {P : Primitive → Prop}

mutual

/-- All primitive words in a definition satisfy `P`. -/
inductive Definition.UsesOnly (P : Primitive → Prop) : Definition → Prop
  | primitive {p : Primitive} (h : P p) : Definition.UsesOnly P (.primitive p)
  | compiled {body : Body} (h : ∀ t ∈ body, Tree.UsesOnly P t) :
    Definition.UsesOnly P (.compiled body)
  | value (n : Cell) : Definition.UsesOnly P (.value n)

inductive Operation.UsesOnly (P : Primitive → Prop) : Operation → Prop
  | number (n : Cell) : Operation.UsesOnly P (.number n)
  | string (text : String) : Operation.UsesOnly P (.string text)
  | invoke {name : String} {word : Definition} (h : Definition.UsesOnly P word) :
    Operation.UsesOnly P (.invoke name word)

inductive Tree.UsesOnly (P : Primitive → Prop) : Tree → Prop
  | leaf {operation : Operation} (h : Operation.UsesOnly P operation) :
    Tree.UsesOnly P (.leaf operation)
  | branch {consequent alternative : Body} (hc : ∀ t ∈ consequent, Tree.UsesOnly P t)
    (ha : ∀ t ∈ alternative, Tree.UsesOnly P t) :
    Tree.UsesOnly P (.branch consequent alternative)
  | counted {body : Body} {byStep : Bool} (h : ∀ t ∈ body, Tree.UsesOnly P t) :
    Tree.UsesOnly P (.counted body byStep)
  | untilTrue {body : Body} (h : ∀ t ∈ body, Tree.UsesOnly P t) :
    Tree.UsesOnly P (.untilTrue body)

end

/-- All primitive words in a list of trees satisfy `P`. -/
def Body.UsesOnly (P : Primitive → Prop) (body : Body) : Prop :=
  ∀ t ∈ body, t.UsesOnly P

def Frame.UsesOnly (P : Primitive → Prop) : Frame → Prop
  | block body | counted body _ _ _ _ | untilTrue body => Body.UsesOnly P body

def Frame.AllUseOnly (P : Primitive → Prop) (frames : List Frame) : Prop :=
  ∀ f ∈ frames, f.UsesOnly P

def Action.UsesOnly (P : Primitive → Prop) : Action → Prop
  | perform operation => operation.UsesOnly P
  | control _ => True

def Meaning.UsesOnly (P : Primitive → Prop) : Meaning → Prop
  | control _ => True
  | word definition => definition.UsesOnly P

def Gathering.UsesOnly (P : Primitive → Prop) : Gathering → Prop
  | nothing => True
  | definition _ actions | block actions _ => ∀ a ∈ actions, a.UsesOnly P

/-- All primitive words that the session can come to satisfy `P`. -/
structure Session.UsesOnly (P : Primitive → Prop) (s : Session) : Prop where
  dictionary : ∀ entry ∈ s.dictionary, entry.2.UsesOnly P
  frames : Frame.AllUseOnly P s.frames
  gathering : s.gathering.UsesOnly P

theorem Tree.UsesOnly.operation {operation : Operation} (h : (Tree.leaf operation).UsesOnly P) :
    operation.UsesOnly P := by
  cases h with
  | leaf h => exact h

theorem Operation.UsesOnly.word {name : String} {p : Primitive}
    (h : (Operation.invoke name (.primitive p)).UsesOnly P) : P p := by
  cases h with
  | invoke h =>
    cases h with
    | primitive h => exact h

/-! ## Compiling -/

theorem Body.UsesOnly.append {body body' : Body} (h : Body.UsesOnly P body)
    (h' : Body.UsesOnly P body') : Body.UsesOnly P (body ++ body') := by
  intro t ht
  obtain ht | ht := List.mem_append.1 ht
  · exact h t ht
  · exact h' t ht

theorem Body.UsesOnly.single {t : Tree} (h : t.UsesOnly P) : Body.UsesOnly P [t] :=
  fun _ ht => List.mem_singleton.1 ht ▸ h

theorem Body.UsesOnly.nil : Body.UsesOnly P [] :=
  fun _ ht => nomatch ht

def Opening.UsesOnly (P : Primitive → Prop) : Opening → Prop
  | alternative body => Body.UsesOnly P body
  | _ => True

/-- All primitive words in a construction in progress satisfy `P`. -/
structure Construction.UsesOnly (P : Primitive → Prop) (c : Construction) : Prop where
  body : Body.UsesOnly P c.body
  enclosing : ∀ e ∈ c.enclosing, e.1.UsesOnly P ∧ Body.UsesOnly P e.2

namespace Construction

theorem closed?_usesOnly {word : Control} {o : Opening} {body : Body} {t : Tree}
    (ho : o.UsesOnly P) (hbody : Body.UsesOnly P body) (h : closed? word o body = some t) :
    t.UsesOnly P := by
  unfold closed? at h
  split at h <;> simp only [Option.some.injEq, reduceCtorEq] at h <;> subst h
  · exact .branch hbody Body.UsesOnly.nil
  · exact .branch ho hbody
  · exact .counted hbody
  · exact .counted hbody
  · exact .untilTrue hbody

theorem UsesOnly.close {c c' : Construction} {word : Control} (hc : c.UsesOnly P)
    (h : c.close word = .ok c') : c'.UsesOnly P := by
  obtain ⟨body, enclosing⟩ := c
  cases enclosing with
  | nil => simp [Construction.close] at h
  | cons e enclosing =>
    obtain ⟨o, outer⟩ := e
    obtain ⟨ho, houter⟩ := hc.enclosing _ (.head _)
    cases hclosed : closed? word o body with
    | none => simp [Construction.close, hclosed] at h
    | some t =>
      simp only [Construction.close, hclosed, Except.ok.injEq] at h
      subst h
      exact ⟨houter.append (.single (closed?_usesOnly ho hc.body hclosed)),
        fun e he => hc.enclosing e (.tail _ he)⟩

theorem UsesOnly.otherwise {c c' : Construction} (hc : c.UsesOnly P)
    (h : c.otherwise = .ok c') : c'.UsesOnly P := by
  obtain ⟨body, enclosing⟩ := c
  obtain _ | ⟨⟨_ | _ | _ | _, outer⟩, enclosing⟩ := enclosing <;>
    simp only [Construction.otherwise, Except.ok.injEq, reduceCtorEq] at h
  · subst h
    obtain ⟨-, houter⟩ := hc.enclosing _ (.head _)
    refine ⟨.nil, fun e he => ?_⟩
    obtain rfl | he := List.mem_cons.1 he
    · exact ⟨hc.body, houter⟩
    · exact hc.enclosing e (.tail _ he)
  · subst h
    exact hc

theorem UsesOnly.opened {c : Construction} {o : Opening} (hc : c.UsesOnly P)
    (ho : o.UsesOnly P) : (c.opened o).UsesOnly P := by
  refine ⟨.nil, fun e he => ?_⟩
  obtain rfl | he := List.mem_cons.1 he
  · exact ⟨ho, hc.body⟩
  · exact hc.enclosing e he

theorem UsesOnly.feed {c c' : Construction} {a : Action} (hc : c.UsesOnly P)
    (ha : a.UsesOnly P) (h : c.feed a = .ok c') : c'.UsesOnly P := by
  cases a with
  | perform operation =>
    obtain rfl := Except.ok.inj h
    exact ⟨hc.body.append (.single (.leaf ha)), hc.enclosing⟩
  | control word =>
    cases word with
    | «if» | «do» | begin =>
      obtain rfl := Except.ok.inj h
      exact hc.opened trivial
    | «else» => exact hc.otherwise h
    | «then» | loop | plusLoop | «until» => exact hc.close h
    | colon | semicolon | «variable» | constant => exact nomatch h

end Construction

/-- A compiled body uses only the words that its actions use. -/
theorem compile_usesOnly {actions : List Action} {body : Body}
    (hactions : ∀ a ∈ actions, a.UsesOnly P) (h : compile actions = .ok body) :
    Body.UsesOnly P body := by
  -- The construction keeps to `P` from action to action, whatever has been constructed before.
  have hfold : ∀ (c : Construction), c.UsesOnly P →
      ∀ c', actions.foldlM Construction.feed c = .ok c' → c'.UsesOnly P := by
    clear h
    induction actions with
    | nil =>
      intro c hc c' h
      obtain rfl := Except.ok.inj h
      exact hc
    | cons a actions ih =>
      intro c hc c' h
      rw [List.foldlM_cons] at h
      cases hfeed : c.feed a with
      | error e =>
        rw [hfeed] at h
        exact nomatch h
      | ok next =>
        rw [hfeed] at h
        exact ih (fun b hb => hactions b (.tail _ hb)) next (hc.feed (hactions a (.head _)) hfeed)
          c' h
  unfold compile at h
  cases hall : actions.foldlM Construction.feed .empty with
  | error e =>
    rw [hall] at h
    exact nomatch h
  | ok c =>
    rw [hall] at h
    have hc := hfold .empty ⟨.nil, fun _ he => nomatch he⟩ c hall
    change c.finish = .ok body at h
    unfold Construction.finish at h
    split at h
    · obtain rfl := Except.ok.inj h
      exact hc.body
    · exact nomatch h

/-! ## Steps of frames -/

theorem Frame.AllUseOnly.append {frames below : List Frame} (h : Frame.AllUseOnly P frames)
    (hbelow : Frame.AllUseOnly P below) : Frame.AllUseOnly P (frames ++ below) := by
  intro f hf
  obtain hf | hf := List.mem_append.1 hf
  · exact h f hf
  · exact hbelow f hf

theorem Frame.AllUseOnly.cons {f : Frame} {below : List Frame} (h : f.UsesOnly P)
    (hbelow : Frame.AllUseOnly P below) : Frame.AllUseOnly P (f :: below) := by
  intro g hg
  obtain rfl | hg := List.mem_cons.1 hg
  · exact h
  · exact hbelow g hg

theorem Frame.AllUseOnly.nil : Frame.AllUseOnly P [] :=
  fun _ hf => nomatch hf

section

variable {R : Machine → Machine → Prop} (hR : Congruence R)

include hR

theorem Definition.UsesOnly.invoke_respects {word : Definition} (h : word.UsesOnly P)
    (hp : ∀ p, word = .primitive p → Respects R Anything p.run) :
    Respects R (Frame.AllUseOnly P) word.invoke := by
  cases h with
  | primitive _ => exact .bind (hp _ rfl) fun _ _ => .pure .nil
  | compiled hbody => exact .pure (.cons hbody .nil)
  | value n => exact .bind (hR.pushData n) fun _ _ => .pure .nil

theorem Operation.UsesOnly.perform_respects {operation : Operation} (h : operation.UsesOnly P)
    (hp : ∀ name p, operation = .invoke name (.primitive p) → Respects R Anything p.run) :
    Respects R (Frame.AllUseOnly P) operation.perform := by
  cases h with
  | number n => exact .bind (hR.pushData n) fun _ _ => .pure .nil
  | string text => exact .bind (hR.printText text) fun _ _ => .pure .nil
  | @invoke name word hword => exact hword.invoke_respects hR fun p h => hp name p (by rw [h])

theorem Tree.UsesOnly.enter_respects {t : Tree} (h : t.UsesOnly P)
    (hp : ∀ name p, t = .leaf (.invoke name (.primitive p)) → Respects R Anything p.run) :
    Respects R (Frame.AllUseOnly P) t.enter := by
  cases h with
  | leaf hoperation => exact hoperation.perform_respects hR fun name p h => hp name p (by rw [h])
  | branch hc ha =>
    refine .bind hR.popData fun t _ => .pure (.cons ?_ .nil)
    by_cases ht : t ≠ 0
    · rw [if_pos ht]
      exact hc
    · rw [if_neg ht]
      exact ha
  | @counted body byStep hbody =>
    refine .bind hR.popData fun start _ => .bind hR.popData fun limit _ => ?_
    by_cases hrange : inRange start limit (decide (start < limit))
    · rw [if_pos hrange]
      exact .bind (hR.pushReturn start) fun _ _ => .pure (.cons hbody (.cons hbody .nil))
    · rw [if_neg hrange]
      exact .pure .nil
  | untilTrue hbody => exact .pure (.cons hbody (.cons hbody .nil))

/-- A step of a frame does the same on related machines if the primitive word does that it may have
to run, and the frames that it leaves use only the words that were used before. -/
theorem Frame.UsesOnly.step_respects {f : Frame} {below : List Frame} (h : f.UsesOnly P)
    (hbelow : Frame.AllUseOnly P below)
    (hp : ∀ name p rest, f = .block (.leaf (.invoke name (.primitive p)) :: rest) →
      Respects R Anything p.run) :
    Respects R (Frame.AllUseOnly P) (f.step below) := by
  cases f with
  | block rest =>
    cases rest with
    | nil => exact .pure hbelow
    | cons t rest =>
      have ht : t.UsesOnly P := h t (.head _)
      have hrest : Body.UsesOnly P rest := fun u hu => h u (.tail _ hu)
      refine .bind (ht.enter_respects hR fun name p h => hp name p rest (by rw [h]))
        fun frames hframes => .pure (hframes.append (.cons hrest hbelow))
  | counted body byStep index limit ascending =>
    refine .bind hR.popReturn fun _ _ => ?_
    -- Both kinds of counted loop go on in the same way once the step is known.
    have hnext : ∀ step : Cell, Respects R (Frame.AllUseOnly P)
        (if inRange (index + step) limit ascending then do
          Exec.pushReturn (index + step)
          return .block body :: .counted body byStep (index + step) limit ascending :: below
        else
          return below) := by
      intro step
      by_cases hrange : inRange (index + step) limit ascending
      · rw [if_pos hrange]
        exact .bind (hR.pushReturn _) fun _ _ => .pure (.cons h (.cons h hbelow))
      · rw [if_neg hrange]
        exact .pure hbelow
    cases byStep with
    | false => exact .bind (V := Anything) (.pure trivial) fun step _ => hnext step
    | true => exact .bind hR.popData fun step _ => hnext step
  | untilTrue body =>
    refine .bind hR.popData fun t _ => ?_
    by_cases ht : t = -1
    · rw [if_pos ht]
      exact .pure hbelow
    · rw [if_neg ht]
      exact .pure (.cons h (.cons h hbelow))

end

end Forth
