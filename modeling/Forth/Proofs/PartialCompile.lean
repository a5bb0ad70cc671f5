import Forth.Compile
import Forth.Session.Interpret

/-!
# Compiling a body part by part

A definition is compiled all at once, while outside of definitions each action takes effect by
itself and each control structure is compiled by itself.  This file shows that both come to the same
trees: what is finished of the outermost body does not influence what is compiled after it
(`compileRest_top`), and the structure that begins with an opening word is closed as a single tree
(`Rooted.feed`) exactly when no structure is open any more (`depthAfter_of_feed`).
-/

namespace Forth

namespace Construction

/-- The body that a construction in progress comes to with these actions. -/
def compileRest (c : Construction) (actions : List Action) : Except Error Body := do
  (← actions.foldlM feed c).finish

theorem compileRest_nil (c : Construction) : c.compileRest [] = c.finish := rfl

theorem compileRest_cons_ok {c : Construction} {a : Action} {actions : List Action} {body : Body}
    (h : c.compileRest (a :: actions) = .ok body) :
    ∃ c', c.feed a = .ok c' ∧ c'.compileRest actions = .ok body := by
  unfold compileRest at h
  rw [List.foldlM_cons] at h
  cases hfeed : c.feed a with
  | error e =>
    rw [hfeed] at h
    exact nomatch h
  | ok c' =>
    rw [hfeed] at h
    exact ⟨c', rfl, h⟩

theorem compileRest_cons_of_feed {c c' : Construction} {a : Action} (h : c.feed a = .ok c')
    (actions : List Action) : c.compileRest (a :: actions) = c'.compileRest actions := by
  unfold compileRest
  rw [List.foldlM_cons, h]
  rfl

/-! ## The finished part of the outermost body -/

/-- The second construction is the first one with `outer` in front of its outermost body. -/
inductive Under (outer : Body) : Construction → Construction → Prop
  | top (body : Body) : Under outer ⟨body, []⟩ ⟨outer ++ body, []⟩
  | inner {b b' : Body} {enclosing enclosing' : List (Opening × Body)}
    (h : Under outer ⟨b, enclosing⟩ ⟨b', enclosing'⟩) (body : Body) (o : Opening) :
    Under outer ⟨body, (o, b) :: enclosing⟩ ⟨body, (o, b') :: enclosing'⟩

variable {outer body : Body} {c c' d d' : Construction}

theorem Under.put (h : Under outer c d) (t : Tree) : Under outer (c.put t) (d.put t) := by
  cases h with
  | top body =>
    have htop : Under outer _ _ := .top (body ++ [t])
    rwa [← List.append_assoc] at htop
  | inner h body o => exact .inner h (body ++ [t]) o

theorem Under.opened (h : Under outer c d) (o : Opening) :
    Under outer (c.opened o) (d.opened o) :=
  .inner h [] o

theorem Under.close (h : Under outer c d) {word : Control} (hd : d.close word = .ok d') :
    ∃ c', c.close word = .ok c' ∧ Under outer c' d' := by
  cases h with
  | top body => exact nomatch hd
  | inner h body o =>
    cases hclosed : closed? word o body with
    | none => simp [Construction.close, hclosed] at hd
    | some t =>
      simp only [Construction.close, hclosed, Except.ok.injEq] at hd ⊢
      subst hd
      exact ⟨_, rfl, h.put t⟩

theorem Under.otherwise (h : Under outer c d) (hd : d.otherwise = .ok d') :
    ∃ c', c.otherwise = .ok c' ∧ Under outer c' d' := by
  cases h with
  | top body => exact nomatch hd
  | inner h body o =>
    cases o with
    | consequent =>
      obtain rfl := Except.ok.inj hd
      exact ⟨_, rfl, .inner h [] _⟩
    | alternative consequent =>
      obtain rfl := Except.ok.inj hd
      exact ⟨_, rfl, .inner h body _⟩
    | counted => exact nomatch hd
    | untilTrue => exact nomatch hd

theorem Under.feed (h : Under outer c d) {a : Action} (hd : d.feed a = .ok d') :
    ∃ c', c.feed a = .ok c' ∧ Under outer c' d' := by
  cases a with
  | perform operation =>
    obtain rfl := Except.ok.inj hd
    exact ⟨_, rfl, h.put _⟩
  | control word =>
    cases word with
    | «if» | «do» | begin =>
      obtain rfl := Except.ok.inj hd
      exact ⟨_, rfl, h.opened _⟩
    | «else» => exact h.otherwise hd
    | «then» | loop | plusLoop | «until» => exact h.close hd
    | colon | semicolon | «variable» | constant => exact nomatch hd

theorem Under.compileRest (h : Under outer c d) {actions : List Action}
    (hd : d.compileRest actions = .ok body) :
    ∃ body', c.compileRest actions = .ok body' ∧ body = outer ++ body' := by
  induction actions generalizing c d with
  | nil =>
    cases h with
    | top body' => exact ⟨body', rfl, (Except.ok.inj hd).symm⟩
    | inner h body' o => exact nomatch hd
  | cons a actions ih =>
    obtain ⟨d', hfeed, hrest⟩ := compileRest_cons_ok hd
    obtain ⟨c', hfeed', h'⟩ := h.feed hfeed
    rw [compileRest_cons_of_feed hfeed']
    exact ih h' hrest

/-- What is compiled after a finished tree does not depend on that tree. -/
theorem compileRest_top {t : Tree} {actions : List Action}
    (h : compileRest ⟨[t], []⟩ actions = .ok body) :
    ∃ rest, compile actions = .ok rest ∧ body = t :: rest := by
  have hunder : Under [t] empty ⟨[t], []⟩ := .top []
  exact hunder.compileRest h

/-! ## The outermost structure -/

/-- The outermost open structure is the first thing in the outermost body. -/
inductive Rooted : Construction → Prop
  | root (body : Body) (o : Opening) : Rooted ⟨body, [(o, [])]⟩
  | inner {b : Body} {enclosing : List (Opening × Body)} (h : Rooted ⟨b, enclosing⟩) (body : Body)
    (o : Opening) : Rooted ⟨body, (o, b) :: enclosing⟩

theorem Rooted.put (h : Rooted c) (t : Tree) : Rooted (c.put t) := by
  cases h with
  | root body o => exact .root (body ++ [t]) o
  | inner h body o => exact .inner h (body ++ [t]) o

theorem Rooted.enclosing_ne_nil (h : Rooted c) : c.enclosing ≠ [] := by
  cases h with
  | root body o => exact nofun
  | inner h body o => exact nofun

theorem Rooted.close (h : Rooted c) {word : Control} (hc : c.close word = .ok c') :
    Rooted c' ∨ ∃ t, c' = ⟨[t], []⟩ := by
  cases h with
  | root body o =>
    cases hclosed : closed? word o body with
    | none => simp [Construction.close, hclosed] at hc
    | some t =>
      simp only [Construction.close, hclosed, Except.ok.injEq] at hc
      exact .inr ⟨t, hc.symm⟩
  | inner h body o =>
    cases hclosed : closed? word o body with
    | none => simp [Construction.close, hclosed] at hc
    | some t =>
      simp only [Construction.close, hclosed, Except.ok.injEq] at hc
      subst hc
      exact .inl (h.put t)

theorem Rooted.otherwise (h : Rooted c) (hc : c.otherwise = .ok c') : Rooted c' := by
  cases h with
  | root body o =>
    cases o with
    | consequent =>
      obtain rfl := Except.ok.inj hc
      exact .root [] _
    | alternative consequent =>
      obtain rfl := Except.ok.inj hc
      exact .root body _
    | counted => exact nomatch hc
    | untilTrue => exact nomatch hc
  | inner h body o =>
    cases o with
    | consequent =>
      obtain rfl := Except.ok.inj hc
      exact .inner h [] _
    | alternative consequent =>
      obtain rfl := Except.ok.inj hc
      exact .inner h body _
    | counted => exact nomatch hc
    | untilTrue => exact nomatch hc

/-- An action leaves the outermost structure open, or closes it as a single tree. -/
theorem Rooted.feed (h : Rooted c) {a : Action} (hc : c.feed a = .ok c') :
    Rooted c' ∨ ∃ t, c' = ⟨[t], []⟩ := by
  cases a with
  | perform operation =>
    obtain rfl := Except.ok.inj hc
    exact .inl (h.put _)
  | control word =>
    cases word with
    | «if» | «do» | begin =>
      obtain rfl := Except.ok.inj hc
      exact .inl (.inner h [] _)
    | «else» => exact .inl (h.otherwise hc)
    | «then» | loop | plusLoop | «until» => exact h.close hc
    | colon | semicolon | «variable» | constant => exact nomatch hc

/-- The first control word of a body opens a structure. -/
theorem rooted_of_feed_empty {word : Control} (h : empty.feed (.control word) = .ok c) :
    word.isOpener = true ∧ Rooted c ∧ c.enclosing.length = 1 := by
  cases word with
  | «if» | «do» | begin =>
    obtain rfl := Except.ok.inj h
    exact ⟨rfl, .root [] _, rfl⟩
  | _ => exact nomatch h

theorem length_close {word : Control} (h : c.close word = .ok c') :
    c'.enclosing.length = c.enclosing.length - 1 := by
  obtain ⟨body, enclosing⟩ := c
  cases enclosing with
  | nil => exact nomatch h
  | cons e enclosing =>
    cases hclosed : closed? word e.1 body with
    | none => simp [Construction.close, hclosed] at h
    | some t =>
      simp only [Construction.close, hclosed, Except.ok.injEq] at h
      subst h
      rfl

theorem length_otherwise (h : c.otherwise = .ok c') :
    c'.enclosing.length = c.enclosing.length := by
  obtain ⟨body, enclosing⟩ := c
  obtain _ | ⟨⟨o, outer⟩, enclosing⟩ := enclosing
  · exact nomatch h
  · cases o with
    | consequent =>
      obtain rfl := Except.ok.inj h
      rfl
    | alternative consequent =>
      obtain rfl := Except.ok.inj h
      rfl
    | counted => exact nomatch h
    | untilTrue => exact nomatch h

/-- Outside of definitions the open structures are only counted, and the count is right. -/
theorem depthAfter_of_feed {a : Action} (h : c.feed a = .ok c') :
    Session.depthAfter c.enclosing.length a = c'.enclosing.length := by
  cases a with
  | perform operation =>
    obtain rfl := Except.ok.inj h
    rfl
  | control word =>
    cases word with
    | «if» | «do» | begin =>
      obtain rfl := Except.ok.inj h
      rfl
    | «else» => exact (length_otherwise h).symm
    | «then» | loop | plusLoop | «until» => exact (length_close h).symm
    | colon | semicolon | «variable» | constant => exact nomatch h

end Construction

/-- The body begins with what an operation does. -/
theorem compile_perform {operation : Operation} {actions : List Action} {body : Body}
    (h : compile (.perform operation :: actions) = .ok body) :
    ∃ rest, compile actions = .ok rest ∧ body = .leaf operation :: rest :=
  Construction.compileRest_top h

end Forth
