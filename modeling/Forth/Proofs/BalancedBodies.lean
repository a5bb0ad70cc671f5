import Forth.Proofs.PartialCompile

/-!
# The bodies that compile

A list of actions is a body if its control words are balanced: `if` goes with `then`, with any
number of `else` between them, `do` goes with `loop` or `+loop`, and `begin` goes with `until`.
`Parses` is that grammar, together with the trees that a body stands for.  It knows nothing of how
the compiler works.

The compiler reads the actions once, from left to right, and accepts exactly the bodies of the
grammar, with their trees.  Any other list is refused where the part that was read can no more be
extended to a body, and the next action tells how (`compile_iff_parses`).

What is read so far and the construction in progress are tied together by `Unfinished`: each open
structure contributes its opening word and what was parsed inside of it.
-/

namespace Forth

/-! ## The grammar -/

/-- The actions of the parts of a structure, with an `else` before each of them. -/
def elseParts (parts : List (List Action × Body)) : List Action :=
  parts.flatMap fun part => .control .else :: part.1

/-- The actions are a body that stands for these trees. -/
inductive Parses : List Action → Body → Prop
  | nil : Parses [] []
  | perform (operation : Operation) {rest : List Action} {body : Body} (hrest : Parses rest body) :
    Parses (.perform operation :: rest) (.leaf operation :: body)
  /-- The alternative is all that stands behind an `else`. -/
  | branch {first rest : List Action} {consequent body : Body} {parts : List (List Action × Body)}
    (hfirst : Parses first consequent) (hparts : ∀ part ∈ parts, Parses part.1 part.2)
    (hrest : Parses rest body) :
    Parses (.control .if :: first ++ elseParts parts ++ .control .then :: rest)
      (.branch consequent (parts.flatMap Prod.snd) :: body)
  | loop {inner rest : List Action} {round body : Body} (hinner : Parses inner round)
    (hrest : Parses rest body) :
    Parses (.control .do :: inner ++ .control .loop :: rest) (.counted round false :: body)
  | plusLoop {inner rest : List Action} {round body : Body} (hinner : Parses inner round)
    (hrest : Parses rest body) :
    Parses (.control .do :: inner ++ .control .plusLoop :: rest) (.counted round true :: body)
  | until {inner rest : List Action} {round body : Body} (hinner : Parses inner round)
    (hrest : Parses rest body) :
    Parses (.control .begin :: inner ++ .control .until :: rest) (.untilTrue round :: body)

theorem Parses.append {first second : List Action} {body body' : Body} (h : Parses first body)
    (h' : Parses second body') : Parses (first ++ second) (body ++ body') := by
  induction h with
  | nil => exact h'
  | perform operation _ ih => exact .perform operation ih
  | branch hfirst hparts _ _ _ ih =>
    have hbranch := Parses.branch hfirst hparts ih
    simpa only [List.append_assoc, List.cons_append] using hbranch
  | loop hinner _ _ ih =>
    have hloop := Parses.loop hinner ih
    simpa only [List.append_assoc, List.cons_append] using hloop
  | plusLoop hinner _ _ ih =>
    have hloop := Parses.plusLoop hinner ih
    simpa only [List.append_assoc, List.cons_append] using hloop
  | «until» hinner _ _ ih =>
    have hloop := Parses.until hinner ih
    simpa only [List.append_assoc, List.cons_append] using hloop

mutual

/-- The operations of a tree, in the order of its text. -/
def Tree.leaves : Tree → List Operation
  | .leaf operation => [operation]
  | .branch consequent alternative => Body.leaves consequent ++ Body.leaves alternative
  | .counted body _ | .untilTrue body => Body.leaves body

/-- The operations of a body, in the order of its text. -/
def Body.leaves : List Tree → List Operation
  | [] => []
  | t :: rest => t.leaves ++ Body.leaves rest

end

/-- The operation that an action performs, if it is no control word. -/
def Action.operation? : Action → Option Operation
  | perform operation => some operation
  | control _ => none

@[simp] theorem Action.filterMap_control (c : Control) (actions : List Action) :
    (control c :: actions).filterMap operation? = actions.filterMap operation? := rfl

theorem Body.leaves_append (body body' : Body) :
    Body.leaves (body ++ body') = Body.leaves body ++ Body.leaves body' := by
  induction body with
  | nil => rfl
  | cons t body ih =>
    rw [List.cons_append, Body.leaves, Body.leaves, ih, List.append_assoc]

theorem Body.leaves_flatMap {parts : List (List Action × Body)}
    (h : ∀ part ∈ parts, Body.leaves part.2 = part.1.filterMap Action.operation?) :
    Body.leaves (parts.flatMap Prod.snd) = (elseParts parts).filterMap Action.operation? := by
  induction parts with
  | nil => rfl
  | cons part parts ih =>
    have hpart := h part (.head _)
    have hparts := ih fun other hother => h other (.tail _ hother)
    simp only [elseParts, List.flatMap_cons, List.cons_append] at hparts ⊢
    rw [Body.leaves_append, hpart, hparts, Action.filterMap_control, List.filterMap_append]

/-- The trees of a body perform its operations in the order of the text: none is lost, none is moved
and none comes twice. -/
theorem Parses.leaves_eq {actions : List Action} {body : Body} (h : Parses actions body) :
    Body.leaves body = actions.filterMap Action.operation? := by
  induction h with
  | nil => rfl
  | perform operation _ ih =>
    rw [Body.leaves, ih]
    rfl
  | branch _ _ _ ihfirst ihparts ihrest =>
    rw [Body.leaves, Tree.leaves, ihfirst, Body.leaves_flatMap ihparts, ihrest]
    simp
  | loop _ _ ihinner ihrest | plusLoop _ _ ihinner ihrest | «until» _ _ ihinner ihrest =>
    rw [Body.leaves, Tree.leaves, ihinner, ihrest]
    simp

/-- A word that closes the structure. -/
def Opening.closer : Opening → Control
  | consequent | alternative _ => .then
  | counted => .loop
  | untilTrue => .until

namespace Construction

/-! ## Reading several actions -/

/-- Reading the actions one after the other leads from the first construction to the second. -/
def Reads (c : Construction) (actions : List Action) (d : Construction) : Prop :=
  actions.foldlM feed c = .ok d

variable {c d : Construction}

theorem Reads.nil (c : Construction) : Reads c [] c := rfl

theorem reads_cons_iff {a : Action} {actions : List Action} :
    Reads c (a :: actions) d ↔ ∃ e, c.feed a = .ok e ∧ Reads e actions d := by
  unfold Reads
  rw [List.foldlM_cons]
  cases hfeed : c.feed a with
  | error e => simp [bind, Except.bind]
  | ok e => simp [bind, Except.bind]

theorem reads_append_iff {first second : List Action} :
    Reads c (first ++ second) d ↔ ∃ e, Reads c first e ∧ Reads e second d := by
  induction first generalizing c with
  | nil =>
    constructor
    · intro h
      exact ⟨c, .nil c, h⟩
    · rintro ⟨e, he, h⟩
      obtain rfl := Except.ok.inj he
      exact h
  | cons a first ih =>
    simp only [List.cons_append, reads_cons_iff, ih]
    constructor
    · rintro ⟨e, hfeed, f, hfirst, hsecond⟩
      exact ⟨f, ⟨e, hfeed, hfirst⟩, hsecond⟩
    · rintro ⟨f, ⟨e, hfeed, hfirst⟩, hsecond⟩
      exact ⟨e, hfeed, f, hfirst, hsecond⟩

theorem Reads.cons {e : Construction} {a : Action} {actions : List Action}
    (h : c.feed a = .ok e) (hrest : Reads e actions d) : Reads c (a :: actions) d :=
  reads_cons_iff.2 ⟨e, h, hrest⟩

theorem Reads.append {e : Construction} {first second : List Action} (h : Reads c first e)
    (h' : Reads e second d) : Reads c (first ++ second) d :=
  reads_append_iff.2 ⟨e, h, h'⟩

theorem Reads.unique {e : Construction} {actions : List Action} (hd : Reads c actions d)
    (he : Reads c actions e) : d = e :=
  Except.ok.inj (hd.symm.trans he)

theorem compile_of_reads {actions : List Action} (h : Reads empty actions c) :
    compile actions = c.finish := by
  unfold compile
  rw [show actions.foldlM feed empty = .ok c from h]
  rfl

/-! ## Every body is read -/

/-- Whatever is in progress, a body adds its trees where the next tree is put. -/
theorem reads_of_parses {actions : List Action} {body : Body} (h : Parses actions body)
    (done : Body) (enclosing : List (Opening × Body)) :
    Reads ⟨done, enclosing⟩ actions ⟨done ++ body, enclosing⟩ := by
  induction h generalizing done enclosing with
  | nil =>
    rw [List.append_nil]
    exact .nil _
  | @perform operation rest body _ ih =>
    have hrest := ih (done ++ [.leaf operation]) enclosing
    rw [List.append_assoc] at hrest
    exact .cons rfl hrest
  | @branch first rest consequent body parts _ _ _ ihfirst ihparts ihrest =>
    -- The first `else` turns to the alternative, and each further one changes nothing.
    have hothers : ∀ (others : List (List Action × Body)), (∀ part ∈ others, part ∈ parts) →
        ∀ alternative : Body,
          Reads ⟨alternative, (.alternative consequent, done) :: enclosing⟩ (elseParts others)
            ⟨alternative ++ others.flatMap Prod.snd,
              (.alternative consequent, done) :: enclosing⟩ := by
      intro others hmem
      induction others with
      | nil =>
        intro alternative
        rw [List.flatMap_nil, List.append_nil]
        exact .nil _
      | cons part others ih =>
        intro alternative
        have hpart := ihparts part (hmem part (.head _)) alternative
          ((.alternative consequent, done) :: enclosing)
        have hrest := ih (fun other hother => hmem other (.tail _ hother)) (alternative ++ part.2)
        rw [List.append_assoc, ← List.flatMap_cons] at hrest
        exact .cons rfl (hpart.append hrest)
    have hinside : ∃ last, Reads ⟨consequent, (.consequent, done) :: enclosing⟩ (elseParts parts)
        last ∧ last.feed (.control .then) =
          .ok ⟨done ++ [.branch consequent (parts.flatMap Prod.snd)], enclosing⟩ := by
      cases parts with
      | nil => exact ⟨_, .nil _, rfl⟩
      | cons part others =>
        have hpart := ihparts part (.head _) [] ((.alternative consequent, done) :: enclosing)
        have hrest := hothers others (fun other hother => .tail _ hother) part.2
        exact ⟨_, .cons rfl (hpart.append hrest), rfl⟩
    obtain ⟨last, hlast, hthen⟩ := hinside
    have hfirst := ihfirst [] ((.consequent, done) :: enclosing)
    have hrest := ihrest (done ++ [.branch consequent (parts.flatMap Prod.snd)]) enclosing
    rw [List.append_assoc] at hrest
    exact .cons rfl ((hfirst.append hlast).append (.cons hthen hrest))
  | @loop inner rest round body _ _ ihinner ihrest =>
    have hinner := ihinner [] ((.counted, done) :: enclosing)
    have hrest := ihrest (done ++ [.counted round false]) enclosing
    rw [List.append_assoc] at hrest
    exact .cons rfl (hinner.append (.cons rfl hrest))
  | @plusLoop inner rest round body _ _ ihinner ihrest =>
    have hinner := ihinner [] ((.counted, done) :: enclosing)
    have hrest := ihrest (done ++ [.counted round true]) enclosing
    rw [List.append_assoc] at hrest
    exact .cons rfl (hinner.append (.cons rfl hrest))
  | @«until» inner rest round body _ _ ihinner ihrest =>
    have hinner := ihinner [] ((.untilTrue, done) :: enclosing)
    have hrest := ihrest (done ++ [.untilTrue round]) enclosing
    rw [List.append_assoc] at hrest
    exact .cons rfl (hinner.append (.cons rfl hrest))

/-! ## Whatever is read is part of a body -/

/-- The actions are what was read for a construction in progress. -/
inductive Unfinished : List Action → Construction → Prop
  | body {actions : List Action} {body : Body} (h : Parses actions body) :
    Unfinished actions ⟨body, []⟩
  | consequent {actions inner : List Action} {outer body : Body}
    {enclosing : List (Opening × Body)} (houter : Unfinished actions ⟨outer, enclosing⟩)
    (hinner : Parses inner body) :
    Unfinished (actions ++ .control .if :: inner) ⟨body, (.consequent, outer) :: enclosing⟩
  | alternative {actions first inner : List Action} {outer consequent body : Body}
    {parts : List (List Action × Body)} {enclosing : List (Opening × Body)}
    (houter : Unfinished actions ⟨outer, enclosing⟩) (hfirst : Parses first consequent)
    (hparts : ∀ part ∈ parts, Parses part.1 part.2) (hinner : Parses inner body) :
    Unfinished (actions ++ .control .if :: first ++ elseParts parts ++ .control .else :: inner)
      ⟨parts.flatMap Prod.snd ++ body, (.alternative consequent, outer) :: enclosing⟩
  | counted {actions inner : List Action} {outer body : Body}
    {enclosing : List (Opening × Body)} (houter : Unfinished actions ⟨outer, enclosing⟩)
    (hinner : Parses inner body) :
    Unfinished (actions ++ .control .do :: inner) ⟨body, (.counted, outer) :: enclosing⟩
  | untilTrue {actions inner : List Action} {outer body : Body}
    {enclosing : List (Opening × Body)} (houter : Unfinished actions ⟨outer, enclosing⟩)
    (hinner : Parses inner body) :
    Unfinished (actions ++ .control .begin :: inner) ⟨body, (.untilTrue, outer) :: enclosing⟩

/-- More of the innermost body is read. -/
theorem Unfinished.extend {actions more : List Action} {body body' : Body}
    {enclosing : List (Opening × Body)} (h : Unfinished actions ⟨body, enclosing⟩)
    (hmore : Parses more body') : Unfinished (actions ++ more) ⟨body ++ body', enclosing⟩ := by
  cases h with
  | body h => exact .body (h.append hmore)
  | consequent houter hinner =>
    rw [List.append_assoc, List.cons_append]
    exact .consequent houter (hinner.append hmore)
  | alternative houter hfirst hparts hinner =>
    rw [List.append_assoc, List.cons_append, List.append_assoc (List.flatMap _ _)]
    exact .alternative houter hfirst hparts (hinner.append hmore)
  | counted houter hinner =>
    rw [List.append_assoc, List.cons_append]
    exact .counted houter (hinner.append hmore)
  | untilTrue houter hinner =>
    rw [List.append_assoc, List.cons_append]
    exact .untilTrue houter (hinner.append hmore)

theorem mem_parts_append {parts : List (List Action × Body)} {inner : List Action} {body : Body}
    (hparts : ∀ part ∈ parts, Parses part.1 part.2) (hinner : Parses inner body) :
    ∀ part ∈ parts ++ [(inner, body)], Parses part.1 part.2 := by
  intro part hpart
  obtain hpart | hpart := List.mem_append.1 hpart
  · exact hparts part hpart
  · obtain rfl := List.mem_singleton.1 hpart
    exact hinner

theorem elseParts_append (parts : List (List Action × Body)) (inner : List Action) (body : Body) :
    elseParts (parts ++ [(inner, body)]) = elseParts parts ++ .control .else :: inner := by
  simp [elseParts]

/-- The word that closes a structure makes it a tree of the body around it. -/
theorem Unfinished.close {actions : List Action} {word : Control} (h : Unfinished actions c)
    (hclose : c.close word = .ok d) : Unfinished (actions ++ [.control word]) d := by
  obtain ⟨body, enclosing⟩ := c
  -- Each opening word has its own closing word, so most pairs are refused by `close`.
  cases h with
  | body h => exact nomatch hclose
  | @consequent actions inner outer body enclosing houter hinner =>
    cases word with
    | «then» =>
      obtain rfl := Except.ok.inj hclose
      have htree : Parses (.control .if :: inner ++ elseParts [] ++ [.control .then])
          [.branch body []] := .branch hinner (fun _ hpart => nomatch hpart) .nil
      simpa [elseParts] using houter.extend htree
    | _ => exact nomatch hclose
  | @alternative actions first inner outer consequent body parts enclosing houter hfirst hparts
      hinner =>
    cases word with
    | «then» =>
      obtain rfl := Except.ok.inj hclose
      have htree := Parses.branch hfirst (mem_parts_append hparts hinner) .nil
      rw [elseParts_append] at htree
      simpa using houter.extend htree
    | _ => exact nomatch hclose
  | @counted actions inner outer body enclosing houter hinner =>
    cases word with
    | loop =>
      obtain rfl := Except.ok.inj hclose
      simpa using houter.extend (.loop hinner .nil)
    | plusLoop =>
      obtain rfl := Except.ok.inj hclose
      simpa using houter.extend (.plusLoop hinner .nil)
    | _ => exact nomatch hclose
  | @untilTrue actions inner outer body enclosing houter hinner =>
    cases word with
    | «until» =>
      obtain rfl := Except.ok.inj hclose
      simpa using houter.extend (.until hinner .nil)
    | _ => exact nomatch hclose

theorem Unfinished.otherwise {actions : List Action} (h : Unfinished actions c)
    (hc : c.otherwise = .ok d) : Unfinished (actions ++ [.control .else]) d := by
  obtain ⟨body, enclosing⟩ := c
  cases h with
  | body h => exact nomatch hc
  | @consequent actions inner outer body enclosing houter hinner =>
    obtain rfl := Except.ok.inj hc
    have h : Unfinished (actions ++ .control .if :: inner ++ elseParts [] ++ [.control .else])
        ⟨[], (.alternative body, outer) :: enclosing⟩ :=
      .alternative houter hinner (fun _ hpart => nomatch hpart) .nil
    simpa [elseParts] using h
  | @alternative actions first inner outer consequent body parts enclosing houter hfirst hparts
      hinner =>
    -- What was read of the alternative counts as a part of its own from here on.
    obtain rfl := Except.ok.inj hc
    have h := Unfinished.alternative houter hfirst (mem_parts_append hparts hinner) .nil
    rw [elseParts_append] at h
    simpa using h
  | counted houter hinner => exact nomatch hc
  | untilTrue houter hinner => exact nomatch hc

theorem Unfinished.feed {actions : List Action} {a : Action} (h : Unfinished actions c)
    (hfeed : c.feed a = .ok d) : Unfinished (actions ++ [a]) d := by
  cases a with
  | perform operation =>
    obtain rfl := Except.ok.inj hfeed
    exact h.extend (.perform operation .nil)
  | control word =>
    cases word with
    | «if» =>
      obtain rfl := Except.ok.inj hfeed
      exact .consequent h .nil
    | «do» =>
      obtain rfl := Except.ok.inj hfeed
      exact .counted h .nil
    | begin =>
      obtain rfl := Except.ok.inj hfeed
      exact .untilTrue h .nil
    | «else» => exact h.otherwise hfeed
    | «then» | loop | plusLoop | «until» => exact h.close hfeed
    | colon | semicolon | «variable» | constant => exact nomatch hfeed

theorem Unfinished.reads {actions more : List Action} (h : Unfinished actions c)
    (hreads : Reads c more d) : Unfinished (actions ++ more) d := by
  induction more generalizing actions c with
  | nil =>
    obtain rfl := Except.ok.inj hreads
    rwa [List.append_nil]
  | cons a more ih =>
    obtain ⟨e, hfeed, hrest⟩ := reads_cons_iff.1 hreads
    rw [List.append_cons]
    exact ih (h.feed hfeed) hrest

theorem unfinished_of_reads {actions : List Action} (h : Reads empty actions c) :
    Unfinished actions c :=
  (Unfinished.body .nil).reads h

/-! ## Whatever is read can be finished -/

/-- The open structures can be closed one after the other. -/
theorem exists_reads_closed (body : Body) (enclosing : List (Opening × Body)) :
    ∃ more done, Reads ⟨body, enclosing⟩ more ⟨done, []⟩ := by
  induction enclosing generalizing body with
  | nil => exact ⟨[], body, .nil _⟩
  | cons e enclosing ih =>
    obtain ⟨o, outer⟩ := e
    obtain ⟨t, ht⟩ : ∃ t, (⟨body, (o, outer) :: enclosing⟩ : Construction).feed
        (.control o.closer) = .ok ⟨outer ++ [t], enclosing⟩ := by
      cases o <;> exact ⟨_, rfl⟩
    obtain ⟨more, done, hmore⟩ := ih (outer ++ [t])
    exact ⟨.control o.closer :: more, done, .cons ht hmore⟩

end Construction

open Construction

/-- The actions can be extended to a body. -/
def Viable (actions : List Action) : Prop :=
  ∃ more body, Parses (actions ++ more) body

/-- The construction is finished only if no structure is open. -/
theorem Construction.finish_eq_ok_iff {c : Construction} {body : Body} :
    c.finish = .ok body ↔ c = ⟨body, []⟩ := by
  obtain ⟨done, enclosing⟩ := c
  cases enclosing with
  | nil => simp [finish]
  | cons e enclosing => simp [finish]

theorem reads_empty_iff_parses {actions : List Action} {body : Body} :
    Reads empty actions ⟨body, []⟩ ↔ Parses actions body := by
  constructor
  · intro h
    cases unfinished_of_reads h with
    | body h => exact h
  · intro h
    exact reads_of_parses h [] []

theorem viable_iff_reads {actions : List Action} :
    Viable actions ↔ ∃ c, Reads empty actions c := by
  constructor
  · rintro ⟨more, body, h⟩
    obtain ⟨c, hc, -⟩ := reads_append_iff.1 (reads_empty_iff_parses.2 h)
    exact ⟨c, hc⟩
  · rintro ⟨⟨body, enclosing⟩, hc⟩
    obtain ⟨more, done, hmore⟩ := exists_reads_closed body enclosing
    exact ⟨more, done, reads_empty_iff_parses.1 (hc.append hmore)⟩

/-! ## Why a list is refused -/

/-- Why a list is refused that cannot be read beyond these actions: a word that has no meaning in
bodies is named. -/
def refusal : List Action → Error
  | .control c :: _ => if c.isInterpretOnly then .interpretOnly c.name else .unbalancedControl
  | _ => .unbalancedControl

theorem Construction.feed_error {c : Construction} {a : Action} {e : Error}
    (h : c.feed a = .error e) (rest : List Action) : e = refusal (a :: rest) := by
  cases a with
  | perform operation => exact nomatch h
  | control word =>
    have hclose {word : Control} (h : c.close word = .error e) : e = .unbalancedControl := by
      unfold close at h
      split at h
      · exact (Except.error.inj h).symm
      · split at h
        · exact (Except.error.inj h).symm
        · exact nomatch h
    have hotherwise (h : c.otherwise = .error e) : e = .unbalancedControl := by
      unfold Construction.otherwise at h
      split at h
      · exact nomatch h
      · exact nomatch h
      · exact (Except.error.inj h).symm
    cases word with
    | «if» | «do» | begin => exact nomatch h
    | «else» => exact hotherwise h
    | «then» | loop | plusLoop | «until» => exact hclose h
    | colon | semicolon | «variable» | constant => exact (Except.error.inj h).symm

/-- Reading goes on to the end, or stops at an action that is refused. -/
theorem reads_or_refused (c : Construction) (actions : List Action) :
    (∃ d, Reads c actions d) ∨
      ∃ p a rest d e, actions = p ++ a :: rest ∧ Reads c p d ∧ d.feed a = .error e ∧
        actions.foldlM feed c = .error e := by
  induction actions generalizing c with
  | nil => exact .inl ⟨c, .nil c⟩
  | cons a actions ih =>
    cases hfeed : c.feed a with
    | error e =>
      refine .inr ⟨[], a, actions, c, e, rfl, .nil c, hfeed, ?_⟩
      rw [List.foldlM_cons, hfeed]
      rfl
    | ok next =>
      obtain ⟨d, hd⟩ | ⟨p, b, rest, d, e, rfl, hp, hb, herror⟩ := ih next
      · exact .inl ⟨d, .cons hfeed hd⟩
      · refine .inr ⟨a :: p, b, rest, d, e, rfl, .cons hfeed hp, hb, ?_⟩
        rw [List.foldlM_cons, hfeed]
        exact herror

/-- The actions begin with `p`, and no longer part of them than `p` can be extended to a body. -/
structure LongestViable (actions p rest : List Action) : Prop where
  eq : actions = p ++ rest
  viable : Viable p
  longest : ∀ q, q <+: actions → Viable q → q <+: p

/-- What follows an action that is refused cannot help. -/
theorem longestViable_of_refused {p rest : List Action} {a : Action} {c : Construction} {e : Error}
    (hp : Reads empty p c) (ha : c.feed a = .error e) :
    LongestViable (p ++ a :: rest) p (a :: rest) where
  eq := rfl
  viable := viable_iff_reads.2 ⟨c, hp⟩
  longest := by
    intro q hq hviable
    obtain hshort | hlong := List.prefix_or_prefix_of_prefix hq (List.prefix_append p (a :: rest))
    · exact hshort
    · obtain ⟨more, rfl⟩ := hlong
      cases more with
      | nil => simp
      | cons b more =>
        obtain ⟨rfl, -⟩ : b = a ∧ more <+: rest :=
          List.cons_prefix_cons.1 ((List.prefix_append_right_inj p).1 hq)
        obtain ⟨d, hd⟩ := viable_iff_reads.1 hviable
        obtain ⟨c', hc', hrest⟩ := reads_append_iff.1 hd
        obtain ⟨next, hnext, -⟩ := reads_cons_iff.1 hrest
        obtain rfl := hp.unique hc'
        rw [ha] at hnext
        exact nomatch hnext

/-- A list that does not compile is unbalanced, or it holds a word that has no meaning in bodies. -/
theorem error_of_compile {actions : List Action} {e : Error} (h : compile actions = .error e) :
    e = .unbalancedControl ∨ ∃ c : Control, e = .interpretOnly c.name := by
  obtain ⟨c, hc⟩ | ⟨p, a, rest, d, e', rfl, hp, ha, herror⟩ := reads_or_refused empty actions
  · rw [compile_of_reads hc, finish] at h
    split at h
    · exact nomatch h
    · exact .inl (Except.error.inj h).symm
  · rw [compile, herror] at h
    obtain rfl : e' = e := Except.error.inj h
    rw [feed_error ha rest]
    cases a with
    | perform operation => exact .inl rfl
    | control c =>
      simp only [refusal]
      split
      · exact .inr ⟨c, rfl⟩
      · exact .inl rfl

/-- What compiles is a body of the grammar, with its trees. -/
theorem parses_of_compile {actions : List Action} {body : Body} (h : compile actions = .ok body) :
    Parses actions body := by
  rw [← reads_empty_iff_parses]
  obtain ⟨c, hc⟩ | ⟨p, a, rest, d, e, -, -, -, herror⟩ := reads_or_refused empty actions
  · rw [compile_of_reads hc] at h
    rwa [finish_eq_ok_iff.1 h] at hc
  · rw [compile, herror] at h
    exact nomatch h

/-- **Exactly the balanced bodies compile, to their trees.**  The trees perform the operations of
the body in the order of the text.  Any other list of actions is refused at the end of its longest
part that can be extended to a body: the word that follows there is named if it has no meaning in
bodies, and otherwise the list is unbalanced. -/
theorem compile_iff_parses (actions : List Action) :
    (∀ body, compile actions = .ok body ↔ Parses actions body) ∧
    (∀ body, compile actions = .ok body →
      Body.leaves body = actions.filterMap Action.operation?) ∧
    ((∃ body, compile actions = .ok body) ∨
      ∃ p rest, LongestViable actions p rest ∧ compile actions = .error (refusal rest)) := by
  have hok : ∀ body, compile actions = .ok body ↔ Parses actions body := by
    intro body
    rw [← reads_empty_iff_parses]
    constructor
    · intro h
      obtain ⟨c, hc⟩ | ⟨p, a, rest, d, e, -, -, -, herror⟩ := reads_or_refused empty actions
      · rw [compile_of_reads hc] at h
        rwa [finish_eq_ok_iff.1 h] at hc
      · rw [compile, herror] at h
        exact nomatch h
    · intro h
      rw [compile_of_reads h]
      rfl
  refine ⟨hok, fun body h => ((hok body).1 h).leaves_eq, ?_⟩
  obtain ⟨⟨body, enclosing⟩, hc⟩ | ⟨p, a, rest, d, e, rfl, hp, ha, herror⟩ :=
    reads_or_refused empty actions
  · cases enclosing with
    | nil => exact .inl ⟨body, compile_of_reads hc⟩
    | cons o enclosing =>
      -- All was read, but a structure is still open.
      refine .inr ⟨actions, [], ⟨(List.append_nil _).symm, viable_iff_reads.2 ⟨_, hc⟩,
        fun q hq _ => hq⟩, ?_⟩
      rw [compile_of_reads hc]
      rfl
  · refine .inr ⟨p, a :: rest, longestViable_of_refused hp ha, ?_⟩
    rw [compile, herror, feed_error ha rest]
    rfl

end Forth
