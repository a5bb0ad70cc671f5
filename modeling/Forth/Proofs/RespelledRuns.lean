import Forth.Proofs.Replies
import Forth.Proofs.Respelled

/-!
# Runs that are spelled differently

Sessions that differ only in spelling go on together: one step leaves them that way
(`Session.Respelled.tick`), and so do the calls of a host whose lines differ only in spelling
(`Session.Respelled.replies`).

A step is compared in two halves.  With the same program on machines that differ in spelling, it does
the same as the words of the language look at neither (`Alike.advance`).  With programs that differ in
spelling on the same machine, each thing that a step can do has its counterpart
(`Advanced.respelled`).
-/

namespace Forth.Session

variable {S : String → String → Prop} {s s' t t' u : Session}

/-! ## Programs that differ in spelling -/

/-- The same result but for spelling, on the same machine. -/
inductive SameOutcome (S : String → String → Prop) {α : Type} :
    EStateM.Result Error Session α → EStateM.Result Error Session α → Prop
  | ok {x : α} {t t' : Session} (h : SameProgram S t t') (hmachine : t'.machine = t.machine) :
    SameOutcome S (.ok x t) (.ok x t')
  | error {e e' : Error} {t t' : Session} (he : Error.Respelled S e e') (h : SameProgram S t t')
    (hmachine : t'.machine = t.machine) : SameOutcome S (.error e t) (.error e' t')

namespace SameProgram

theorem setMachine (h : SameProgram S s s') (m m' : Machine) :
    SameProgram S { s with machine := m } { s' with machine := m' } :=
  ⟨h.dictionary, h.line, h.returnDepth, h.frames, h.gathering, h.lastError⟩

theorem setGathering {g g' : Gathering} (h : SameProgram S s s') (hg : Gathering.Respelled g g') :
    SameProgram S { s with gathering := g } { s' with gathering := g' } :=
  ⟨h.dictionary, h.line, h.returnDepth, h.frames, hg, h.lastError⟩

theorem setLine {line line' : Option (List Char)} (h : SameProgram S s s')
    (hline : Option.Rel (SameTokens S) line line') :
    SameProgram S { s with line } { s' with line := line' } :=
  ⟨h.dictionary, hline, h.returnDepth, h.frames, h.gathering, h.lastError⟩

theorem setFrames {frames frames' : List Frame} (h : SameProgram S s s')
    (hframes : frames'.map Frame.lowered = frames.map Frame.lowered) :
    SameProgram S { s with frames } { s' with frames := frames' } :=
  ⟨h.dictionary, h.line, h.returnDepth, hframes, h.gathering, h.lastError⟩

theorem define {name name' : String} {meaning meaning' : Meaning} (h : SameProgram S s s')
    (hname : Text.lowerCase name' = Text.lowerCase name)
    (hmeaning : meaning'.lowered = meaning.lowered) :
    SameProgram S (s.define name meaning) (s'.define name' meaning') := by
  refine ⟨?_, h.line, h.returnDepth, h.frames, h.gathering, h.lastError⟩
  show Dictionary.lowered (Dictionary.add _ _ _) = Dictionary.lowered (Dictionary.add _ _ _)
  have hrest := h.dictionary
  unfold Dictionary.lowered at hrest ⊢
  rw [Dictionary.add, Dictionary.add, List.map_cons, List.map_cons, hname, hmeaning, hrest]

end SameProgram

theorem gathering_eq_nothing (h : SameProgram S s s') (hg : s.gathering = .nothing) :
    s'.gathering = .nothing := by
  have hgathering := h.gathering
  rw [hg] at hgathering
  generalize s'.gathering = g at hgathering
  cases hgathering
  rfl

theorem exists_gathering_definition {name : String} {actions : List Action}
    (h : SameProgram S s s') (hg : s.gathering = .definition name actions) :
    ∃ name' actions', s'.gathering = .definition name' actions' ∧
      Text.lowerCase name' = Text.lowerCase name ∧
      actions'.map Action.lowered = actions.map Action.lowered := by
  have hgathering := h.gathering
  rw [hg] at hgathering
  generalize s'.gathering = g at hgathering
  cases hgathering with
  | definition hname hactions => exact ⟨_, _, rfl, hname, hactions⟩

theorem exists_gathering_block {actions : List Action} {depth : Nat}
    (h : SameProgram S s s') (hg : s.gathering = .block actions depth) :
    ∃ actions', s'.gathering = .block actions' depth ∧
      actions'.map Action.lowered = actions.map Action.lowered := by
  have hgathering := h.gathering
  rw [hg] at hgathering
  generalize s'.gathering = g at hgathering
  cases hgathering with
  | block hactions => exact ⟨_, rfl, hactions⟩

theorem map_lowered_snoc {actions actions' : List Action} {a a' : Action}
    (h : actions'.map Action.lowered = actions.map Action.lowered) (ha : a'.lowered = a.lowered) :
    (actions' ++ [a']).map Action.lowered = (actions ++ [a]).map Action.lowered := by
  simp only [List.map_append, List.map_singleton, h, ha]

/-- What comes of an action has a counterpart in a session that differs in spelling. -/
theorem Dispatched.respelled {a a' : Action} {r : EStateM.Result Error Session Unit}
    (hS : Spells S) (huses : a.UsesOnly Primitive.Unaware) (hs : SameProgram S s s')
    (hmachine : s'.machine = s.machine) (ha : a'.lowered = a.lowered) (h : Dispatched s a r) :
    ∃ r', Dispatched s' a' r' ∧ SameOutcome S r r' := by
  have hdepth (depth : Nat) : depthAfter depth a' = depthAfter depth a := by
    rw [← Action.depthAfter_lowered, ha, Action.depthAfter_lowered]
  -- The list of what can come of an action is gone through: the session with the other spelling is
  -- in the same state of gathering, and the same item of the list holds for it.
  cases h with
  | @gathered name actions _ hg hother =>
    obtain ⟨name', actions', hg', hname, hactions⟩ := exists_gathering_definition hs hg
    have hother' : a' ≠ .control .semicolon := by
      rintro rfl
      exact hother (Action.eq_control_of_lowered ha.symm)
    exact ⟨_, .gathered hg' hother',
      .ok (hs.setGathering (.definition hname (map_lowered_snoc hactions ha))) hmachine⟩
  | defined hg hbody =>
    obtain ⟨name', actions', hg', hname, hactions⟩ := exists_gathering_definition hs hg
    obtain ⟨body', hbody', hlowered⟩ := compile_ok_of_lowered hactions hbody
    obtain rfl := Action.eq_control_of_lowered ha
    refine ⟨_, .defined hg' hbody', .ok ((hs.setGathering .nothing).define hname ?_) hmachine⟩
    simp only [Meaning.lowered, Definition.lowered, hlowered]
  | undefined hg he =>
    obtain ⟨name', actions', hg', hname, hactions⟩ := exists_gathering_definition hs hg
    obtain rfl := Action.eq_control_of_lowered ha
    exact ⟨_, .undefined hg' (compile_error_of_lowered hactions he),
      .error (.same (isMissingWord_of_compile he)) (hs.setGathering .nothing) hmachine⟩
  | nested hg hopen =>
    obtain ⟨actions', hg', hactions⟩ := exists_gathering_block hs hg
    refine ⟨_, .nested hg' (by rwa [hdepth]), .ok ?_ hmachine⟩
    rw [hdepth]
    exact hs.setGathering (.block (map_lowered_snoc hactions ha))
  | closed hg hzero hbody =>
    obtain ⟨actions', hg', hactions⟩ := exists_gathering_block hs hg
    obtain ⟨body', hbody', hlowered⟩ := compile_ok_of_lowered (map_lowered_snoc hactions ha) hbody
    refine ⟨_, .closed hg' (by rwa [hdepth]) hbody', .ok ?_ hmachine⟩
    refine (hs.setGathering .nothing).setFrames ?_
    simp only [List.map_cons, Frame.lowered, hlowered, hs.frames]
  | unbalanced hg hzero he =>
    obtain ⟨actions', hg', hactions⟩ := exists_gathering_block hs hg
    exact ⟨_, .unbalanced hg' (by rwa [hdepth])
      (compile_error_of_lowered (map_lowered_snoc hactions ha) he),
      .error (.same (isMissingWord_of_compile he)) (hs.setGathering .nothing) hmachine⟩
  | @performed operation frames m hg h =>
    obtain ⟨operation', rfl, hoperation⟩ := Action.exists_perform_of_lowered ha
    have hsame := perform_sameFrames hoperation s.machine
    rw [h, ← hmachine] at hsame
    generalize hr : operation'.perform.run s'.machine = r' at hsame
    cases hsame with
    | @ok _ frames' _ hframes =>
      have hall : (frames' ++ s'.frames).map Frame.lowered =
          (frames ++ s.frames).map Frame.lowered := by
        rw [List.map_append, List.map_append, hframes, hs.frames]
      exact ⟨_, .performed (gathering_eq_nothing hs hg) hr,
        .ok ((hs.setMachine m m).setFrames hall) rfl⟩
  | @failed operation e m hg h =>
    obtain ⟨operation', rfl, hoperation⟩ := Action.exists_perform_of_lowered ha
    have hsame := perform_sameFrames hoperation s.machine
    rw [h, ← hmachine] at hsame
    generalize hr : operation'.perform.run s'.machine = r' at hsame
    -- Only a word that is not known is told in its own spelling, and none of the words that run
    -- fail in that way.
    have hknown : e.isMissingWord = false :=
      (Operation.UsesOnly.perform_yields (fun _ hp => Primitive.Unaware.yields hp)
        (fun _ he => he.isMissingWord) huses).error h
    cases hsame with
    | error =>
      exact ⟨_, .failed (gathering_eq_nothing hs hg) hr,
        .error (.same hknown) (hs.setMachine m m) rfl⟩
  | opened hg hc =>
    obtain rfl := Action.eq_control_of_lowered ha
    exact ⟨_, .opened (gathering_eq_nothing hs hg) hc,
      .ok (hs.setGathering (.block rfl)) hmachine⟩
  | misplaced hg hc hname =>
    obtain rfl := Action.eq_control_of_lowered ha
    exact ⟨_, .misplaced (gathering_eq_nothing hs hg) hc hname, .error (.same rfl) hs hmachine⟩
  -- From here on a name is taken off the line, which is spelled differently there and means the
  -- same entry.
  | colon hg hname =>
    obtain rfl := Action.eq_control_of_lowered ha
    obtain ⟨name', rest', hname', hspelled, hrest⟩ := nextWord_of_sameTokens hs.line hname
    exact ⟨_, .colon (gathering_eq_nothing hs hg) hname',
      .ok ((hs.setLine (.some hrest)).setGathering (.definition (hS.lowerCase hspelled) rfl))
        hmachine⟩
  | «variable» hg hname =>
    obtain rfl := Action.eq_control_of_lowered ha
    obtain ⟨name', rest', hname', hspelled, hrest⟩ := nextWord_of_sameTokens hs.line hname
    refine ⟨_, .variable (gathering_eq_nothing hs hg) hname', .ok ?_ ?_⟩
    · simp only [addVariable, Memory.addVariable, hmachine]
      exact ((hs.setLine (.some hrest)).setMachine _ _).define (hS.lowerCase hspelled) rfl
    · simp only [addVariable, Memory.addVariable, addConstant, Session.define, hmachine,
        hS.lowerCase hspelled]
  | constant hg hname hdata =>
    obtain rfl := Action.eq_control_of_lowered ha
    obtain ⟨name', rest', hname', hspelled, hrest⟩ := nextWord_of_sameTokens hs.line hname
    refine ⟨_, .constant (gathering_eq_nothing hs hg) hname' (hmachine ▸ hdata), .ok ?_ ?_⟩
    · exact ((hs.setLine (.some hrest)).setMachine _ _).define (hS.lowerCase hspelled) rfl
    · simp only [addConstant, Session.define, hmachine]
  | valueless hg hname hdata =>
    obtain rfl := Action.eq_control_of_lowered ha
    obtain ⟨name', rest', hname', -, hrest⟩ := nextWord_of_sameTokens hs.line hname
    exact ⟨_, .valueless (gathering_eq_nothing hs hg) hname' (hmachine ▸ hdata),
      .error (.same rfl) (hs.setLine (.some hrest)) hmachine⟩
  | nameless hg hname hline =>
    obtain rfl := Action.eq_control_of_lowered ha
    exact ⟨_, .nameless (gathering_eq_nothing hs hg) hname
      (no_next?_of_sameTokens hs.line hline), .error (.same rfl) hs hmachine⟩
  | misnamed hg hname hline =>
    obtain rfl := Action.eq_control_of_lowered ha
    obtain ⟨_, rest', hname', htoken, hrest⟩ := next?_of_sameTokens hs.line hline
    cases htoken with
    | string text =>
      exact ⟨_, .misnamed (gathering_eq_nothing hs hg) hname hname',
        .error (.same rfl) (hs.setLine (.some hrest)) hmachine⟩

/-- What comes of a step has a counterpart in a session that differs in spelling. -/
theorem Advanced.respelled {r : EStateM.Result Error Session Bool} (hS : Spells S)
    (huses : s.UsesOnly Primitive.Unaware) (hs : SameProgram S s s')
    (hmachine : s'.machine = s.machine) (h : Advanced s r) :
    ∃ r', Advanced s' r' ∧ SameOutcome S r r' := by
  have hempty (hframes : s.frames = []) : s'.frames = [] := by
    have hsame := hs.frames
    rwa [hframes, List.map_nil, List.map_eq_nil_iff] at hsame
  have hcons {f : Frame} {below : List Frame} (hframes : s.frames = f :: below) :
      ∃ f' below', s'.frames = f' :: below' ∧ f'.lowered = f.lowered ∧
        below'.map Frame.lowered = below.map Frame.lowered := by
    have hsame := hs.frames
    rwa [hframes, List.map_cons, List.map_eq_cons_iff] at hsame
  -- Steps of frames do not look at the line, and steps that take a token find the same token but
  -- for its spelling.
  cases h with
  | @frame f below frames m hframes h =>
    obtain ⟨f', below', hframes', hf, hbelow⟩ := hcons hframes
    have hsame := step_sameFrames hf hbelow s.machine
    rw [h, ← hmachine] at hsame
    generalize hr : (f'.step below').run s'.machine = r' at hsame
    cases hsame with
    | ok hnext => exact ⟨_, .frame hframes' hr, .ok ((hs.setMachine m m).setFrames hnext) rfl⟩
  | @frameFailed f below e m hframes h =>
    obtain ⟨f', below', hframes', hf, hbelow⟩ := hcons hframes
    have hsame := step_sameFrames hf hbelow s.machine
    rw [h, ← hmachine] at hsame
    generalize hr : (f'.step below').run s'.machine = r' at hsame
    have hf : f.UsesOnly Primitive.Unaware := huses.frames f (by simp [hframes])
    have hknown : e.isMissingWord = false :=
      (hf.step_yields (fun _ hp => Primitive.Unaware.yields hp) (fun _ he => he.isMissingWord)
        below).error h
    cases hsame with
    | error =>
      exact ⟨_, .frameFailed hframes' hr, .error (.same hknown) (hs.setMachine m m) rfl⟩
  | finished hframes hline =>
    exact ⟨_, .finished (hempty hframes) (no_next?_of_sameTokens hs.line hline), .ok hs hmachine⟩
  | unknown hframes hline ht =>
    obtain ⟨_, rest', hline', htoken, hrest⟩ := next?_of_sameTokens hs.line hline
    obtain ⟨e', he', hspelled⟩ := htoken.resolve_error hS hs.dictionary ht
    exact ⟨_, .unknown (hempty hframes) hline' he',
      .error hspelled (hs.setLine (.some hrest)) hmachine⟩
  | dispatched hframes hline ht h =>
    obtain ⟨_, rest', hline', htoken, hrest⟩ := next?_of_sameTokens hs.line hline
    obtain ⟨a', ha', hlowered⟩ := htoken.resolve_ok hS hs.dictionary ht
    obtain ⟨r', h', hsame⟩ := h.respelled hS (Token.resolve_usesOnly huses.dictionary ht)
      (hs.setLine (.some hrest)) hmachine hlowered
    cases hsame with
    | ok hnext hmachine' =>
      exact ⟨_, .dispatched (hempty hframes) hline' ha' h', .ok hnext hmachine'⟩
  | refused hframes hline ht h =>
    obtain ⟨_, rest', hline', htoken, hrest⟩ := next?_of_sameTokens hs.line hline
    obtain ⟨a', ha', hlowered⟩ := htoken.resolve_ok hS hs.dictionary ht
    obtain ⟨r', h', hsame⟩ := h.respelled hS (Token.resolve_usesOnly huses.dictionary ht)
      (hs.setLine (.some hrest)) hmachine hlowered
    cases hsame with
    | error hspelled hnext hmachine' =>
      exact ⟨_, .refused (hempty hframes) hline' ha' h', .error hspelled hnext hmachine'⟩

/-! ## One step -/

/-- The same result but for spelling. -/
inductive Outcome (S : String → String → Prop) {α : Type} :
    EStateM.Result Error Session α → EStateM.Result Error Session α → Prop
  | ok {x : α} {t t' : Session} (h : Respelled S t t') : Outcome S (.ok x t) (.ok x t')
  | error {e e' : Error} {t t' : Session} (he : Error.Respelled S e e') (h : Respelled S t t') :
    Outcome S (.error e t) (.error e' t')

/-- The same session up to its machine, and then the same program up to its spelling. -/
theorem Respelled.of_alike {P : Primitive → Prop} (h : Alike (Machine.Respelled S) P s t)
    (ht : SameProgram S t t') (hmachine : t'.machine = t.machine) : Respelled S s t' := by
  have hm := h.machine
  rw [h.rest] at ht
  exact ⟨⟨ht.dictionary, ht.line, ht.returnDepth, ht.frames, ht.gathering, ht.lastError⟩,
    hmachine ▸ hm⟩

theorem Respelled.advance (hS : Spells S) (huses : s.UsesOnly Primitive.Unaware)
    (h : Respelled S s s') : Outcome S (advance.run s) (advance.run s') := by
  have halike : Alike (Machine.Respelled S) Primitive.Unaware s { s with machine := s'.machine } :=
    ⟨h.machine, rfl, huses⟩
  have hfirst := halike.advance Machine.Respelled.congruence fun p _ hp =>
    (nextPrimitive?_usesOnly huses hp).respects
  have huses' : ({ s with machine := s'.machine } : Session).UsesOnly Primitive.Unaware :=
    huses.onMachine fun _ => s'.machine
  obtain ⟨r', hr', hsecond⟩ := (advance_spec { s with machine := s'.machine }).respelled hS huses'
    (h.toSameProgram.setMachine s'.machine s'.machine) rfl
  rw [hr'.run_eq] at *
  generalize Session.advance.run s = r,
    Session.advance.run { s with machine := s'.machine } = r₁ at hfirst hsecond
  cases hfirst with
  | ok _ ht =>
    cases hsecond with
    | ok ht' hmachine => exact .ok (.of_alike ht ht' hmachine)
  | error ht =>
    cases hsecond with
    | error he ht' hmachine => exact .error he (.of_alike ht ht' hmachine)

/-- A step to sessions that differ in spelling, or the end of both with replies that do. -/
inductive SteppedAlike (S : String → String → Prop) :
    Progress Session (Reply × Session) → Progress Session (Reply × Session) → Prop
  | more {t t' : Session} (h : Respelled S t t') : SteppedAlike S (.more t) (.more t')
  | done {reply reply' : Reply} {t t' : Session} (hreply : Reply.Respelled S reply reply')
    (h : Respelled S t t') : SteppedAlike S (.done (reply, t)) (.done (reply', t'))

theorem Respelled.abandon {e e' : Error} (h : Respelled S s s') (he : Error.Respelled S e e') :
    Respelled S (s.abandon e).2 (s'.abandon e').2 where
  dictionary := h.dictionary
  line := .none
  returnDepth := h.returnDepth
  frames := rfl
  gathering := .nothing
  lastError := .inr (.some he)
  machine := by
    have hreturns := Machine.Respelled.congruence.returns h.machine
    have hcleared := Machine.Respelled.congruence.setReturns
      (s.machine.returns.truncate s.returnDepth)
      (Machine.Respelled.survivesWait none _ _ h.machine)
    simp only [Session.abandon, hreturns, h.returnDepth]
    exact Machine.Respelled.printError hcleared he

theorem Respelled.finishLine (h : Respelled S s s') :
    SteppedAlike S (.done s.finishLine) (.done s'.finishLine) := by
  have hended := h.toSameProgram.setLine .none
  unfold Session.finishLine
  cases hg : s.gathering with
  | block actions depth =>
    obtain ⟨actions', hg', -⟩ := exists_gathering_block h.toSameProgram hg
    rw [hg']
    exact .done (.error (.same rfl)) (h.abandon (.same rfl))
  | definition name actions =>
    obtain ⟨name', actions', hg', -⟩ := exists_gathering_definition h.toSameProgram hg
    rw [hg, hg'] at hended
    rw [hg']
    exact .done (.ok .defining) ⟨hended, h.machine⟩
  | nothing =>
    have hg' := gathering_eq_nothing h.toSameProgram hg
    rw [hg, hg'] at hended
    rw [hg']
    exact .done (.ok .ok) ⟨hended.setMachine _ _,
      Machine.Respelled.congruence.print " ok" h.machine⟩

theorem Respelled.wait (h : Respelled S s s') : s'.machine.wait = s.machine.wait :=
  Machine.Respelled.congruence.wait h.machine

/-- Sessions that differ in spelling take the same step. -/
theorem Respelled.tick (hS : Spells S) (huses : s.UsesOnly Primitive.Unaware)
    (h : Respelled S s s') : SteppedAlike S s.tick s'.tick := by
  have hadvance := h.advance hS huses
  unfold Session.tick
  rw [h.wait]
  cases hwait : s.machine.wait with
  | some w => exact .done (.ok _) h
  | none =>
    generalize Session.advance.run s = r, Session.advance.run s' = r' at hadvance
    cases hadvance with
    | @ok goesOn t t' ht =>
      cases goesOn with
      | true => exact .more ht
      | false => exact ht.finishLine
    | error he ht => exact .done (.error he) (ht.abandon he)

theorem Respelled.startLine {text text' : String} (h : Respelled S s s')
    (htext : SameTokens S text.toList text'.toList) :
    Respelled S (s.startLine text) (s'.startLine text') where
  dictionary := h.dictionary
  line := .some htext
  returnDepth := congrArg List.length (Machine.Respelled.congruence.returns h.machine)
  frames := h.frames
  gathering := h.gathering
  lastError := h.lastError
  machine := h.machine

theorem Respelled.tickAll (hS : Spells S) (huses : s.UsesOnly Primitive.Unaware)
    (h : Respelled S s s') : SteppedAlike S s.tickAll s'.tickAll := by
  have hstep := h.tick hS huses
  unfold Session.tickAll
  generalize s.tick = r, s'.tick = r' at hstep
  cases hstep with
  | more ht => exact .more ht
  | @done reply reply' t t' hreply ht =>
    have hqueues := ht.machine.queue
    simp only [ht.wait]
    cases hwait : t.machine.wait with
    | some w => exact .done hreply ht
    | none =>
      cases hqueue : t.machine.queue with
      | nil =>
        rw [hqueue, List.forall₂_nil_left_iff] at hqueues
        simp only [hqueues]
        exact .done hreply ht
      | cons text queue =>
        rw [hqueue, List.forall₂_cons_left_iff] at hqueues
        obtain ⟨text', queue', htext, hrest, hqueue'⟩ := hqueues
        simp only [hqueue']
        refine .more (Respelled.startLine ?_ htext)
        exact ⟨ht.toSameProgram.setMachine _ _, ht.machine.setQueue hrest⟩

/-! ## Whole lines -/

theorem UsesOnly.tickAll {P : Primitive → Prop} (hs : s.UsesOnly P) :
    match s.tickAll with
    | .more t | .done (_, t) => t.UsesOnly P := by
  have htick := hs.tick
  have hspec := s.tickAll_spec
  generalize s.tickAll = r at hspec
  cases hspec with
  | more h | done h _ | next h _ _ =>
    rw [h] at htick
    exact ⟨htick.dictionary, htick.frames, htick.gathering⟩

/-- A line that ends has a counterpart that ends, for any kind of step that has counterparts. -/
theorem Respelled.ends {step : Session → Progress Session (Reply × Session)} {reply : Reply}
    (hstep : ∀ s s', s.UsesOnly Primitive.Unaware → Respelled S s s' →
      SteppedAlike S (step s) (step s'))
    (hkeeps : ∀ s, s.UsesOnly Primitive.Unaware →
      match step s with
      | .more t | .done (_, t) => t.UsesOnly Primitive.Unaware)
    (huses : s.UsesOnly Primitive.Unaware) (hs : Respelled S s s') (h : Ends step s (reply, t)) :
    t.UsesOnly Primitive.Unaware ∧ ∃ reply' t', Ends step s' (reply', t') ∧
      Reply.Respelled S reply reply' ∧ Respelled S t t' := by
  -- The result is a variable while the induction over the steps runs; the sessions stay alike at
  -- each step.
  generalize hr : (reply, t) = r at h
  induction h generalizing s' with
  | @done s _ h =>
    subst hr
    have hsame := hstep s s' huses hs
    have ht := hkeeps s huses
    rw [h] at hsame ht
    generalize hnext : step s' = r' at hsame
    cases hsame with
    | done hreply hrest => exact ⟨ht, _, _, .done hnext, hreply, hrest⟩
  | @more s _ _ h _ ih =>
    have hsame := hstep s s' huses hs
    have ht := hkeeps s huses
    rw [h] at hsame ht
    generalize hnext : step s' = r' at hsame
    cases hsame with
    | more hrest =>
      obtain ⟨ht, reply', t', hends, hreply, hlast⟩ := ih ht hrest hr
      exact ⟨ht, reply', t', .more hnext hends, hreply, hlast⟩

/-! ## Calls -/

/-- A call has a counterpart with the same reply but for spelling. -/
theorem Respelled.answers {c c' : Call} {reply : Reply} (hS : Spells S)
    (huses : s.UsesOnly Primitive.Unaware) (hs : Respelled S s s') (hc : Call.Respelled S c c')
    (h : s.Answers c reply t) :
    t.UsesOnly Primitive.Unaware ∧ ∃ reply' t', s'.Answers c' reply' t' ∧
      Reply.Respelled S reply reply' ∧ Respelled S t t' := by
  -- A line and an event that is awaited make the session run; a line that finds another one in
  -- progress, and an event that is refused, do not.
  cases hc with
  | @line text text' htext =>
    have hline := hs.line
    cases hl : s.line with
    | none =>
      rw [hl] at hline
      generalize hl' : s'.line = l' at hline
      cases hline
      obtain ⟨ht, reply', t', hends, hsame⟩ := Respelled.ends
        (fun _ _ huses h => h.tick hS huses) (fun _ huses => huses.tick) (huses.startLine text)
        (hs.startLine htext) ((answers_line_iff hl).1 h)
      exact ⟨ht, reply', t', (answers_line_iff hl').2 hends, hsame⟩
    | some l =>
      have hbusy : s.line ≠ none := by simp [hl]
      have hbusy' : s'.line ≠ none := by
        rw [hl] at hline
        generalize s'.line = l' at hline
        cases hline
        simp
      obtain ⟨rfl, rfl⟩ := (answers_line_of_busy_iff hbusy).1 h
      refine ⟨huses.onMachine _, _, _, (answers_line_of_busy_iff hbusy').2 ⟨rfl, rfl⟩, .ok _, ?_⟩
      exact ⟨hs.toSameProgram.setMachine _ _,
        hs.machine.setQueue (List.rel_append hs.machine.queue (.cons htext .nil))⟩
  | event e =>
    by_cases he : e.answers s.machine.wait
    · have he' : e.answers s'.machine.wait := by rwa [hs.wait]
      have hreceived : Respelled S (s.onMachine e.received) (s'.onMachine e.received) :=
        ⟨hs.toSameProgram.setMachine _ _, hs.machine.received e⟩
      obtain ⟨ht, reply', t', hends, hsame⟩ := Respelled.ends
        (fun _ _ huses h => h.tickAll hS huses) (fun _ huses => huses.tickAll)
        (huses.onMachine e.received) hreceived ((answers_event_iff he).1 h)
      exact ⟨ht, reply', t', (answers_event_iff he').2 hends, hsame⟩
    · have he' : ¬ e.answers s'.machine.wait := by rwa [hs.wait]
      have hrefusal : (Event.refusal s.machine.wait).isMissingWord = false := by
        cases s.machine.wait <;> rfl
      obtain ⟨rfl, rfl⟩ := (answers_refused_event_iff he).1 h
      exact ⟨huses, _, s', (answers_refused_event_iff he').2 ⟨by rw [hs.wait], rfl⟩,
        .error (.same hrefusal), hs⟩

/-- Calls that differ only in spelling have the same replies but for spelling, and the sessions that
they lead to differ only in spelling. -/
theorem Respelled.replies {calls calls' : List Call} {replies : List Reply} (hS : Spells S)
    (huses : s.UsesOnly Primitive.Unaware) (hs : Respelled S s s')
    (hcalls : List.Forall₂ (Call.Respelled S) calls calls') (h : Replies s calls replies t) :
    ∃ replies' t', Replies s' calls' replies' t' ∧
      List.Forall₂ (Reply.Respelled S) replies replies' ∧ Respelled S t t' := by
  induction h generalizing s' calls' with
  | nil s =>
    cases hcalls
    exact ⟨[], s', .nil s', .nil, hs⟩
  | cons h _ ih =>
    cases hcalls with
    | cons hc hcalls =>
      obtain ⟨ht, reply', t', hfirst, hreply, hnext⟩ := hs.answers hS huses hc h
      obtain ⟨replies', u', hrest, hreplies, hlast⟩ := ih ht hnext hcalls
      exact ⟨reply' :: replies', u', .cons hfirst hrest, .cons hreply hreplies, hlast⟩

end Forth.Session
