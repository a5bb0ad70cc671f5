import Forth.Proofs.BalancedBodies
import Forth.Proofs.DefinitionLine
import Forth.Proofs.LetterCase
import Forth.Proofs.Spelling
import Forth.Proofs.Yields

/-!
# Lines that are spelled differently

Two lines have the same tokens but for the spelling of their words, where a relation `S` tells which
words stand for each other.  All that the interpreter does with a word is to look up its lower case
and to read it as a numeral, so it is enough that these two are the same for words that stand for
each other (`Spells`).  Then sessions that differ only in spelling take the same step and differ only
in spelling again (`Respelled.advance`, `Respelled.tick`).

Spelling is kept in three places that outlive a line: in the operations that invoke words, in the
name of a definition that is open, and in the message of the error for an unknown word.  Sessions
that differ in these are `Respelled`.
-/

namespace Forth

/-! ## What may differ in spelling -/

/-- The error quotes a word of the line that is not known. -/
def Error.isMissingWord : Error → Bool
  | missingWord _ => true
  | _ => false

section

variable (S : String → String → Prop)

/-- Words that stand for each other are the same name and the same numeral. -/
structure Spells : Prop where
  lowerCase {name name' : String} (h : S name name') : Text.lowerCase name' = Text.lowerCase name
  numeral {name name' : String} (h : S name name') : Numeral.parse? name' = Numeral.parse? name

/-- The errors are equal, or each of them quotes the unknown word of its own line. -/
inductive Error.Respelled : Error → Error → Prop
  | same {e : Error} (h : e.isMissingWord = false) : Respelled e e
  | missingWord {name name' : String} (h : S name name') :
    Respelled (.missingWord name) (.missingWord name')

/-- The same reply but for the spelling of an unknown word. -/
inductive Reply.Respelled : Reply → Reply → Prop
  | ok (status : Status) : Respelled (.ok status) (.ok status)
  | error {e e' : Error} (he : Error.Respelled S e e') : Respelled (.error e) (.error e')

/-- The same has been printed, except that the messages of errors quote words as they are spelled
in their own lines. -/
inductive Output.Respelled : Output → Output → Prop
  | same (o : Output) : Respelled o o
  | print {o o' : Output} (text : String) (h : Respelled o o') :
    Respelled (o.print text) (o'.print text)
  | error {o o' : Output} {e e' : Error} (h : Respelled o o') (he : Error.Respelled S e e') :
    Respelled (o.print (" " ++ e.message)) (o'.print (" " ++ e'.message))

/-- The texts have the same tokens but for the spelling of words. -/
def SameTokens (cs cs' : List Char) : Prop :=
  List.Forall₂ (Token.Respelled S) (Token.tokens cs) (Token.tokens cs')

/-- The calls are the same event, or lines that differ in spelling. -/
inductive Call.Respelled : Call → Call → Prop
  | line {text text' : String} (h : SameTokens S text.toList text'.toList) :
    Respelled (.line text) (.line text')
  | event (e : Event) : Respelled (.event e) (.event e)

/-- The machines differ only in what was printed and in the lines that are queued, and there in
spelling only. -/
def Machine.Respelled (m m' : Machine) : Prop :=
  ∃ output queue, m' = { m with output, queue } ∧ Output.Respelled S m.output output ∧
    List.Forall₂ (fun text text' => SameTokens S text.toList text'.toList) m.queue queue

/-- The same actions are gathered, under the same name if it is a definition. -/
inductive Gathering.Respelled : Gathering → Gathering → Prop
  | nothing : Respelled .nothing .nothing
  | definition {name name' : String} {actions actions' : List Action}
    (hname : Text.lowerCase name' = Text.lowerCase name)
    (hactions : actions'.map Action.lowered = actions.map Action.lowered) :
    Respelled (.definition name actions) (.definition name' actions')
  | block {actions actions' : List Action} {depth : Nat}
    (hactions : actions'.map Action.lowered = actions.map Action.lowered) :
    Respelled (.block actions depth) (.block actions' depth)

/-- What belongs to a session besides its machine differs only in spelling. -/
structure Session.SameProgram (s s' : Session) : Prop where
  dictionary : s'.dictionary.lowered = s.dictionary.lowered
  line : Option.Rel (SameTokens S) s.line s'.line
  returnDepth : s'.returnDepth = s.returnDepth
  frames : s'.frames.map Frame.lowered = s.frames.map Frame.lowered
  gathering : Gathering.Respelled s.gathering s'.gathering
  /-- If no line has failed yet, the error is from before. -/
  lastError : s'.lastError = s.lastError ∨
    Option.Rel (Error.Respelled S) s.lastError s'.lastError

/-- The sessions differ only in spelling. -/
structure Session.Respelled (s s' : Session) : Prop extends Session.SameProgram S s s' where
  machine : Machine.Respelled S s.machine s'.machine

end

variable {S : String → String → Prop}

/-! ## Machines -/

namespace Machine.Respelled

theorem congruence : Congruence (Machine.Respelled S) where
  -- The spelling shows only in what was printed and in the queue, and the actions of the machine
  -- look at neither.
  data := by
    rintro m _ ⟨output, queue, rfl, -, -⟩
    rfl
  returns := by
    rintro m _ ⟨output, queue, rfl, -, -⟩
    rfl
  memory := by
    rintro m _ ⟨output, queue, rfl, -, -⟩
    rfl
  random := by
    rintro m _ ⟨output, queue, rfl, -, -⟩
    rfl
  wait := by
    rintro m _ ⟨output, queue, rfl, -, -⟩
    rfl
  setData := by
    rintro m _ data ⟨output, queue, rfl, ho, hq⟩
    exact ⟨output, queue, rfl, ho, hq⟩
  setReturns := by
    rintro m _ returns ⟨output, queue, rfl, ho, hq⟩
    exact ⟨output, queue, rfl, ho, hq⟩
  setMemory := by
    rintro m _ memory ⟨output, queue, rfl, ho, hq⟩
    exact ⟨output, queue, rfl, ho, hq⟩
  setRandom := by
    rintro m _ random ⟨output, queue, rfl, ho, hq⟩
    exact ⟨output, queue, rfl, ho, hq⟩
  print := by
    rintro m _ text ⟨output, queue, rfl, ho, hq⟩
    exact ⟨output.print text, queue, rfl, ho.print text, hq⟩

theorem survivesWait : SurvivesWait (Machine.Respelled S) := by
  rintro w m _ ⟨output, queue, rfl, ho, hq⟩
  exact ⟨output, queue, rfl, ho, hq⟩

variable {m m' : Machine}

theorem printError {e e' : Error} (h : Machine.Respelled S m m') (he : Error.Respelled S e e') :
    Machine.Respelled S { m with output := m.output.print (" " ++ e.message) }
      { m' with output := m'.output.print (" " ++ e'.message) } := by
  obtain ⟨output, queue, rfl, ho, hq⟩ := h
  exact ⟨_, queue, rfl, .error ho he, hq⟩

theorem setQueue {queue queue' : List String} (h : Machine.Respelled S m m')
    (hqueue : List.Forall₂ (fun text text' => SameTokens S text.toList text'.toList) queue queue') :
    Machine.Respelled S { m with queue } { m' with queue := queue' } := by
  obtain ⟨output, _, rfl, ho, -⟩ := h
  exact ⟨output, queue', rfl, ho, hqueue⟩

theorem queue (h : Machine.Respelled S m m') :
    List.Forall₂ (fun text text' => SameTokens S text.toList text'.toList) m.queue m'.queue := by
  obtain ⟨output, queue, rfl, -, hq⟩ := h
  exact hq

theorem received (h : Machine.Respelled S m m') (e : Event) :
    Machine.Respelled S (e.received m) (e.received m') := by
  obtain ⟨output, queue, rfl, ho, hq⟩ := h
  cases e with
  | key code =>
    simp only [Event.received, Machine.recordKey]
    cases m.memory.addressOf? lastKeyName with
    | none => exact ⟨output, queue, rfl, ho, hq⟩
    | some a => exact ⟨output, queue, rfl, ho, hq⟩
  | timer => exact ⟨output, queue, rfl, ho, hq⟩

end Machine.Respelled

/-- What the action does and what it prints depends neither on what has been printed nor on the lines
that are queued, and it queues none.  It fails with no error of the interpreter. -/
structure Exec.Unaware (action : Exec Unit) : Prop where
  text (m : Machine) : ∃ text, ∀ (output : Output) (queue : List String),
    action.run { m with output, queue } =
      onFinal (fun m => { m with output := output.print text, queue }) (action.run m)
  error : Yields (fun e => e.isMissingWord = false) Anything action

theorem Exec.Unaware.keeps_queue {action : Exec Unit} (h : action.Unaware) :
    action.Keeps Machine.queue := by
  intro m
  obtain ⟨text, htext⟩ := h.text m
  have hsame := htext m.output m.queue
  change action.run m = _ at hsame
  rw [hsame]
  cases action.run m <;> rfl

theorem Exec.Unaware.respects {action : Exec Unit} (h : action.Unaware) :
    Respects (Machine.Respelled S) Anything action := by
  rintro m _ ⟨output, queue, rfl, ho, hq⟩
  obtain ⟨text, htext⟩ := h.text m
  have hsame := htext m.output m.queue
  change action.run m = _ at hsame
  rw [hsame, htext output queue]
  cases action.run m with
  | ok x t => exact .ok trivial ⟨_, queue, rfl, ho.print text, hq⟩
  | error e t => exact .error ⟨_, queue, rfl, ho.print text, hq⟩

theorem Error.RunTime.isMissingWord {e : Error} (h : e.RunTime) : e.isMissingWord = false := by
  cases h <;> rfl

theorem isMissingWord_of_compile {actions : List Action} {e : Error}
    (h : compile actions = .error e) : e.isMissingWord = false := by
  obtain rfl | ⟨c, rfl⟩ := error_of_compile h <;> rfl

/-- The words of the language, and words of the host that do not look at texts. -/
abbrev Primitive.Unaware : Primitive → Prop :=
  Primitive.Allowed Exec.Unaware

namespace Primitive.Unaware

variable {p : Primitive}

theorem respects (hp : p.Unaware) : Respects (Machine.Respelled S) Anything p.run := by
  refine p.respects Machine.Respelled.congruence (fun _ => Machine.Respelled.survivesWait)
    fun action h => ?_
  subst h
  exact Exec.Unaware.respects hp

theorem yields (hp : p.Unaware) : Yields (fun e => e.isMissingWord = false) Anything p.run := by
  by_cases hhost : ∃ action, p = .host action
  · obtain ⟨action, rfl⟩ := hhost
    exact hp.error
  · exact (p.run_yields fun action h => hhost ⟨action, h⟩).weaken fun _ h => h.isMissingWord

end Primitive.Unaware

/-! ## Tokens and their actions -/

section

variable {d d' : Dictionary} {line line' : Option (List Char)} {t t' : Token} {rest : List Char}

theorem next?_of_sameTokens (h : Option.Rel (SameTokens S) line line')
    (hnext : line.bind Token.next? = some (t, rest)) :
    ∃ t' rest', line'.bind Token.next? = some (t', rest') ∧ Token.Respelled S t t' ∧
      SameTokens S rest rest' := by
  cases h with
  | none => exact nomatch hnext
  | @some l l' h =>
    rw [Option.bind_some] at hnext
    rw [SameTokens, Token.tokens_of_next? hnext] at h
    generalize hts : Token.tokens l' = ts at h
    cases h with
    | cons ht hrest =>
      obtain ⟨rest', hnext', rfl⟩ := Token.next?_of_tokens_cons hts
      exact ⟨_, rest', hnext', ht, hrest⟩

theorem nextWord_of_sameTokens {name : String} (h : Option.Rel (SameTokens S) line line')
    (hnext : line.bind Token.next? = some (.word name, rest)) :
    ∃ name' rest', line'.bind Token.next? = some (.word name', rest') ∧ S name name' ∧
      SameTokens S rest rest' := by
  obtain ⟨_, rest', hnext', ht, hrest⟩ := next?_of_sameTokens h hnext
  cases ht with
  | word hspelled => exact ⟨_, rest', hnext', hspelled, hrest⟩

theorem no_next?_of_sameTokens (h : Option.Rel (SameTokens S) line line')
    (hnext : line.bind Token.next? = none) : line'.bind Token.next? = none := by
  cases h with
  | none => rfl
  | some h =>
    rw [Option.bind_some] at hnext
    rw [SameTokens, Token.tokens_of_next?_none hnext] at h
    exact Token.next?_of_tokens_nil (List.forall₂_nil_left_iff.1 h)

theorem find?_of_lowered (hd : d'.lowered = d.lowered) {name name' : String}
    (hname : Text.lowerCase name' = Text.lowerCase name) :
    (d'.find? name').map Meaning.lowered = (d.find? name).map Meaning.lowered := by
  rw [← Dictionary.find?_lowered, ← Dictionary.find?_lowered, hd, Dictionary.find?, hname]
  rfl

/-- What a token stands for, compared with what a token stands for that differs in spelling. -/
inductive SameMeaning (S : String → String → Prop) : Except Error Action → Except Error Action → Prop
  | action {a a' : Action} (h : a'.lowered = a.lowered) : SameMeaning S (.ok a) (.ok a')
  | error {e e' : Error} (h : Error.Respelled S e e') : SameMeaning S (.error e) (.error e')

/-- Tokens that differ in spelling stand for the same action, or both are unknown. -/
theorem Token.Respelled.resolve (hS : Spells S) (hd : d'.lowered = d.lowered)
    (h : Token.Respelled S t t') : SameMeaning S (t.resolve d) (t'.resolve d') := by
  cases h with
  | string text => exact .action rfl
  | @word name name' h =>
    -- A string is spelled the same way.  A word is looked up first, and both spellings find an
    -- entry or neither does; a word that is not found is a numeral in both spellings or in neither.
    have hfind := find?_of_lowered hd (hS.lowerCase h)
    rw [Token.resolve, Token.resolve, hS.numeral h]
    cases hmeaning : d.find? name with
    | none =>
      rw [hmeaning, Option.map_none, Option.map_eq_none_iff] at hfind
      rw [hfind]
      cases Numeral.parse? name with
      | none => exact .error (.missingWord h)
      | some n => exact .action rfl
    | some meaning =>
      rw [hmeaning, Option.map_some, Option.map_eq_some_iff] at hfind
      obtain ⟨meaning', hmeaning', hlowered⟩ := hfind
      rw [hmeaning']
      cases meaning with
      | control c =>
        cases meaning' with
        | control c' =>
          obtain rfl := Meaning.control.inj hlowered
          exact .action rfl
        | word definition' => cases hlowered
      | word definition =>
        cases meaning' with
        | control c' => cases hlowered
        | word definition' =>
          refine .action ?_
          simp only [Action.lowered, Operation.lowered, hS.lowerCase h,
            Meaning.word.inj hlowered]

theorem Token.Respelled.resolve_ok {a : Action} (hS : Spells S) (hd : d'.lowered = d.lowered)
    (h : Token.Respelled S t t') (ha : t.resolve d = .ok a) :
    ∃ a', t'.resolve d' = .ok a' ∧ a'.lowered = a.lowered := by
  have hsame := h.resolve hS hd
  rw [ha] at hsame
  generalize t'.resolve d' = r' at hsame
  cases hsame with
  | action hlowered => exact ⟨_, rfl, hlowered⟩

theorem Token.Respelled.resolve_error {e : Error} (hS : Spells S) (hd : d'.lowered = d.lowered)
    (h : Token.Respelled S t t') (he : t.resolve d = .error e) :
    ∃ e', t'.resolve d' = .error e' ∧ Error.Respelled S e e' := by
  have hsame := h.resolve hS hd
  rw [he] at hsame
  generalize t'.resolve d' = r' at hsame
  cases hsame with
  | error hspelled => exact ⟨_, rfl, hspelled⟩

end

namespace Action

variable {a a' : Action}

theorem eq_control_of_lowered {c : Control} (h : a'.lowered = (control c).lowered) :
    a' = control c := by
  cases a' with
  | perform operation => exact nomatch h
  | control c' => exact h

theorem exists_perform_of_lowered {operation : Operation}
    (h : a'.lowered = (perform operation).lowered) :
    ∃ operation', a' = perform operation' ∧ operation'.lowered = operation.lowered := by
  cases a' with
  | perform operation' => exact ⟨operation', rfl, Action.perform.inj h⟩
  | control c => exact nomatch h

theorem depthAfter_lowered (depth : Nat) (a : Action) :
    Session.depthAfter depth a.lowered = Session.depthAfter depth a := by
  cases a <;> rfl

end Action

section

variable {actions actions' : List Action}

theorem compile_ok_of_lowered {body : Body}
    (h : actions'.map Action.lowered = actions.map Action.lowered)
    (hbody : compile actions = .ok body) :
    ∃ body', compile actions' = .ok body' ∧ Body.lowered body' = Body.lowered body := by
  have hcompile := compile_lowered actions'
  rw [h, compile_lowered, hbody] at hcompile
  cases hbody' : compile actions' with
  | error e => rw [hbody'] at hcompile; exact nomatch hcompile
  | ok body' =>
    rw [hbody'] at hcompile
    exact ⟨body', rfl, (Except.ok.inj hcompile).symm⟩

theorem compile_error_of_lowered {e : Error}
    (h : actions'.map Action.lowered = actions.map Action.lowered)
    (he : compile actions = .error e) : compile actions' = .error e := by
  have hcompile := compile_lowered actions'
  rw [h, compile_lowered, he] at hcompile
  cases he' : compile actions' with
  | error e' =>
    rw [he'] at hcompile
    exact congrArg Except.error (Except.error.inj hcompile).symm
  | ok body' => rw [he'] at hcompile; exact nomatch hcompile

end

/-! ## Frames -/

/-- The same error, or frames that differ only in spelling, on the same machine. -/
inductive SameFrames : EStateM.Result Error Machine (List Frame) →
    EStateM.Result Error Machine (List Frame) → Prop
  | ok {frames frames' : List Frame} {m : Machine}
    (h : frames'.map Frame.lowered = frames.map Frame.lowered) :
    SameFrames (.ok frames m) (.ok frames' m)
  | error {e : Error} {m : Machine} : SameFrames (.error e m) (.error e m)

theorem sameFrames_of_map_eq {action action' : Exec (List Frame)}
    (h : List.map Frame.lowered <$> action' = List.map Frame.lowered <$> action) (m : Machine) :
    SameFrames (action.run m) (action'.run m) := by
  have hrun := congrArg (fun action => action.run m) h
  simp only [map_eq_pure_bind, EStateM.run_bind, EStateM.run_pure] at hrun
  cases haction : action.run m with
  | ok frames t =>
    cases haction' : action'.run m with
    | ok frames' t' =>
      rw [haction, haction'] at hrun
      obtain ⟨hframes, rfl⟩ := EStateM.Result.ok.inj hrun
      exact .ok hframes
    | error e' t' => simp [haction, haction'] at hrun
  | error e t =>
    cases haction' : action'.run m with
    | ok frames' t' => simp [haction, haction'] at hrun
    | error e' t' =>
      rw [haction, haction'] at hrun
      obtain ⟨rfl, rfl⟩ := EStateM.Result.error.inj hrun
      exact .error

theorem perform_sameFrames {operation operation' : Operation}
    (h : operation'.lowered = operation.lowered) (m : Machine) :
    SameFrames (operation.perform.run m) (operation'.perform.run m) := by
  apply sameFrames_of_map_eq
  rw [← operation.perform_lowered, ← operation'.perform_lowered, h]

theorem step_sameFrames {f f' : Frame} {below below' : List Frame} (hf : f'.lowered = f.lowered)
    (hbelow : below'.map Frame.lowered = below.map Frame.lowered) (m : Machine) :
    SameFrames ((f.step below).run m) ((f'.step below').run m) := by
  apply sameFrames_of_map_eq
  rw [← f.step_lowered, ← f'.step_lowered, hf, hbelow]

end Forth
