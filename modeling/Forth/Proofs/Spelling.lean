import Forth.Compile
import Forth.Dictionary
import Forth.Frame

/-!
# The spelling of invoked words

An operation that invokes a word holds the word as it is spelled in the source next to what it
means, and nothing ever looks at that spelling.  `lowered` puts a definition, a frame or a list of
actions into the form in which all these words are spelled in lower case, so that two of them are the
same but for the case of letters if their lowered forms are equal.

Compiling and running commute with this change: the lowered actions compile to the lowered body
(`compile_lowered`), and the lowered frame does what the frame does and leaves the lowered frames
(`Frame.step_lowered`).
-/

namespace Forth

mutual

/-- The definition with the words that it invokes spelled in lower case. -/
def Definition.lowered : Definition → Definition
  | .primitive action => .primitive action
  | .compiled body => .compiled (Body.lowered body)
  | .value n => .value n

def Operation.lowered : Operation → Operation
  | .number n => .number n
  | .string text => .string text
  | .invoke name word => .invoke (Text.lowerCase name) word.lowered

def Tree.lowered : Tree → Tree
  | .leaf operation => .leaf operation.lowered
  | .branch consequent alternative => .branch (Body.lowered consequent) (Body.lowered alternative)
  | .counted body byStep => .counted (Body.lowered body) byStep
  | .untilTrue body => .untilTrue (Body.lowered body)

/-- The body with the words that it invokes spelled in lower case. -/
def Body.lowered : List Tree → List Tree
  | [] => []
  | t :: rest => t.lowered :: Body.lowered rest

end

theorem Body.lowered_append (body body' : Body) :
    Body.lowered (body ++ body') = Body.lowered body ++ Body.lowered body' := by
  induction body with
  | nil => rfl
  | cons t body ih => rw [List.cons_append, Body.lowered, Body.lowered, ih, List.cons_append]

def Frame.lowered : Frame → Frame
  | block rest => block (Body.lowered rest)
  | counted body byStep index limit ascending =>
    counted (Body.lowered body) byStep index limit ascending
  | untilTrue body => untilTrue (Body.lowered body)

def Action.lowered : Action → Action
  | perform operation => perform operation.lowered
  | control c => control c

def Meaning.lowered : Meaning → Meaning
  | control c => control c
  | word definition => word definition.lowered

/-- The dictionary with the words that its words invoke spelled in lower case. -/
def Dictionary.lowered (d : Dictionary) : Dictionary :=
  d.map fun entry => (entry.1, entry.2.lowered)

theorem Dictionary.find?_lowered (d : Dictionary) (name : String) :
    d.lowered.find? name = (d.find? name).map Meaning.lowered := by
  unfold Dictionary.find?
  induction d with
  | nil => rfl
  | cons entry d ih =>
    rw [Dictionary.lowered, List.map_cons, List.lookup_cons, List.lookup_cons]
    split
    · rfl
    · exact ih

/-! ## Compiling -/

def Opening.lowered : Opening → Opening
  | alternative body => alternative (Body.lowered body)
  | o => o

namespace Construction

def lowered (c : Construction) : Construction where
  body := Body.lowered c.body
  enclosing := c.enclosing.map fun e => (e.1.lowered, Body.lowered e.2)

theorem put_lowered (c : Construction) (t : Tree) :
    c.lowered.put t.lowered = (c.put t).lowered := by
  simp only [put, lowered, Body.lowered_append, Body.lowered]

theorem closed?_lowered (word : Control) (o : Opening) (body : Body) :
    closed? word o.lowered (Body.lowered body) = (closed? word o body).map Tree.lowered := by
  cases o <;> cases word <;> rfl

theorem close_lowered (c : Construction) (word : Control) :
    c.lowered.close word = (c.close word).map lowered := by
  obtain ⟨body, enclosing⟩ := c
  cases enclosing with
  | nil => rfl
  | cons e enclosing =>
    obtain ⟨o, outer⟩ := e
    simp only [close, lowered, List.map_cons, closed?_lowered]
    cases closed? word o body with
    | none => rfl
    | some t => simp only [Option.map_some, Except.map, lowered, Body.lowered_append, Body.lowered]

theorem otherwise_lowered (c : Construction) :
    c.lowered.otherwise = c.otherwise.map lowered := by
  obtain ⟨body, _ | ⟨⟨_ | _ | _ | _, outer⟩, enclosing⟩⟩ := c <;> rfl

theorem feed_lowered (c : Construction) (a : Action) :
    c.lowered.feed a.lowered = (c.feed a).map lowered := by
  cases a with
  | perform operation => exact congrArg Except.ok (c.put_lowered (.leaf operation))
  | control word =>
    cases word with
    | «else» => exact c.otherwise_lowered
    | «then» | loop | plusLoop | «until» => exact c.close_lowered _
    | «if» | «do» | begin | colon | semicolon | «variable» | constant => rfl

theorem finish_lowered (c : Construction) : c.lowered.finish = c.finish.map Body.lowered := by
  obtain ⟨body, enclosing⟩ := c
  cases enclosing <;> rfl

end Construction

theorem compile_lowered (actions : List Action) :
    compile (actions.map Action.lowered) = (compile actions).map Body.lowered := by
  have hfold (c : Construction) :
      (actions.map Action.lowered).foldlM Construction.feed c.lowered =
        (actions.foldlM Construction.feed c).map Construction.lowered := by
    induction actions generalizing c with
    | nil => rfl
    | cons a actions ih =>
      rw [List.map_cons, List.foldlM_cons, List.foldlM_cons, c.feed_lowered]
      cases c.feed a with
      | error e => rfl
      | ok next => exact ih next
  have hempty := hfold .empty
  unfold compile
  rw [show Construction.empty.lowered = .empty from rfl] at hempty
  rw [hempty]
  cases actions.foldlM Construction.feed .empty with
  | error e => rfl
  | ok c => exact c.finish_lowered

/-! ## Running -/

theorem Definition.invoke_lowered (word : Definition) :
    word.lowered.invoke = List.map Frame.lowered <$> word.invoke := by
  cases word <;> simp [Definition.lowered, Definition.invoke, Frame.lowered]

theorem Operation.perform_lowered (operation : Operation) :
    operation.lowered.perform = List.map Frame.lowered <$> operation.perform := by
  cases operation with
  | invoke name word => exact word.invoke_lowered
  | number n | string text => simp [Operation.lowered, Operation.perform]

theorem Tree.enter_lowered (t : Tree) :
    t.lowered.enter = List.map Frame.lowered <$> t.enter := by
  cases t with
  | leaf operation => exact operation.perform_lowered
  | branch consequent alternative =>
    simp [Tree.lowered, Tree.enter, Frame.lowered, apply_ite Body.lowered]
  | counted body byStep =>
    simp [Tree.lowered, Tree.enter, Frame.lowered, apply_ite (Functor.map _)]
  | untilTrue body => simp [Tree.lowered, Tree.enter, Frame.lowered]

theorem Frame.step_lowered (f : Frame) (below : List Frame) :
    f.lowered.step (below.map Frame.lowered) = List.map Frame.lowered <$> f.step below := by
  cases f with
  | block rest =>
    cases rest with
    | nil => simp [Frame.lowered, Frame.step, Body.lowered]
    | cons t rest => simp [Frame.lowered, Frame.step, Body.lowered, Tree.enter_lowered]
  | counted body byStep index limit ascending =>
    simp [Frame.lowered, Frame.step, apply_ite (Functor.map _)]
  | untilTrue body => simp [Frame.lowered, Frame.step, apply_ite (Functor.map _)]

end Forth
