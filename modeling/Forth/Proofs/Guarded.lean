import Forth.Session.Call

/-!
# The interpreter with guards

The types of the interpreter leave no room for some mistakes.  A control word cannot be the leaf of
a tree or the word that a leaf invokes, since leaves are operations, and a definition is never a
control word; what is done at the end of a round of a loop is done with the frame of that loop; and
the count of open structures stops at zero.  So nothing has to be checked there, and nothing can be
said about it either.

This module has the same interpreter over types that tell none of these things apart.  Actions and
definitions may be control words wherever they stand, the end of a round looks for its frame on top
of the frames, and the count may be asked to go below zero.  Wherever it comes upon something that
should not be there, it stops with a `Guard`.  The machine, the primitive words, the tokens and the
errors are those of the interpreter.
-/

namespace Forth.Guarded

/-- What should not happen. -/
inductive Guard
  /-- A control word is to be performed like an operation. -/
  | performs (c : Control)
  /-- A control word is to be invoked like a definition. -/
  | invokes (c : Control)
  /-- A round of a counted loop ends, and the top frame is not that of a counted loop. -/
  | endsRound
  /-- A round of the other kind of loop ends, and the top frame is not that of such a loop. -/
  | endsRepetition
  /-- A structure is closed while none is open. -/
  | closes
  deriving DecidableEq

/-- Why the interpreter stops. -/
inductive Stop
  | error (e : Error)
  | guard (g : Guard)
  deriving DecidableEq

mutual

inductive Definition
  | primitive (action : Primitive)
  | compiled (body : List Tree)
  | value (n : Cell)
  | control (c : Control)

inductive Action
  | number (n : Cell)
  | string (text : String)
  | invoke (name : String) (word : Definition)
  | control (c : Control)

inductive Tree
  | leaf (action : Action)
  | branch (consequent alternative : List Tree)
  | counted (body : List Tree) (byStep : Bool)
  | untilTrue (body : List Tree)

end

/-! ## Compiling -/

abbrev Body := List Tree

inductive Opening
  | consequent
  | alternative (consequent : Body)
  | counted
  | untilTrue

structure Construction where
  body : Body
  enclosing : List (Opening × Body)

namespace Construction

def put (c : Construction) (t : Tree) : Construction :=
  { c with body := c.body ++ [t] }

def opened (c : Construction) (o : Opening) : Construction :=
  ⟨[], (o, c.body) :: c.enclosing⟩

def closed? (word : Control) (o : Opening) (body : Body) : Option Tree :=
  match word, o with
  | .then, .consequent => some (.branch body [])
  | .then, .alternative consequent => some (.branch consequent body)
  | .loop, .counted => some (.counted body false)
  | .plusLoop, .counted => some (.counted body true)
  | .until, .untilTrue => some (.untilTrue body)
  | _, _ => none

def close (c : Construction) (word : Control) : Except Error Construction :=
  match c.enclosing with
  | [] => .error .unbalancedControl
  | (o, outer) :: enclosing =>
    match closed? word o c.body with
    | none => .error .unbalancedControl
    | some t => .ok ⟨outer ++ [t], enclosing⟩

def otherwise (c : Construction) : Except Error Construction :=
  match c.enclosing with
  | (.consequent, outer) :: enclosing => .ok ⟨[], (.alternative c.body, outer) :: enclosing⟩
  | (.alternative _, _) :: _ => .ok c
  | _ => .error .unbalancedControl

/-- Reads the next action.  What is not a control word becomes a leaf. -/
def feed (c : Construction) : Action → Except Error Construction
  | .control .if => .ok (c.opened .consequent)
  | .control .do => .ok (c.opened .counted)
  | .control .begin => .ok (c.opened .untilTrue)
  | .control .else => c.otherwise
  | .control word =>
    if word.isInterpretOnly then .error (.interpretOnly word.name) else c.close word
  | a => .ok (c.put (.leaf a))

def finish (c : Construction) : Except Error Body :=
  if c.enclosing.isEmpty then .ok c.body else .error .unbalancedControl

end Construction

def compile (actions : List Action) : Except Error Body := do
  (← actions.foldlM Construction.feed ⟨[], []⟩).finish

/-! ## Running trees -/

inductive Frame
  | block (rest : Body)
  | counted (body : Body) (byStep : Bool) (index limit : Cell) (ascending : Bool)
  | untilTrue (body : Body)

abbrev Exec := EStateM Stop Machine

/-- An action of the machine. -/
def ofExec {α : Type} (action : Forth.Exec α) : Exec α := fun m =>
  match action.run m with
  | .ok x m => .ok x m
  | .error e m => .error (.error e) m

open Forth.Exec

def Definition.invoke : Definition → Exec (List Frame)
  | primitive action => do
    ofExec action.run
    return []
  | compiled body => return [.block body]
  | value n => do
    ofExec (pushData n)
    return []
  | control c => throw (.guard (.invokes c))

def Action.perform : Action → Exec (List Frame)
  | number n => do
    ofExec (pushData n)
    return []
  | string text => do
    ofExec (print text)
    return []
  | invoke _ word => word.invoke
  | control c => throw (.guard (.performs c))

def Tree.enter : Tree → Exec (List Frame)
  | leaf action => action.perform
  | branch consequent alternative => do
    let t ← ofExec popData
    return [.block (if t ≠ 0 then consequent else alternative)]
  | counted body byStep => do
    let start ← ofExec popData
    let limit ← ofExec popData
    let ascending : Bool := start < limit
    if inRange start limit ascending then
      ofExec (pushReturn start)
      return [.block body, .counted body byStep start limit ascending]
    else
      return []
  | untilTrue body => return [.block body, .untilTrue body]

/-- The end of a round of a counted loop, whose frame should be on top. -/
def endRound : List Frame → Exec (List Frame)
  | .counted body byStep index limit ascending :: below => do
    let _ ← ofExec popReturn
    let step ← if byStep then ofExec popData else pure (if ascending then 1 else -1)
    let next := index + step
    if inRange next limit ascending then
      ofExec (pushReturn next)
      return .block body :: .counted body byStep next limit ascending :: below
    else
      return below
  | _ => throw (.guard .endsRound)

/-- The end of a round of the other kind of loop, whose frame should be on top. -/
def endRepetition : List Frame → Exec (List Frame)
  | .untilTrue body :: below => do
    let t ← ofExec popData
    if t = -1 then
      return below
    else
      return .block body :: .untilTrue body :: below
  | _ => throw (.guard .endsRepetition)

/-- What the top frame asks for. -/
inductive Task
  | enter (t : Tree)
  | leave
  | endRound
  | endRepetition

/-- The task of the top frame, and the frames that are left when it is done or handed on. -/
def nextTask? : List Frame → Option (Task × List Frame)
  | [] => none
  | .block (t :: rest) :: below => some (.enter t, .block rest :: below)
  | .block [] :: below => some (.leave, below)
  | .counted body byStep index limit ascending :: below =>
    some (.endRound, .counted body byStep index limit ascending :: below)
  | .untilTrue body :: below => some (.endRepetition, .untilTrue body :: below)

/-- Does a task on top of these frames. -/
def Task.run (frames : List Frame) : Task → Exec (List Frame)
  | enter t => do return (← t.enter) ++ frames
  | leave => return frames
  | endRound => Guarded.endRound frames
  | endRepetition => Guarded.endRepetition frames

/-! ## Sessions -/

abbrev Dictionary := List (String × Definition)

def Dictionary.add (d : Dictionary) (name : String) (definition : Definition) : Dictionary :=
  (Text.lowerCase name, definition) :: d

def Dictionary.find? (d : Dictionary) (name : String) : Option Definition :=
  d.lookup (Text.lowerCase name)

inductive Gathering
  | nothing
  | definition (name : String) (actions : List Action)
  | block (actions : List Action) (depth : Nat)

structure Session where
  machine : Machine
  dictionary : Dictionary
  line : Option (List Char)
  returnDepth : Nat
  frames : List Frame
  gathering : Gathering
  lastError : Option Error

/-- The action that a token stands for. -/
def resolve (d : Dictionary) : Token → Except Error Action
  | .string text => .ok (.string text)
  | .word name =>
    match d.find? name with
    | some (.control c) => .ok (.control c)
    | some definition => .ok (.invoke name definition)
    | none =>
      match Numeral.parse? name with
      | some n => .ok (.number n)
      | none => .error (.missingWord name)

namespace Session

def bare (random : Nat → UInt64) : Session where
  machine := .initial random
  dictionary := Control.all.foldl (fun d c => d.add c.name (.control c)) []
  line := none
  returnDepth := 0
  frames := []
  gathering := .nothing
  lastError := none

def define (s : Session) (name : String) (definition : Definition) : Session :=
  { s with dictionary := s.dictionary.add name definition }

def addVariable (s : Session) (name : String) : Session :=
  let (a, memory) := s.machine.memory.addVariable name
  { s with machine := { s.machine with memory } }.define name (.value (Cell.ofAddress a))

/-- A session that knows the control words and the primitive words. -/
def withPrimitives (random : Nat → UInt64) : Session :=
  Primitive.builtIn.foldl (fun s (name, action) => s.define name (.primitive action)) (bare random)

abbrev Interpretation := EStateM Stop Session

def lift {α : Type} (action : Exec α) : Interpretation α := fun s =>
  match action.run s.machine with
  | .ok a machine => .ok a { s with machine }
  | .error e machine => .error e { s with machine }

theorem lift_run {α : Type} (action : Exec α) (s : Session) :
    (lift action).run s =
      match action.run s.machine with
      | .ok a machine => .ok a { s with machine }
      | .error e machine => .error e { s with machine } := rfl

def takeToken : Interpretation (Option Token) := fun s =>
  match s.line.bind Token.next? with
  | none => .ok none s
  | some (t, rest) => .ok (some t) { s with line := some rest }

theorem takeToken_run (s : Session) :
    takeToken.run s =
      match s.line.bind Token.next? with
      | none => .ok none s
      | some (t, rest) => .ok (some t) { s with line := some rest } := rfl

def takeName : Interpretation String := do
  match ← takeToken with
  | some (.word name) => return name
  | _ => throw (.error .expectingName)

def schedule (frames : List Frame) : Interpretation Unit :=
  modify fun s => { s with frames := frames ++ s.frames }

def gather (g : Gathering) : Interpretation Unit :=
  modify fun s => { s with gathering := g }

def dispatchDefining (name : String) (actions : List Action) : Action → Interpretation Unit
  | .control .semicolon => do
    gather .nothing
    match compile actions with
    | .error e => throw (.error e)
    | .ok body => modify (·.define name (.compiled body))
  | a => gather (.definition name (actions ++ [a]))

/-- The number of open structures after an action. -/
def depthAfter (depth : Nat) : Action → Except Stop Nat
  | .control c =>
    if c.isOpener then
      .ok (depth + 1)
    else if c.isCloser then
      if depth = 0 then .error (.guard .closes) else .ok (depth - 1)
    else
      .ok depth
  | _ => .ok depth

def dispatchGathering (actions : List Action) (depth : Nat) (a : Action) : Interpretation Unit := do
  let actions := actions ++ [a]
  match depthAfter depth a with
  | .error e => throw e
  | .ok 0 =>
    gather .nothing
    match compile actions with
    | .error e => throw (.error e)
    | .ok body => schedule [.block body]
  | .ok depth => gather (.block actions depth)

def dispatchDirect : Action → Interpretation Unit
  | .control .colon => do
    gather (.definition (← takeName) [])
  | .control .variable => do
    let name ← takeName
    modify (·.addVariable name)
  | .control .constant => do
    let name ← takeName
    let n ← lift (ofExec Exec.popData)
    modify (·.define name (.value n))
  | .control c =>
    if c.isOpener then gather (.block [.control c] 1) else throw (.error .unbalancedControl)
  | a => do
    schedule (← lift a.perform)

def dispatch (a : Action) : Interpretation Unit := do
  match (← get).gathering with
  | .definition name actions => dispatchDefining name actions a
  | .block actions depth => dispatchGathering actions depth a
  | .nothing => dispatchDirect a

def advance : Interpretation Bool := do
  match nextTask? (← get).frames with
  | some (task, frames) =>
    let frames ← lift (task.run frames)
    modify fun s => { s with frames }
    return true
  | none =>
    match ← takeToken with
    | none => return false
    | some t =>
      match resolve (← get).dictionary t with
      | .error e => throw (.error e)
      | .ok a =>
        dispatch a
        return true

def abandon (s : Session) (e : Error) : Session :=
  { s with
    machine :=
      { s.machine with
        wait := none
        returns := s.machine.returns.truncate s.returnDepth
        output := s.machine.output.print (" " ++ e.message) }
    frames := []
    line := none
    gathering := .nothing
    lastError := some e }

def finishLine (s : Session) : Reply × Session :=
  match s.gathering with
  | .block _ _ => (.error .unbalancedControl, s.abandon .unbalancedControl)
  | .definition _ _ => (.ok .defining, { s with line := none })
  | .nothing =>
    (.ok .ok, { s with
      line := none
      machine := { s.machine with output := s.machine.output.print " ok" } })

/-- One step of the line in progress.  It replies, or a guard stops it. -/
def tick (s : Session) : Progress Session (Except Guard Reply × Session) :=
  match s.machine.wait with
  | some w => .done (.ok (.ok (.suspended w)), s)
  | none =>
    match advance.run s with
    | .ok true s => .more s
    | .ok false s => .done (s.finishLine.map .ok id)
    | .error (.error e) s => .done (.ok (.error e), s.abandon e)
    | .error (.guard g) s => .done (.error g, s)

def startLine (s : Session) (text : String) : Session :=
  { s with line := some text.toList, returnDepth := s.machine.returns.length }

end Session

end Forth.Guarded
