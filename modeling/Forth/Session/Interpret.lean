import Forth.Numeral
import Forth.Progress
import Forth.Session
import Forth.Token

/-!
# Interpreting a line

`Session.tick` is one step of the line in progress.  While frames are scheduled it runs them; then
it takes the next token.  A token that is gathered has no effect yet; any other takes effect at
once or schedules frames.  The line stops at the first event it has to wait for and can go on from
there.

A line that fails is abandoned with everything that belongs to it: its frames, the open definition
or control structure, the event it waits for, and what it left on the return stack above the depth
at which it started.
-/

namespace Forth

/-! ## Replies -/

/-- How far a line got. -/
inductive Status
  | ok
  /-- A definition is open at the end of the line. -/
  | defining
  | suspended (w : Wait)
  /-- The line waits until the lines before it are through. -/
  | queued
  deriving DecidableEq, Repr, Inhabited

/-- What a host is told about a line: how far it got, or why it failed. -/
abbrev Reply := Except Error Status

/-! ## Tokens and their actions -/

/-- The action that a token stands for.  A known word is looked up before a numeral is read. -/
def Token.resolve (d : Dictionary) : Token → Except Error Action
  | string text => .ok (.perform (.string text))
  | word name =>
    match d.find? name with
    | some (.control c) => .ok (.control c)
    | some (.word definition) => .ok (.perform (.invoke name definition))
    | none =>
      match Numeral.parse? name with
      | some n => .ok (.perform (.number n))
      | none => .error (.missingWord name)

namespace Session

/-- What one token or one frame does to a session. -/
abbrev Interpretation := EStateM Error Session

/-- An action of the machine as part of an interpretation. -/
def lift {α : Type} (action : Exec α) : Interpretation α := fun s =>
  match action.run s.machine with
  | .ok a machine => .ok a { s with machine }
  | .error e machine => .error e { s with machine }

/-- Takes the next token off the line. -/
def takeToken : Interpretation (Option Token) := fun s =>
  match s.line.bind Token.next? with
  | none => .ok none s
  | some (t, rest) => .ok (some t) { s with line := some rest }

/-- Takes the word off the line that a defining word gives a meaning to. -/
def takeName : Interpretation String := do
  match ← takeToken with
  | some (.word name) => return name
  | _ => throw .expectingName

/-- Puts frames on top of those that are scheduled. -/
def schedule (frames : List Frame) : Interpretation Unit :=
  modify fun s => { s with frames := frames ++ s.frames }

/-- Changes what is being gathered. -/
def gather (g : Gathering) : Interpretation Unit :=
  modify fun s => { s with gathering := g }

/-! ## What an action does -/

/-- An action inside a definition.  A semicolon compiles the definition and enters it in the
dictionary; if it cannot be compiled it is gone. -/
def dispatchDefining (name : String) (actions : List Action) : Action → Interpretation Unit
  | .control .semicolon => do
    gather .nothing
    match compile actions with
    | .error e => throw e
    | .ok body => modify (·.define name (.word (.compiled body)))
  | a => gather (.definition name (actions ++ [a]))

/-- The number of open structures after an action. -/
def depthAfter (depth : Nat) : Action → Nat
  | .control c => if c.isOpener then depth + 1 else if c.isCloser then depth - 1 else depth
  | .perform _ => depth

/-- An action inside a control structure.  The structure runs as soon as it is closed. -/
def dispatchGathering (actions : List Action) (depth : Nat) (a : Action) : Interpretation Unit := do
  let actions := actions ++ [a]
  let depth := depthAfter depth a
  if depth = 0 then
    gather .nothing
    match compile actions with
    | .error e => throw e
    | .ok body => schedule [.block body]
  else
    gather (.block actions depth)

/-- An action outside of bodies. -/
def dispatchDirect : Action → Interpretation Unit
  | .control .colon => do
    gather (.definition (← takeName) [])
  | .control .variable => do
    let name ← takeName
    modify fun s => (s.addVariable name).2
  | .control .constant => do
    let name ← takeName
    let n ← lift Exec.popData
    modify (·.addConstant name n)
  | .control c =>
    if c.isOpener then gather (.block [.control c] 1) else throw .unbalancedControl
  | .perform operation => do
    schedule (← lift operation.perform)

/-- What an action does, by what is being gathered. -/
def dispatch (a : Action) : Interpretation Unit := do
  match (← get).gathering with
  | .definition name actions => dispatchDefining name actions a
  | .block actions depth => dispatchGathering actions depth a
  | .nothing => dispatchDirect a

/-! ## The line in progress -/

/-- Runs one step of the innermost frame or, when no frame is left, interprets the next token.
False at the end of the line. -/
def advance : Interpretation Bool := do
  match (← get).frames with
  | f :: below =>
    let frames ← lift (f.step below)
    modify fun s => { s with frames }
    return true
  | [] =>
    match ← takeToken with
    | none => return false
    | some t =>
      match t.resolve (← get).dictionary with
      | .error e => throw e
      | .ok a =>
        dispatch a
        return true

/-- Ends the line in progress with an error. -/
def abandon (s : Session) (e : Error) : Reply × Session :=
  (.error e,
    { s with
      machine :=
        { s.machine with
          wait := none
          returns := s.machine.returns.truncate s.returnDepth
          output := s.machine.output.print (" " ++ e.message) }
      frames := []
      line := none
      gathering := .nothing
      lastError := some e })

/-- Ends the line in progress at the end of its text.  A control structure that is open there is
an error; a definition stays open. -/
def finishLine (s : Session) : Reply × Session :=
  match s.gathering with
  | .block _ _ => s.abandon .unbalancedControl
  | .definition _ _ => (.ok .defining, { s with line := none })
  | .nothing => (.ok .ok, { s with line := none }.print " ok")

/-- One step of the line in progress. -/
def tick (s : Session) : Progress Session (Reply × Session) :=
  match s.machine.wait with
  | some w => .done (.ok (.suspended w), s)
  | none =>
    match advance.run s with
    | .ok true s => .more s
    | .ok false s => .done s.finishLine
    | .error e s => .done (s.abandon e)

/-- Makes a line the one in progress. -/
def startLine (s : Session) (text : String) : Session :=
  { s with line := some text.toList, returnDepth := s.machine.returns.length }

/-- One step of the line in progress and of the queued lines after it: when a line ends and
nothing is awaited, the next one starts. -/
def tickAll (s : Session) : Progress Session (Reply × Session) :=
  match s.tick with
  | .more s => .more s
  | .done (reply, s) =>
    match s.machine.wait, s.machine.queue with
    | none, text :: queue => .more ((s.onMachine fun m => { m with queue }).startLine text)
    | _, _ => .done (reply, s)

end Session

end Forth
