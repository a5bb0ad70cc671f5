import Forth.Compile
import Forth.Dictionary
import Forth.Frame

/-!
# Sessions

A session is a machine with a dictionary and with the state of the line that it is working on: the
rest of its text, the frames that are still to be run, and the actions that are being gathered for
a definition or a control structure.  This file holds what a host does to a session without running
a line.
-/

namespace Forth

/-- Actions that are collected instead of being performed. -/
inductive Gathering
  | nothing
  /-- The body of a definition, after `:` and a name. -/
  | definition (name : String) (actions : List Action)
  /-- A control structure outside of definitions, with the number of structures that are open. -/
  | block (actions : List Action) (depth : Nat)

structure Session where
  machine : Machine
  dictionary : Dictionary
  /-- What is left of the text of the line in progress. -/
  line : Option (List Char)
  /-- The depth of the return stack at the start of the last line. -/
  returnDepth : Nat
  frames : List Frame
  gathering : Gathering
  /-- Why the last failed line failed. -/
  lastError : Option Error

namespace Session

/-- A session that knows the control words only. -/
def bare (random : Nat → UInt64) : Session where
  machine := .initial random
  dictionary := Control.all.foldl (fun d c => d.add c.name (.control c)) []
  line := none
  returnDepth := 0
  frames := []
  gathering := .nothing
  lastError := none

/-- Adds a dictionary entry. -/
def define (s : Session) (name : String) (meaning : Meaning) : Session :=
  { s with dictionary := s.dictionary.add name meaning }

/-- Adds a primitive word. -/
def addPrimitive (s : Session) (name : String) (action : Primitive) : Session :=
  s.define name (.word (.primitive action))

/-- Adds a constant. -/
def addConstant (s : Session) (name : String) (n : Cell) : Session :=
  s.define name (.word (.value n))

/-- Adds a variable in a new cell, and tells its address.  The word pushes that address. -/
def addVariable (s : Session) (name : String) : Address × Session :=
  let (a, memory) := s.machine.memory.addVariable name
  (a, { s with machine := { s.machine with memory } }.addConstant name (Cell.ofAddress a))

/-- Changes the machine. -/
def onMachine (s : Session) (f : Machine → Machine) : Session :=
  { s with machine := f s.machine }

/-- Runs an action of the host on the machine. -/
def exec {α : Type} (s : Session) (action : Exec α) : Except Error α × Session :=
  match action.run s.machine with
  | .ok a machine => (.ok a, { s with machine })
  | .error e machine => (.error e, { s with machine })

def print (s : Session) (text : String) : Session :=
  s.onMachine fun m => { m with output := m.output.print text }

/-- Hands printed text to the host from now on, instead of the console. -/
def redirectOutput (s : Session) : Session :=
  s.onMachine fun m => { m with output := m.output.redirect }

/-- The text on the console, which is cleared. -/
def takeConsole (s : Session) : String × Session :=
  (s.machine.output.console,
    s.onMachine fun m => { m with output := { m.output with console := "" } })

/-- The text handed to the host, which is cleared. -/
def takeHostText (s : Session) : String × Session :=
  (s.machine.output.host.getD "",
    s.onMachine fun m => { m with output := { m.output with host := m.output.host.map fun _ => "" } })

/-- Whether a definition is open. -/
def isDefining (s : Session) : Bool :=
  match s.gathering with
  | .definition _ _ => true
  | _ => false

/-- The cell of the data stack that lies this deep below the top. -/
def dataAt? (s : Session) (depth : Nat) : Option Cell :=
  s.machine.data.peek? (depth + 1)

end Session

end Forth
