import Forth.Session.Interpret
import Forth.Text.Lines

/-!
# Calls that run lines

A host submits lines and delivers the events that they wait for.  Each call runs until the line
ends or waits, and takes a bound on the number of steps; without a result it ran out of them.

A line that is submitted while another one is in progress is queued.  Queued lines run when an
event lets the line in progress end, one after the other, whether they fail or not, until one of
them has to wait.
-/

namespace Forth.Session

/-- Submits a line. -/
def readLine (s : Session) (fuel : Nat) (text : String) : Option (Reply × Session) :=
  match s.line with
  | some _ => some (.ok .queued, s.onMachine fun m => { m with queue := m.queue ++ [text] })
  | none => runSteps tick fuel (s.startLine text)

/-- Submits lines in order, whether they fail or not; the reply is that to the last one. -/
def readLines (s : Session) (fuel : Nat) (texts : List String) : Option (Reply × Session) :=
  texts.foldlM (fun (_, s) text => s.readLine fuel text) (.ok .ok, s)

/-- Submits lines in order up to the first one that fails at once. -/
def loadLines (s : Session) (fuel : Nat) : List String → Option (Except Error Unit × Session)
  | [] => some (.ok (), s)
  | text :: texts => do
    match ← s.readLine fuel text with
    | (.error e, s) => return (.error e, s)
    | (.ok _, s) => s.loadLines fuel texts

/-- Submits the lines of a source text up to the first one that fails at once. -/
def loadSource (s : Session) (fuel : Nat) (source : String) :
    Option (Except Error Unit × Session) :=
  s.loadLines fuel (Text.lines source)

/-- Goes on with the line in progress and the queued lines after it. -/
def resume (s : Session) (fuel : Nat) : Option (Reply × Session) :=
  runSteps tickAll fuel s

/-- Keeps a key press in the variable for the last key, and lets no line go on. -/
def recordKey (s : Session) (code : Cell) : Session :=
  s.onMachine (·.recordKey code)

/-- Delivers a key press, which is kept in the variable for the last key and pushed. -/
def deliverKey (s : Session) (fuel : Nat) (code : Cell) : Option (Reply × Session) :=
  match s.machine.wait with
  | some .key =>
    let received (m : Machine) : Machine :=
      let m := { m with wait := none }.recordKey code
      { m with data := code :: m.data }
    (s.onMachine received).resume fuel
  | some (.timer _) => some (.error .unexpectedEvent, s)
  | none => some (.error .notSuspended, s)

/-- Delivers the end of a delay. -/
def deliverTimer (s : Session) (fuel : Nat) : Option (Reply × Session) :=
  match s.machine.wait with
  | some (.timer _) => (s.onMachine fun m => { m with wait := none }).resume fuel
  | some .key => some (.error .unexpectedEvent, s)
  | none => some (.error .notSuspended, s)

/-- One step of the scheduled frames alone. -/
def frameTick (s : Session) : Progress Session (Except Error Unit × Session) :=
  match s.machine.wait, s.frames with
  | none, f :: below =>
    match (lift (f.step below)).run s with
    | .ok frames s => .more { s with frames }
    | .error e s => .done (.error e, s)
  | _, _ => .done (.ok (), s)

/-- Runs the scheduled frames until none is left or an event has to be awaited. -/
def runFrames (s : Session) (fuel : Nat) : Option (Except Error Unit × Session) :=
  runSteps frameTick fuel s

/-- Makes the line in progress wait for an event. -/
def suspend (s : Session) (w : Wait) : Session :=
  s.onMachine fun m => { m with wait := some w }

end Forth.Session
