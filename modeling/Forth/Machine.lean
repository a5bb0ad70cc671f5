import Forth.Error
import Forth.Memory
import Forth.Stack

/-!
# The machine that words act on

Everything that a word of the language reads or changes while it runs: the two stacks, the memory, the
printed text, the source of random numbers, the event that the running line waits for, and the lines
that wait for their turn.  The dictionary and the control state of the running line are not part of
the machine, because no word of the language uses them.  A word that a host adds is handed the whole
session and may use them; as an action on the machine it is described only as far as it does not, and
`Forth.Proofs.HostCode` is about the others.

An `Exec` action runs on a machine and ends with a value or with an error.  What an action did
before it failed stays done; in particular the operands that it took are gone.
-/

namespace Forth

/-! ## Events, output and random numbers -/

/-- An event from outside for which a line can wait. -/
inductive Wait
  | key
  | timer (milliseconds : Cell)
  deriving DecidableEq, Repr, Inhabited

/-- Where printed text goes: to the console, or to the host once the host asks for it.  There is a
console in any case, and it keeps what it is given. -/
structure Output where
  console : String
  host : Option String
  deriving DecidableEq, Repr, Inhabited

namespace Output

def empty : Output where
  console := ""
  host := none

def print (o : Output) (text : String) : Output :=
  match o.host with
  | none => { o with console := o.console ++ text }
  | some printed => { o with host := some (printed ++ text) }

/-- From now on the host takes what is printed. -/
def redirect (o : Output) : Output :=
  { o with host := some (o.host.getD "") }

end Output

/-- An endless supply of random words, of which some are used up.  Nothing is said of their values,
and drawing one never fails. -/
structure RandomSource where
  word : Nat → UInt64
  used : Nat

/-- The next random word. -/
def RandomSource.next (r : RandomSource) : UInt64 × RandomSource :=
  (r.word r.used, { r with used := r.used + 1 })

/-! ## The machine -/

structure Machine where
  data : Stack
  returns : Stack
  memory : Memory
  output : Output
  random : RandomSource
  /-- The event that the running line waits for. -/
  wait : Option Wait
  /-- Submitted lines that wait for the running one, in the order of submission. -/
  queue : List String

/-- A machine with empty stacks and nothing printed. -/
def Machine.initial (random : Nat → UInt64) : Machine where
  data := []
  returns := []
  memory := .empty
  output := .empty
  random := ⟨random, 0⟩
  wait := none
  queue := []

/-! ## Actions -/

/-- An action on a machine. -/
abbrev Exec := EStateM Error Machine

namespace Exec

def pushData (n : Cell) : Exec Unit :=
  modify fun m => { m with data := n :: m.data }

def popData : Exec Cell := do
  match (← get).data with
  | [] => throw .stackUnderflow
  | n :: rest =>
    modify fun m => { m with data := rest }
    return n

def pushReturn (n : Cell) : Exec Unit :=
  modify fun m => { m with returns := n :: m.returns }

def popReturn : Exec Cell := do
  match (← get).returns with
  | [] => throw .returnStackUnderflow
  | n :: rest =>
    modify fun m => { m with returns := rest }
    return n

/-- The `n`-th cell of the return stack, counted from 1 at the top. -/
def peekReturn (n : Nat) : Exec Cell := do
  match (← get).returns.peek? n with
  | none => throw .returnStackUnderflow
  | some i => return i

/-- Takes a cell off the data stack that has to be an address. -/
def popAddress : Exec Address := do
  match (← popData).toAddress? with
  | none => throw .invalidAddress
  | some a => return a

def print (text : String) : Exec Unit :=
  modify fun m => { m with output := m.output.print text }

/-- Makes the running line wait for an event. -/
def suspend (w : Wait) : Exec Unit :=
  modify fun m => { m with wait := some w }

/-- Submits a line.  A word only runs on behalf of a line, so the line has to wait for its turn. -/
def submit (line : String) : Exec Unit :=
  modify fun m => { m with queue := m.queue ++ [line] }

/-- The next random word. -/
def drawRandom : Exec UInt64 :=
  modifyGet fun m => let (w, r) := m.random.next; (w, { m with random := r })

theorem pushData_run (n : Cell) (m : Machine) :
    (pushData n).run m = .ok () { m with data := n :: m.data } := rfl

theorem popData_run (m : Machine) :
    popData.run m =
      match m.data with
      | [] => .error .stackUnderflow m
      | n :: rest => .ok n { m with data := rest } := by
  obtain ⟨data, returns, memory, output, random, wait, queue⟩ := m
  cases data <;> rfl

theorem pushReturn_run (n : Cell) (m : Machine) :
    (pushReturn n).run m = .ok () { m with returns := n :: m.returns } := rfl

theorem popReturn_run (m : Machine) :
    popReturn.run m =
      match m.returns with
      | [] => .error .returnStackUnderflow m
      | n :: rest => .ok n { m with returns := rest } := by
  obtain ⟨data, returns, memory, output, random, wait, queue⟩ := m
  cases returns <;> rfl

end Exec

/-! ## The last key -/

/-- The variable in which the last key is kept. -/
def lastKeyName : String := "last-key"

/-- Keeps a key press in the variable for the last key, if there is one. -/
def Machine.recordKey (m : Machine) (code : Cell) : Machine :=
  match m.memory.addressOf? lastKeyName with
  | none => m
  | some a => { m with memory := m.memory.set a code }

namespace Machine

@[simp] theorem recordKey_returns (m : Machine) (code : Cell) :
    (m.recordKey code).returns = m.returns := by
  unfold recordKey
  split <;> rfl

@[simp] theorem recordKey_wait (m : Machine) (code : Cell) :
    (m.recordKey code).wait = m.wait := by
  unfold recordKey
  split <;> rfl

@[simp] theorem recordKey_queue (m : Machine) (code : Cell) :
    (m.recordKey code).queue = m.queue := by
  unfold recordKey
  split <;> rfl

end Machine

end Forth
