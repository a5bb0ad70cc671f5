import Forth.Machine

/-!
# Primitive words

The words that are not defined in the language itself, and what each of them does.  A binary word
takes its second operand from the top of the stack, so `a b -` computes `a - b`.  Operands are
taken before anything is checked.

A host may add words of its own.  Here such a word is an action on a machine, which may print, wait
for an event and submit a line.  A word of the host that looks at the dictionary or at the line in
progress, or that changes them, is not of this kind (`Forth.Proofs.HostCode`).
-/

namespace Forth

inductive Primitive
  | add
  | subtract
  | multiply
  | divide
  | remainder
  | divideWithRemainder
  | equal
  | less
  | greater
  | and
  | or
  | invert
  | print
  | printStack
  | emit
  | duplicate
  | drop
  | swap
  | copySecond
  | rotate
  /-- The index of the innermost counted loop, which is the top of the return stack. -/
  | index
  /-- The index of the loop around the innermost one. -/
  | outerIndex
  | toReturn
  | fromReturn
  | store
  | fetch
  | allot
  | key
  | sleep
  | random
  /-- A word that the host adds, as far as it acts on the machine alone. -/
  | host (action : Exec Unit)

namespace Primitive

open Exec

/-- Replaces the top cell. -/
def unary (f : Cell → Cell) : Exec Unit := do
  let a ← popData
  pushData (f a)

/-- Replaces the two top cells by one. -/
def binary (f : Cell → Cell → Cell) : Exec Unit := do
  let b ← popData
  let a ← popData
  pushData (f a b)

/-- Replaces the two top cells by the outcome of a comparison. -/
def comparison (test : Cell → Cell → Bool) : Exec Unit :=
  binary fun a b => Cell.ofBool (test a b)

/-- Takes a dividend and a divisor, which must not be zero, and pushes `results`, the last one on
top. -/
def division (results : Cell → Cell → List Cell) : Exec Unit := do
  let b ← popData
  let a ← popData
  if b = 0 then
    throw .divisionByZero
  (results a b).forM pushData

/-- A number from 0 up to but not including `n`; 0 if there is none. -/
def randomBelow (n : Cell) : Exec Cell := do
  if 0 < n then
    return ((← drawRandom) % n.toUInt64).toInt64
  else
    return 0

/-- What a word does. -/
def run : Primitive → Exec Unit
  | add => binary (· + ·)
  | subtract => binary (· - ·)
  | multiply => binary (· * ·)
  | divide => division fun a b => [a.floorDiv b]
  | remainder => division fun a b => [a.floorMod b]
  | divideWithRemainder => division fun a b => [a.floorMod b, a.floorDiv b]
  | equal => comparison (· == ·)
  | less => comparison (· < ·)
  | greater => comparison (· > ·)
  | and => binary (· &&& ·)
  | or => binary (· ||| ·)
  | invert => unary (~~~ ·)
  | print => do
    let n ← popData
    Exec.print (n.decimal ++ " ")
  | printStack => do
    Exec.print "\n"
    Exec.print (← get).data.display
  | emit => do
    let n ← popData
    Exec.print n.toChar.toString
  | duplicate => do
    let a ← popData
    pushData a
    pushData a
  | drop => do
    let _ ← popData
  | swap => do
    let b ← popData
    let a ← popData
    pushData b
    pushData a
  | copySecond => do
    let b ← popData
    let a ← popData
    pushData a
    pushData b
    pushData a
  | rotate => do
    let c ← popData
    let b ← popData
    let a ← popData
    pushData b
    pushData c
    pushData a
  | index => do
    pushData (← peekReturn 1)
  | outerIndex => do
    pushData (← peekReturn 2)
  | toReturn => do
    pushReturn (← popData)
  | fromReturn => do
    pushData (← popReturn)
  | store => do
    let a ← popAddress
    let n ← popData
    modify fun m => { m with memory := m.memory.set a n }
  | fetch => do
    let a ← popAddress
    pushData ((← get).memory.get a)
  | allot => do
    let n ← popAddress
    modify fun m => { m with memory := m.memory.allot n }
  | key => suspend .key
  | sleep => do
    suspend (.timer (← popData))
  | random => do
    pushData (← randomBelow (← popData))
  | host action => action

/-- The names of the primitives of a new session, in the order in which they enter the
dictionary. -/
def builtIn : List (String × Primitive) :=
  [("+", add), ("-", subtract), ("*", multiply), ("/", divide), ("mod", remainder),
   ("/mod", divideWithRemainder), ("=", equal), ("<", less), (">", greater), ("and", and),
   ("or", or), ("invert", invert),
   (".", print), (".s", printStack), ("emit", emit), ("dup", duplicate), ("drop", drop),
   ("swap", swap), ("over", copySecond), ("rot", rotate), ("i", index), ("r@", index),
   ("j", outerIndex), (">r", toReturn), ("r>", fromReturn), ("!", store), ("@", fetch),
   ("allot", allot), ("key", key), ("sleep", sleep), ("random", random)]

end Primitive

end Forth
