import Forth.Definition

/-!
# Running control trees

What is still to be run is a list of frames, the innermost first.  A block runs its trees in
order; a loop frame waits below the block of its body and is looked at whenever that block is
finished.  `Frame.step` is one step of the machine: it takes the innermost frame and tells the
frames that stand in its place, above the frames below it.
-/

namespace Forth

inductive Frame
  /-- Trees that are still to run. -/
  | block (rest : Body)
  /-- A counted loop whose body runs with this index. -/
  | counted (body : Body) (byStep : Bool) (index limit : Cell) (ascending : Bool)
  | untilTrue (body : Body)

instance : Inhabited Frame := ⟨.block []⟩

/-- Whether a loop goes on with this index.  The limit itself is never visited, in either
direction. -/
def inRange (index limit : Cell) (ascending : Bool) : Bool :=
  if ascending then index < limit else limit < index

open Exec

/-- Invokes a word: the frames of its body, if it has one. -/
def Definition.invoke : Definition → Exec (List Frame)
  | primitive action => do
    action.run
    return []
  | compiled body => return [.block body]
  | value n => do
    pushData n
    return []

/-- Performs an operation: the frames of what is still to run for it. -/
def Operation.perform : Operation → Exec (List Frame)
  | number n => do
    pushData n
    return []
  | string text => do
    print text
    return []
  | invoke _ word => word.invoke

/-- Begins a tree: the frames of what is still to run for it, the innermost first.  Any cell but
zero chooses the consequent of a branch.  A counted loop takes its first index and its limit and
runs in the direction that leads from one to the other. -/
def Tree.enter : Tree → Exec (List Frame)
  | leaf operation => operation.perform
  | branch consequent alternative => do
    let t ← popData
    return [.block (if t ≠ 0 then consequent else alternative)]
  | counted body byStep => do
    let start ← popData
    let limit ← popData
    let ascending : Bool := start < limit
    if inRange start limit ascending then
      pushReturn start
      return [.block body, .counted body byStep start limit ascending]
    else
      return []
  | untilTrue body => return [.block body, .untilTrue body]

/-- One step of the innermost frame, with the frames `below` it.  A loop frame finds its body
finished: a counted loop takes its index off the return stack and goes on with the next one while
that is in range; the other loop ends when the cell on the stack is true, that is, -1. -/
def Frame.step (below : List Frame) : Frame → Exec (List Frame)
  | block [] => return below
  | block (t :: rest) => do
    return (← t.enter) ++ .block rest :: below
  | counted body byStep index limit ascending => do
    let _ ← popReturn
    let step ← if byStep then popData else pure (if ascending then 1 else -1)
    let next := index + step
    if inRange next limit ascending then
      pushReturn next
      return .block body :: .counted body byStep next limit ascending :: below
    else
      return below
  | untilTrue body => do
    let t ← popData
    if t = -1 then
      return below
    else
      return .block body :: .untilTrue body :: below

end Forth
