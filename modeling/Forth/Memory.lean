import Forth.Cell
import Forth.Text.LowerCase
import Std.Data.TreeMap

/-!
# Memory

Cells at addresses, read as zero until something is stored.  Cells are handed out upwards from
address 1000: one to each variable, and as many more as are asked for.  Variables are found by
their names in lower case.
-/

namespace Forth

structure Memory where
  /-- What was stored. -/
  cells : Std.TreeMap Address Cell
  /-- The variables and their addresses, the newest first. -/
  named : List (String × Address)
  /-- The first address that is not handed out. -/
  free : Address

namespace Memory

def empty : Memory where
  cells := ∅
  named := []
  free := 1000

/-- The value of a cell. -/
def get (m : Memory) (a : Address) : Cell :=
  m.cells.getD a 0

/-- Stores a value. -/
def set (m : Memory) (a : Address) (value : Cell) : Memory :=
  { m with cells := m.cells.insert a value }

/-- Hands the next cell out to a variable, and tells its address. -/
def addVariable (m : Memory) (name : String) : Address × Memory :=
  (m.free,
    { m with
      named := (Text.lowerCase name, m.free) :: m.named
      free := m.free + 1 })

/-- The address of the newest variable of this name. -/
def addressOf? (m : Memory) (name : String) : Option Address :=
  m.named.lookup (Text.lowerCase name)

/-- Hands out `n` cells, or all that are left if there are fewer. -/
def allot (m : Memory) (n : Address) : Memory :=
  { m with free := if m.free + n < m.free then -1 else m.free + n }

/-- What is read after a store. -/
theorem get_set (m : Memory) (a b : Address) (value : Cell) :
    (m.set a value).get b = if a = b then value else m.get b := by
  simp [get, set, Std.TreeMap.getD_insert]

@[simp] theorem get_empty (a : Address) : empty.get a = 0 := by
  simp [get, empty]

@[simp] theorem get_addVariable (m : Memory) (name : String) (a : Address) :
    (m.addVariable name).2.get a = m.get a := rfl

@[simp] theorem get_allot (m : Memory) (n a : Address) : (m.allot n).get a = m.get a := rfl

theorem addressOf?_addVariable (m : Memory) (name other : String) :
    (m.addVariable name).2.addressOf? other =
      if Text.lowerCase other = Text.lowerCase name then some m.free
      else m.addressOf? other := by
  simp only [addressOf?, addVariable, List.lookup_cons]
  split <;> simp_all

end Memory

end Forth
