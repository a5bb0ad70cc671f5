import Forth.Cell

/-!
# Stacks of cells

A stack is the list of its cells, the top first.  Both stacks of the machine are of this kind and
differ only in the error of taking from too small a stack, so that error is a parameter of whoever
takes.
-/

namespace Forth

abbrev Stack := List Cell

namespace Stack

/-- The `n`-th cell, counted from 1 at the top; 0 is the top as well. -/
def peek? (s : Stack) (n : Nat) : Option Cell :=
  s[max n 1 - 1]?

/-- The lowest `depth` cells. -/
def truncate (s : Stack) (depth : Nat) : Stack :=
  s.drop (s.length - depth)

/-- The cells from the bottom to the top. -/
def bottomUp (s : Stack) : List Cell :=
  s.reverse

/-- The cells from the bottom to the top in decimal form, and a mark at the top. -/
def display (s : Stack) : String :=
  String.intercalate " " (s.bottomUp.map Cell.decimal) ++ " <- Top "

@[simp] theorem peek?_one (s : Stack) : s.peek? 1 = s.head? := by
  cases s <;> rfl

@[simp] theorem length_truncate (s : Stack) (depth : Nat) :
    (s.truncate depth).length = min depth s.length := by
  simp only [truncate, List.length_drop]
  omega

theorem truncate_append (s t : Stack) : (s ++ t).truncate t.length = t := by
  simp [truncate]

theorem truncate_cons {s : Stack} {depth : Nat} (n : Cell) (h : depth ≤ s.length) :
    truncate (n :: s) depth = s.truncate depth := by
  simp only [truncate, List.length_cons]
  rw [Nat.succ_sub h, List.drop_succ_cons]

theorem truncate_of_length_le {s : Stack} {depth : Nat} (h : s.length ≤ depth) :
    s.truncate depth = s := by
  simp only [truncate, Nat.sub_eq_zero_of_le h, List.drop_zero]

theorem truncate_truncate (s : Stack) (depth depth' : Nat) :
    (s.truncate depth).truncate depth' = s.truncate (min depth depth') := by
  simp only [truncate, List.drop_drop, List.length_drop]
  congr 1
  omega

end Stack

end Forth
