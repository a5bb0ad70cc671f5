import Forth.Definition

/-!
# Compiling actions to control trees

A list of actions is read from left to right.  A construction in progress is the body in which the
next tree is put, and around it the structures that are open, the innermost first, each with the
part of its enclosing body that is finished.
-/

namespace Forth

/-- A structure that is not closed yet. -/
inductive Opening
  /-- `if` is read, and trees go to the consequent. -/
  | consequent
  /-- `else` is read after this consequent, and trees go to the alternative. -/
  | alternative (consequent : Body)
  | counted
  | untilTrue

/-- A construction in progress. -/
structure Construction where
  /-- The body in which the next tree is put. -/
  body : Body
  /-- The open structures, the innermost first, each with the finished part of the body in which
  it stands. -/
  enclosing : List (Opening × Body)

namespace Construction

def empty : Construction := ⟨[], []⟩

def put (c : Construction) (t : Tree) : Construction :=
  { c with body := c.body ++ [t] }

def opened (c : Construction) (o : Opening) : Construction :=
  ⟨[], (o, c.body) :: c.enclosing⟩

/-- The tree that a closing word makes of an open structure and its body; none if the word closes
another kind of structure. -/
def closed? (word : Control) (o : Opening) (body : Body) : Option Tree :=
  match word, o with
  | .then, .consequent => some (.branch body [])
  | .then, .alternative consequent => some (.branch consequent body)
  | .loop, .counted => some (.counted body false)
  | .plusLoop, .counted => some (.counted body true)
  | .until, .untilTrue => some (.untilTrue body)
  | _, _ => none

/-- Closes the innermost structure. -/
def close (c : Construction) (word : Control) : Except Error Construction :=
  match c.enclosing with
  | [] => .error .unbalancedControl
  | (o, outer) :: enclosing =>
    match closed? word o c.body with
    | none => .error .unbalancedControl
    | some t => .ok ⟨outer ++ [t], enclosing⟩

/-- Goes on with the alternative of the innermost structure.  A further `else` changes nothing. -/
def otherwise (c : Construction) : Except Error Construction :=
  match c.enclosing with
  | (.consequent, outer) :: enclosing => .ok ⟨[], (.alternative c.body, outer) :: enclosing⟩
  | (.alternative _, _) :: _ => .ok c
  | _ => .error .unbalancedControl

/-- Reads the next action. -/
def feed (c : Construction) : Action → Except Error Construction
  | .perform operation => .ok (c.put (.leaf operation))
  | .control .if => .ok (c.opened .consequent)
  | .control .do => .ok (c.opened .counted)
  | .control .begin => .ok (c.opened .untilTrue)
  | .control .else => c.otherwise
  | .control word =>
    if word.isInterpretOnly then .error (.interpretOnly word.name) else c.close word

/-- The finished body, if no structure is open. -/
def finish (c : Construction) : Except Error Body :=
  if c.enclosing.isEmpty then .ok c.body else .error .unbalancedControl

end Construction

/-- The control trees of a list of actions. -/
def compile (actions : List Action) : Except Error Body := do
  (← actions.foldlM Construction.feed .empty).finish

end Forth
