import Forth.Control
import Forth.Primitive
import Forth.Text.Quoted

/-!
# Definitions, control trees and actions

A token resolves to an action: an operation to perform, or a control word.  The actions of a body
are compiled to a control tree, whose leaves are operations.  An operation that invokes a word
holds the definition that the word had when its token was resolved, so a compiled body refers to
definitions and not to names.
-/

namespace Forth

mutual

/-- What a word means when it is invoked. -/
inductive Definition
  | primitive (action : Primitive)
  | compiled (body : List Tree)
  /-- The address of a variable or the value of a constant. -/
  | value (n : Cell)

inductive Operation
  | number (n : Cell)
  | string (text : String)
  /-- A word, as it is spelled in the source, with what it meant there. -/
  | invoke (name : String) (word : Definition)

inductive Tree
  | leaf (operation : Operation)
  | branch (consequent alternative : List Tree)
  /-- A loop over an index.  With `byStep`, each round of the body leaves the step on the stack;
  otherwise the step is one, toward the limit. -/
  | counted (body : List Tree) (byStep : Bool)
  /-- A loop that each round of the body ends or goes on with, by a cell on the stack. -/
  | untilTrue (body : List Tree)

end

/-- Trees that run one after the other. -/
abbrev Body := List Tree

/-- The resolved form of one token. -/
inductive Action
  | perform (operation : Operation)
  | control (c : Control)

instance : Inhabited Definition := ⟨.value 0⟩
instance : Inhabited Operation := ⟨.number 0⟩
instance : Inhabited Tree := ⟨.leaf default⟩
instance : Inhabited Action := ⟨.perform default⟩

/-- The action in words. -/
def Action.label : Action → String
  | perform (.number n) => "PushNumber(" ++ n.decimal ++ ")"
  | perform (.string text) => "PushString(" ++ Text.quoted text ++ ")"
  | perform (.invoke name _) => "Invoke(" ++ name ++ ")"
  | control c => "Control(" ++ c.name ++ ")"

/-- Whether two actions do the same, where `same` tells whether two words mean the same. The
spelling of an invoked word does not matter. -/
def Action.agrees (same : Definition → Definition → Bool) : Action → Action → Bool
  | perform (.number m), perform (.number n) => m == n
  | perform (.string s), perform (.string t) => s == t
  | perform (.invoke _ v), perform (.invoke _ w) => same v w
  | control c, control d => c == d
  | _, _ => false

end Forth
