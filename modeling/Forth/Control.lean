/-!
# Control words

The twelve words that steer the interpreter instead of computing.  They are entries of the
dictionary like any other, so a program may shadow them.
-/

namespace Forth

inductive Control
  | colon
  | semicolon
  | if
  | else
  | then
  | do
  | loop
  | plusLoop
  | begin
  | until
  | variable
  | constant
  deriving DecidableEq, Repr, Inhabited

namespace Control

/-- The control words, in the order in which they enter a new dictionary. -/
def all : List Control :=
  [colon, semicolon, .if, .else, .then, .do, loop, plusLoop, begin, .until, .variable, constant]

def name : Control → String
  | colon => ":"
  | semicolon => ";"
  | .if => "if"
  | .else => "else"
  | .then => "then"
  | .do => "do"
  | loop => "loop"
  | plusLoop => "+loop"
  | begin => "begin"
  | .until => "until"
  | .variable => "variable"
  | constant => "constant"

/-- Whether the word opens a structure inside a body. -/
def isOpener : Control → Bool
  | .if | .do | begin => true
  | _ => false

/-- Whether the word closes the innermost structure. -/
def isCloser : Control → Bool
  | .then | loop | plusLoop | .until => true
  | _ => false

/-- Whether the word has a meaning only outside of bodies. -/
def isInterpretOnly : Control → Bool
  | colon | semicolon | .variable | constant => true
  | _ => false

end Control

end Forth
