/-!
# What can go wrong

The causes for which a line, a host call or a program ends early, with the message that the user
sees and the label under which a session records the cause.
-/

namespace Forth

inductive Error
  /-- The token is neither a known word nor a numeral. -/
  | missingWord (name : String)
  | stackUnderflow
  | returnStackUnderflow
  /-- A control structure is not closed, or closed by the wrong word. -/
  | unbalancedControl
  /-- A defining word is not followed by a name. -/
  | expectingName
  /-- The control word has no meaning inside a body. -/
  | interpretOnly (name : String)
  | divisionByZero
  | invalidAddress
  /-- An event was delivered while nothing waits. -/
  | notSuspended
  /-- An event was delivered while another kind of event is awaited. -/
  | unexpectedEvent
  | unreadable (file reason : String)
  deriving DecidableEq, Repr, Inhabited

namespace Error

/-- The message for the user. -/
def message : Error → String
  | missingWord name => name ++ " ?"
  | stackUnderflow => "Stack underflow"
  | returnStackUnderflow => "Return stack underflow"
  | unbalancedControl => "Unbalanced control structure"
  | expectingName => "Expecting name"
  | interpretOnly name => name ++ " is interpret only"
  | divisionByZero => "Division by zero"
  | invalidAddress => "Invalid address"
  | notSuspended => "Nothing is waiting for input"
  | unexpectedEvent => "Unexpected event"
  | unreadable file reason => file ++ ": " ++ reason

/-- The name of the kind of error. -/
def kind : Error → String
  | missingWord _ => "MissingWord"
  | stackUnderflow => "StackUnderflow"
  | returnStackUnderflow => "ReturnStackUnderflow"
  | unbalancedControl => "UnbalancedControlStructure"
  | expectingName => "ExpectingName"
  | interpretOnly _ => "InterpretOnly"
  | divisionByZero => "DivisionByZero"
  | invalidAddress => "InvalidAddress"
  | notSuspended => "NotSuspended"
  | unexpectedEvent => "UnexpectedEvent"
  | unreadable _ _ => "IOError"

/-- The kind, with what the error is about in parentheses. -/
def label (e : Error) : String :=
  match e with
  | missingWord name | interpretOnly name => e.kind ++ "(" ++ name ++ ")"
  | unreadable file reason => e.kind ++ "(" ++ file ++ ": " ++ reason ++ ")"
  | _ => e.kind

end Error

end Forth
