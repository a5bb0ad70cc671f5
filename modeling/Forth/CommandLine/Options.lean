/-!
# Options of the command line

An argument that begins with a dash and is longer than that holds options: letters behind one dash,
of which the last may take a value, or one name behind two dashes, with a value behind an equals
sign.  A value that does not stand in the argument itself is the next argument, whatever that looks
like.  Two dashes alone end the options.  All other arguments are ignored.
-/

namespace Forth.CommandLine

inductive Switch
  | script
  | evaluate
  | noPrompt
  /-- Keeps what is typed at a terminal; other input has no history. -/
  | history
  | help
  deriving DecidableEq, Repr, Inhabited

/-- What is wrong with the arguments.  Options are named as they are spelled there, except for a
repeated one, which may have two spellings. -/
inductive OptionError
  | unrecognized (spelling : String)
  | valueMissing (spelling : String)
  | unexpectedValue (spelling : String)
  | repeated (switch : Switch)
  deriving DecidableEq, Repr, Inhabited

namespace Switch

/-- The switches in the order in which repetitions are looked for. -/
def all : List Switch := [script, evaluate, noPrompt, history, help]

/-- The name by which a repeated switch is reported. -/
def name : Switch → String
  | script => "s"
  | evaluate => "e"
  | noPrompt => "n"
  | history => "H"
  | help => "help"

/-- The switch of this spelling. -/
def ofSpelling (spelling : String) : Except OptionError Switch :=
  if spelling = "s" then .ok script
  else if spelling = "e" then .ok evaluate
  else if spelling = "n" then .ok noPrompt
  else if spelling = "H" then .ok history
  else if spelling = "h" ∨ spelling = "help" then .ok help
  else .error (.unrecognized spelling)

def takesValue : Switch → Bool
  | script | evaluate => true
  | _ => false

end Switch

def OptionError.message : OptionError → String
  | unrecognized spelling => "Unrecognized option: '" ++ spelling ++ "'"
  | valueMissing spelling => "Argument to option '" ++ spelling ++ "' missing"
  | unexpectedValue spelling => "Option '" ++ spelling ++ "' does not take an argument"
  | repeated switch => "Option '" ++ switch.name ++ "' given more than once"

/-! ## Groups of switches in one argument -/

/-- The switches of one argument as they are spelled, and the value of the last one if it stands
in the same argument. -/
structure Group where
  switches : List (String × Switch)
  value : Option String

/-- The group of letters behind one dash.  What follows a letter that takes a value is that
value. -/
def Group.ofLetters : List Char → Except OptionError Group
  | [] => .ok ⟨[], none⟩
  | c :: cs => do
    let switch ← Switch.ofSpelling c.toString
    if switch.takesValue ∧ ¬ cs.isEmpty then
      return ⟨[(c.toString, switch)], some (String.ofList cs)⟩
    else
      let group ← ofLetters cs
      return { group with switches := (c.toString, switch) :: group.switches }

/-- The group of one name behind two dashes. -/
def Group.ofName (cs : List Char) : Except OptionError Group := do
  let spelling := String.ofList (cs.takeWhile (· != '='))
  let switch ← Switch.ofSpelling spelling
  let value :=
    match cs.dropWhile (· != '=') with
    | [] => none
    | _ :: value => some (String.ofList value)
  return ⟨[(spelling, switch)], value⟩

/-- A switch with its value, if it takes one. -/
abbrev Setting := Switch × Option String

/-- Gives the switches of a group their values, where `next` is the argument that follows.  Tells
also whether that argument is used up.  Only the last switch of a group can have a value. -/
def Group.settings (next : Option String) (value : Option String) :
    List (String × Switch) → Except OptionError (List Setting × Bool)
  | [] => .ok ([], false)
  | (spelling, switch) :: more =>
    if switch.takesValue then
      match value, next with
      | some v, _ => .ok ([(switch, some v)], false)
      | none, some v => .ok ([(switch, some v)], true)
      | none, none => .error (.valueMissing spelling)
    else if more.isEmpty ∧ value.isSome then
      .error (.unexpectedValue spelling)
    else do
      let (rest, used) ← settings next value more
      return ((switch, none) :: rest, used)

/-- The settings of a list of arguments. -/
def settings : List String → Except OptionError (List Setting)
  | [] => .ok []
  | arg :: args =>
    let continueWith (group : Group) : Except OptionError (List Setting) := do
      match args with
      | [] => return (← Group.settings none group.value group.switches).1
      | next :: later =>
        let (first, used) ← Group.settings (some next) group.value group.switches
        return first ++ (← if used then settings later else settings (next :: later))
    match arg.toList with
    | ['-', '-'] => .ok []
    | '-' :: '-' :: name => do continueWith (← Group.ofName name)
    | '-' :: c :: letters => do continueWith (← Group.ofLetters (c :: letters))
    | _ => settings args

/-! ## All arguments together -/

/-- What the arguments ask for. -/
structure Options where
  /-- The file of a script to run. -/
  script : Option String
  /-- A line to run. -/
  line : Option String
  /-- Whether to run the lines of standard input. -/
  prompt : Bool
  /-- Whether to print the usage and do nothing else. -/
  help : Bool
  deriving DecidableEq, Repr, Inhabited

/-- Reads the arguments.  No option may be repeated. -/
def Options.parse (args : List String) : Except OptionError Options := do
  let given ← settings args
  match Switch.all.find? fun switch => 1 < given.countP (·.1 == switch) with
  | some switch => .error (.repeated switch)
  | none =>
    return {
      script := (given.lookup .script).join
      line := (given.lookup .evaluate).join
      prompt := (given.lookup .noPrompt).isNone
      help := (given.lookup .help).isSome }

end Forth.CommandLine
