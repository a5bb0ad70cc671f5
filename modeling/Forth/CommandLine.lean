import Forth.CommandLine.Options
import Forth.Session.Boot
import Forth.Session.Serve

/-!
# The program

`CommandLine.run` is what the program does with its arguments, its standard input and the script
file that they name: it runs the script, then the line that stands among the arguments, then the
lines of standard input.  Keys are taken from standard input too, one line for each.  Standard input
is read as a plain stream, so there is no editing of lines, no prompt and no history, and nothing is
logged.
-/

namespace Forth.CommandLine

/-! ## Files and results -/

/-- Why a file cannot be read. -/
inductive ReadFailure
  | notFound
  | denied
  | notDirectory
  | isDirectory
  | notText
  deriving DecidableEq, Repr, Inhabited

def ReadFailure.reason : ReadFailure → String
  | notFound => "No such file or directory (os error 2)"
  | denied => "Permission denied (os error 13)"
  | notDirectory => "Not a directory (os error 20)"
  | isDirectory => "Is a directory (os error 21)"
  | notText => "stream did not contain valid UTF-8"

/-- The text of a file with these bytes. -/
def decodeText (bytes : ByteArray) : Except ReadFailure String :=
  match String.fromUTF8? bytes with
  | some text => .ok text
  | none => .error .notText

/-- How the program ends, and what it has written. -/
structure Outcome where
  code : UInt32
  stdout : String
  stderr : String
  deriving DecidableEq, Repr, Inhabited

def usage : String :=
  String.join
    ["Usage: xforth [options]\n",
     "\n",
     "Options:\n",
     "    -s FILE             run script file line by line\n",
     "    -e CODE             evaluate one line\n",
     "    -n                  exit instead of starting the repl\n",
     "    -H                  keep repl history in history.txt\n",
     "    -h, --help          print this help\n"]

/-! ## Running lines -/

/-- A session, and what is left of standard input. -/
abbrev Terminal := Session × List String

/-- Runs lines of a script up to the first line that is left without a key.  A line that fails
does not stop the script. -/
def runLines (fuel : Nat) : List String → Terminal → Option Terminal
  | [], t => some t
  | text :: texts, (s, input) => do
    match ← s.readAndServe fuel nextLineKey input text with
    | (.ok (.suspended _), t) => return t
    | (_, t) => runLines fuel texts t

/-- Runs a script. -/
def runScript (fuel : Nat) (source : String) (t : Terminal) : Option Terminal := do
  let (s, input) ← runLines fuel (Text.lines source) t
  return (s.print "\n", input)

/-- Runs the line that stands among the arguments. -/
def runArgument (fuel : Nat) (text : String) : Terminal → Option Terminal
  | (s, input) => do
    let (_, s, input) ← s.readAndServe fuel nextLineKey input text
    return (s.print "\n", input)

/-- Runs the lines of standard input.  It ends when a line is left without a key or when the input
ends.  Each round takes a line at least, so `rounds` has to be more than their number. -/
def runPrompt (fuel : Nat) : Nat → Terminal → Option Terminal
  | 0, _ => none
  | _ + 1, (s, []) => some (s.print "CTRL-D\n", [])
  | rounds + 1, (s, text :: input) => do
    match ← s.readAndServe fuel nextLineKey input text with
    | (.ok (.suspended _), s, input) => return (s.print "CTRL-C\n", input)
    | (_, s, input) => runPrompt fuel rounds (s.print "\n", input)

/-- Runs the script, the line and the standard input, as far as the options ask for them. -/
def Options.run (options : Options) (fuel : Nat) (script : Option String) (t : Terminal) :
    Option Terminal := do
  let t ← script.elim (some t) (runScript fuel · t)
  let t ← options.line.elim (some t) (runArgument fuel · t)
  if options.prompt then runPrompt fuel (t.2.length + 1) t else some t

/-! ## The whole program -/

/-- The file that the program has to read before it can run. -/
def scriptName? (args : List String) : Option String :=
  match Options.parse args with
  | .ok options => if options.help then none else options.script
  | .error _ => none

/-- Whether the program gets as far as running lines, so that it may take standard input. -/
def takesInput (args : List String) : Bool :=
  match Options.parse args with
  | .ok options => !options.help
  | .error _ => false

/-- What the program does.  `read` tells the content of a file; only the file `scriptName?` is
asked for. -/
def run (fuel : Nat) (random : Nat → UInt64) (args : List String)
    (read : String → Except ReadFailure String) (stdin : String) : Option Outcome :=
  match Options.parse args with
  | .error e => some ⟨2, usage, e.message ++ "\n"⟩
  | .ok options =>
    if options.help then
      some ⟨0, usage, ""⟩
    else
      let finish (script : Option String) : Option Outcome := do
        let (s, _) ← options.run fuel script (.boot random, Text.lines stdin)
        return ⟨0, s.machine.output.console, ""⟩
      match options.script with
      | none => finish none
      | some file =>
        match read file with
        | .error failure =>
          some ⟨1, "", (Error.unreadable file failure.reason).message ++ "\n"⟩
        | .ok source => finish (some source)

end Forth.CommandLine
