import Forth.Session.Call

/-!
# Serving the events of a line

A host that owns the events answers each wait as it comes: a delay by letting it pass, a key by
taking the next one from a supply.  A line that waits for a key when the supply is exhausted stays
as it is.
-/

namespace Forth

/-- The key that an input line stands for: its first character, or carriage return when the line
is empty. -/
def keyCode (line : String) : Cell :=
  match line.toList with
  | [] => 13
  | c :: _ => Int64.ofNat c.toNat

/-- Serves the waits of a line, given the reply to its submission.  `next` takes a key from the
supply.  Tells the last reply, the session and what is left of the supply. -/
def Session.serve {κ : Type} (next : κ → Option (Cell × κ)) :
    Nat → κ → Reply × Session → Option (Reply × Session × κ)
  | 0, _, _ => none
  | fuel + 1, supply, (reply, s) =>
    match reply with
    | .ok (.suspended .key) =>
      match next supply with
      | none => some (reply, s, supply)
      | some (code, supply) => (s.deliverKey fuel code).bind (serve next fuel supply)
    | .ok (.suspended (.timer _)) => (s.deliverTimer fuel).bind (serve next fuel supply)
    | _ => some (reply, s, supply)

/-- Takes the first key of a list. -/
def nextKey : List Cell → Option (Cell × List Cell)
  | [] => none
  | code :: codes => some (code, codes)

/-- Takes the key that the first line of input stands for. -/
def nextLineKey : List String → Option (Cell × List String)
  | [] => none
  | line :: lines => some (keyCode line, lines)

/-- Submits a line and serves its waits. -/
def Session.readAndServe {κ : Type} (s : Session) (fuel : Nat) (next : κ → Option (Cell × κ))
    (supply : κ) (text : String) : Option (Reply × Session × κ) :=
  (s.readLine fuel text).bind (serve next fuel supply)

end Forth
