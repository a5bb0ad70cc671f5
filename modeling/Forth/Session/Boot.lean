import Forth.Session.Call

/-!
# A session with the words of the language

A new session has the control words, the primitive words, and the words of the prelude, which are
defined in the language itself.
-/

namespace Forth

/-- The source text of the words that are defined in the language itself. -/
def preludeLines : List String :=
  ["\\ words defined in the language itself",
   "variable last-key",
   ": cells   1 * ;",
   ": cr      10 emit ;",
   ": space   32 emit ;",
   ": spaces  0 do space loop ;",
   ": 0=      0 = ;",
   ": 0<      0 < ;",
   ": 0>      0 > ;",
   ": ?dup    dup if dup then ;",
   ": 2dup    over over ;",
   ": 1+      1 + ;",
   ": 1-      1 - ;",
   ": 2+      2 + ;",
   ": 2-      2 - ;",
   ": 2*      2 * ;",
   ": 2/      2 / ;",
   ": negate  -1 * ;",
   ": abs     dup 0< if negate then ;",
   ": min     2dup < if drop else swap drop then ;",
   ": max     2dup < if swap drop else drop then ;",
   ": ?       @ . ;",
   ": +!      dup @ rot + swap ! ;"]

namespace Session

/-- A session that knows the control words and the primitive words. -/
def withPrimitives (random : Nat → UInt64) : Session :=
  Primitive.builtIn.foldl (fun s (name, action) => s.addPrimitive name action) (bare random)

/-- A session with all words of the language.  The prelude only defines words, so few steps are
enough for each of its lines; what it prints is dropped. -/
def boot (random : Nat → UInt64) : Session :=
  match (withPrimitives random).loadLines 100 preludeLines with
  | some (.ok (), s) => s.takeConsole.2
  | _ => withPrimitives random

end Session

end Forth
