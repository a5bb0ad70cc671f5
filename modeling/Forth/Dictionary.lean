import Forth.Definition

/-!
# The dictionary

What names stand for, the newest entry first.  Entries are never replaced: a new entry under an
old name shadows the old one.  Names are kept and looked up in lower case.
-/

namespace Forth

/-- What a name stands for. -/
inductive Meaning
  | control (c : Control)
  | word (definition : Definition)
  deriving Inhabited

/-- What the meaning is, in words; a primitive has no such text. -/
def Meaning.label? : Meaning → Option String
  | control c => some ("control:" ++ c.name)
  | word (.compiled _) => some "compiled"
  | word (.value n) => some ("value:" ++ n.decimal)
  | word (.primitive _) => none

/-- Names in lower case with their meanings, the newest first. -/
abbrev Dictionary := List (String × Meaning)

namespace Dictionary

def add (d : Dictionary) (name : String) (meaning : Meaning) : Dictionary :=
  (Text.lowerCase name, meaning) :: d

/-- The newest meaning of a name. -/
def find? (d : Dictionary) (name : String) : Option Meaning :=
  d.lookup (Text.lowerCase name)

def names (d : Dictionary) : List String :=
  d.map Prod.fst

theorem find?_add (d : Dictionary) (name other : String) (meaning : Meaning) :
    (d.add name meaning).find? other =
      if Text.lowerCase other = Text.lowerCase name then some meaning else d.find? other := by
  simp only [find?, add, List.lookup_cons]
  split <;> simp_all

end Dictionary

end Forth
