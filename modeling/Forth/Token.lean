import Forth.Text.Blank

/-!
# Tokens of a line

A line is cut into words and string literals.  Words are maximal runs of characters that are not
blank.  Three markers, each only when a blank follows it, begin something else: `."` a string
literal that extends to the next quotation mark, `(` a comment that extends to the next closing
parenthesis, and a backslash a comment that extends to the end of the line.  A string or a comment
that is not closed extends to the end of the line, and a marker at the very end of the line, where
no blank follows, is a word.

`Token.next?` takes the next token off a line and `Token.tokens` takes them all.
-/

namespace Forth

inductive Token
  | word (name : String)
  | string (text : String)
  deriving DecidableEq, Repr, Inhabited

namespace Token

open Text (isBlank)

/-- Whether a blank comes first. -/
def startsBlank : List Char → Bool
  | [] => false
  | c :: _ => isBlank c

/-- The string literal that begins at the first character, right after the marker and one blank,
and what follows the quotation mark that closes it. -/
def takeString (cs : List Char) : Token × List Char :=
  (string (String.ofList (cs.takeWhile (· != '"'))), (cs.dropWhile (· != '"')).tail)

/-- The word that begins at the first character, and what follows it. -/
def takeWord (cs : List Char) : Token × List Char :=
  (word (String.ofList (cs.takeWhile fun c => !isBlank c)), cs.dropWhile fun c => !isBlank c)

/-- The next token and what follows it, where `inComment` tells that a parenthesis is open.  No
token at the end of the text. -/
def nextFrom (inComment : Bool) : List Char → Option (Token × List Char)
  | [] => none
  | c :: cs =>
    if inComment then
      nextFrom (c != ')') cs
    else if isBlank c then
      nextFrom false cs
    else if c = '(' ∧ startsBlank cs then
      nextFrom true cs
    else if c = '\\' ∧ startsBlank cs then
      none
    else if c = '.' ∧ cs.head? = some '"' ∧ startsBlank cs.tail then
      some (takeString (cs.drop 2))
    else
      some (takeWord (c :: cs))

/-- The next token of a line and what follows it; none once only blanks and comments are left. -/
def next? (cs : List Char) : Option (Token × List Char) :=
  nextFrom false cs

theorem length_takeString_le (cs : List Char) : (takeString cs).2.length ≤ cs.length := by
  have : (cs.dropWhile (· != '"')).length ≤ cs.length := (List.dropWhile_suffix _).length_le
  simp only [takeString, List.length_tail]
  omega

theorem length_takeWord_lt {c : Char} {cs : List Char} (h : isBlank c = false) :
    (takeWord (c :: cs)).2.length < (c :: cs).length := by
  have : (cs.dropWhile fun c => !isBlank c).length ≤ cs.length :=
    (List.dropWhile_suffix _).length_le
  simp only [takeWord, List.dropWhile_cons, h, Bool.not_false, if_true, List.length_cons]
  omega

theorem length_nextFrom_lt {inComment : Bool} {cs : List Char} {t : Token} {rest : List Char}
    (h : nextFrom inComment cs = some (t, rest)) : rest.length < cs.length := by
  induction cs generalizing inComment with
  | nil => simp [nextFrom] at h
  | cons c cs ih =>
    rw [nextFrom] at h
    split at h
    · exact Nat.lt_succ_of_lt (ih h)
    split at h
    · exact Nat.lt_succ_of_lt (ih h)
    rename_i hblank
    split at h
    · exact Nat.lt_succ_of_lt (ih h)
    split at h
    · simp at h
    split at h
    · have : (takeString (cs.drop 2)).2.length < (c :: cs).length :=
        Nat.lt_succ_of_le (Nat.le_trans (length_takeString_le _) (by simp))
      simp_all
    · have : (takeWord (c :: cs)).2.length < (c :: cs).length :=
        length_takeWord_lt (by simpa using hblank)
      simp_all

/-- A token takes at least one character off the line. -/
theorem length_next?_lt {cs : List Char} {t : Token} {rest : List Char}
    (h : next? cs = some (t, rest)) : rest.length < cs.length :=
  length_nextFrom_lt h

/-- All tokens of a line. -/
def tokens (cs : List Char) : List Token :=
  match _h : next? cs with
  | none => []
  | some (t, rest) => t :: tokens rest
termination_by cs.length
decreasing_by exact length_next?_lt ‹_›

theorem tokens_of_next?_none {cs : List Char} (h : next? cs = none) : tokens cs = [] := by
  rw [tokens]
  split
  · rfl
  · rename_i hnext
    exact nomatch h.symm.trans hnext

theorem tokens_of_next? {cs rest : List Char} {t : Token} (h : next? cs = some (t, rest)) :
    tokens cs = t :: tokens rest := by
  rw [tokens]
  split
  · rename_i hnone
    exact nomatch h.symm.trans hnone
  · rename_i hnext
    obtain ⟨rfl, rfl⟩ := Prod.mk.inj (Option.some.inj (h.symm.trans hnext))
    rfl

/-! ## A whole line at a glance -/

/-- Whether the line looks like the beginning of a definition: a colon is its first character that
is not blank. -/
def opensDefinition (cs : List Char) : Bool :=
  (cs.dropWhile isBlank).head? == some ':'

/-- Whether the line looks like the end of a definition: a semicolon is its last character that
is not blank. -/
def closesDefinition (cs : List Char) : Bool :=
  (cs.reverse.dropWhile isBlank).head? == some ';'

end Token

end Forth
