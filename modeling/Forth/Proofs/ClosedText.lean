import Forth.Token

/-!
# Texts that end between tokens

A line that is broken between two tokens can be put together again with a blank in the place of the
break.  Where a text leaves off is found by reading it once from left to right (`closedFrom`): it
has to be outside of strings and comments, and not behind a marker that a blank would make one of
them.  Such a text has the same tokens whatever follows behind a blank (`next?_append_of_some`), and
what follows is then read as if it stood alone (`next?_append_of_none`).
-/

namespace Forth.Token

open Text (isBlank)

/-- Where the reading of a text stands. -/
inductive Scan
  | between
  | word
  /-- In a comment in parentheses. -/
  | comment
  /-- In front of the quotation mark of the marker of a string. -/
  | marker
  /-- Behind that marker, in front of the blank that belongs to it. -/
  | gap
  | string

/-- Nothing follows, or a blank does. -/
def endsOrBlank : List Char → Bool
  | [] => true
  | c :: _ => isBlank c

/-- The rest of a text ends between tokens and has no comment that goes to the end of the line. -/
def closedFrom : Scan → List Char → Bool
  | .between, [] | .word, [] => true
  | .comment, [] | .marker, [] | .gap, [] | .string, [] => false
  | .between, c :: cs =>
    if isBlank c then closedFrom .between cs
    else if c = '(' ∧ endsOrBlank cs then closedFrom .comment cs
    else if c = '\\' ∧ endsOrBlank cs then false
    else if c = '.' ∧ cs.head? = some '"' ∧ endsOrBlank cs.tail then closedFrom .marker cs
    else closedFrom .word cs
  | .word, c :: cs => if isBlank c then closedFrom .between cs else closedFrom .word cs
  | .comment, c :: cs => if c = ')' then closedFrom .between cs else closedFrom .comment cs
  | .marker, _ :: cs => closedFrom .gap cs
  | .gap, _ :: cs => closedFrom .string cs
  | .string, c :: cs => if c = '"' then closedFrom .between cs else closedFrom .string cs

/-- The text has no comment that goes to the end of the line and no string or comment that is not
closed, and it does not end with the bare marker of a string or a comment. -/
def isClosed (cs : List Char) : Bool :=
  closedFrom .between cs

example : isClosed ": f ( n -- ) .\" hi\" dup".toList = true := by decide
example : isClosed "1 2 ( open".toList = false := by decide
example : isClosed "1 .\"".toList = false := by decide

/-! ## What a token leaves -/

variable {c : Char} {cs more : List Char}

theorem startsBlank_append_blank (cs : List Char) (hc : isBlank c = true) :
    startsBlank (cs ++ c :: more) = endsOrBlank cs := by
  cases cs with
  | nil => exact hc
  | cons d cs => rfl

theorem endsOrBlank_of_startsBlank (h : startsBlank cs = true) : endsOrBlank cs = true := by
  cases cs with
  | nil => rfl
  | cons d cs => exact h

theorem takeWhile_word_append (cs more : List Char) (hc : isBlank c = true) :
    (cs ++ c :: more).takeWhile (fun d => !isBlank d) = cs.takeWhile (fun d => !isBlank d) ∧
      (cs ++ c :: more).dropWhile (fun d => !isBlank d) =
        cs.dropWhile (fun d => !isBlank d) ++ c :: more := by
  induction cs with
  | nil => simp [hc]
  | cons d cs ih =>
    rw [List.cons_append, List.takeWhile_cons, List.takeWhile_cons, List.dropWhile_cons,
      List.dropWhile_cons]
    by_cases hd : isBlank d = true
    · simp [hd]
    · simp [hd, ih]

/-- A word ends at a blank that follows it. -/
theorem takeWord_append_blank (cs : List Char) (hc : isBlank c = true) :
    takeWord (cs ++ c :: more) = ((takeWord cs).1, (takeWord cs).2 ++ c :: more) := by
  obtain ⟨htake, hdrop⟩ := takeWhile_word_append cs more hc
  simp only [takeWord, htake, hdrop]

/-- A string that is closed ends where it did. -/
theorem takeString_append (h : closedFrom .string cs = true) :
    takeString (cs ++ more) = ((takeString cs).1, (takeString cs).2 ++ more) := by
  have hboth : (cs ++ more).takeWhile (· != '"') = cs.takeWhile (· != '"') ∧
      ((cs ++ more).dropWhile (· != '"')).tail = (cs.dropWhile (· != '"')).tail ++ more := by
    induction cs with
    | nil => exact nomatch h
    | cons d cs ih =>
      rw [List.cons_append, List.takeWhile_cons, List.takeWhile_cons, List.dropWhile_cons,
        List.dropWhile_cons]
      by_cases hd : d = '"'
      · simp [hd]
      · rw [closedFrom, if_neg hd] at h
        simp [hd, ih h]
  simp only [takeString, hboth.1, hboth.2]

theorem closedFrom_takeWord (cs : List Char) :
    closedFrom .between (takeWord cs).2 = closedFrom .word cs := by
  show closedFrom .between (cs.dropWhile fun d => !isBlank d) = closedFrom .word cs
  induction cs with
  | nil => rfl
  | cons d cs ih =>
    rw [List.dropWhile_cons, closedFrom]
    by_cases hd : isBlank d = true
    · simp [hd, closedFrom]
    · simp [hd, ih]

theorem closedFrom_takeString (h : closedFrom .string cs = true) :
    closedFrom .between (takeString cs).2 = true := by
  show closedFrom .between (cs.dropWhile (· != '"')).tail = true
  induction cs with
  | nil => exact nomatch h
  | cons d cs ih =>
    rw [closedFrom] at h
    rw [List.dropWhile_cons]
    by_cases hd : d = '"'
    · rw [if_pos hd] at h
      simpa [hd] using h
    · rw [if_neg hd] at h
      simpa [hd] using ih h

/-! ## The next token -/

section

variable {d : Char}

theorem nextFrom_blank (hd : isBlank d = true) : nextFrom false (d :: cs) = nextFrom false cs := by
  rw [nextFrom, if_neg Bool.false_ne_true, if_pos hd]

theorem nextFrom_paren (h : startsBlank cs = true) :
    nextFrom false ('(' :: cs) = nextFrom true cs := by
  have hparen : '(' = '(' ∧ startsBlank cs = true := ⟨rfl, h⟩
  have hword : isBlank '(' = false := by decide
  rw [nextFrom, if_neg Bool.false_ne_true, hword, if_neg Bool.false_ne_true, if_pos hparen]

theorem nextFrom_quote (hd : isBlank d = true) :
    nextFrom false ('.' :: '"' :: d :: cs) = some (takeString cs) := by
  have hquote : '.' = '.' ∧ ('"' :: d :: cs).head? = some '"' ∧
      startsBlank ('"' :: d :: cs).tail = true := ⟨rfl, rfl, hd⟩
  have hword : isBlank '.' = false := by decide
  have hparen : ¬ ('.' = '(' ∧ startsBlank ('"' :: d :: cs) = true) := fun h => by simp at h
  have hbackslash : ¬ ('.' = '\\' ∧ startsBlank ('"' :: d :: cs) = true) := fun h => by simp at h
  rw [nextFrom, if_neg Bool.false_ne_true, hword, if_neg Bool.false_ne_true, if_neg hparen,
    if_neg hbackslash, if_pos hquote]
  rfl

theorem nextFrom_word (hd : isBlank d = false) (hparen : ¬ (d = '(' ∧ startsBlank cs = true))
    (hbackslash : ¬ (d = '\\' ∧ startsBlank cs = true))
    (hquote : ¬ (d = '.' ∧ cs.head? = some '"' ∧ startsBlank cs.tail = true)) :
    nextFrom false (d :: cs) = some (takeWord (d :: cs)) := by
  rw [nextFrom, if_neg Bool.false_ne_true, hd, if_neg Bool.false_ne_true, if_neg hparen,
    if_neg hbackslash, if_neg hquote]

end

/-- A marker of a string stays one, and nothing becomes one, when a blank follows the text. -/
theorem quote_append_blank (hc : isBlank c = true) :
    (cs ++ c :: more).head? = some '"' ∧ startsBlank (cs ++ c :: more).tail = true ↔
      cs.head? = some '"' ∧ endsOrBlank cs.tail = true := by
  cases cs with
  | nil =>
    have hquote : isBlank '"' = false := by decide
    constructor
    · rintro ⟨h, -⟩
      obtain rfl : c = '"' := Option.some.inj h
      exact nomatch hquote.symm.trans hc
    · exact fun h => nomatch h.1
  | cons e str =>
    rw [List.cons_append, List.head?_cons, List.tail_cons, startsBlank_append_blank str hc]
    rfl

/-- A blank and more text behind the text leave its next token what it was, and the rest of the
text closed.  Without a next token, the reading goes on with what is behind the blank. -/
def ReadsOn (c : Char) (more : List Char) (inComment : Bool) (cs : List Char) : Prop :=
  match nextFrom inComment cs with
  | none => nextFrom inComment (cs ++ c :: more) = nextFrom false more
  | some (t, rest) =>
    nextFrom inComment (cs ++ c :: more) = some (t, rest ++ c :: more) ∧
      closedFrom .between rest = true

theorem readsOn_string {d : Char} (hd : isBlank d = true) (h : closedFrom .string cs = true) :
    ReadsOn c more false ('.' :: '"' :: d :: cs) := by
  unfold ReadsOn
  rw [nextFrom_quote hd]
  refine ⟨?_, closedFrom_takeString h⟩
  rw [List.cons_append, List.cons_append, List.cons_append, nextFrom_quote hd, takeString_append h]
  rfl

theorem readsOn_word {d : Char} (hc : isBlank c = true) (hd : isBlank d = false)
    (hparen : ¬ (d = '(' ∧ endsOrBlank cs = true))
    (hbackslash : ¬ (d = '\\' ∧ endsOrBlank cs = true))
    (hquote : ¬ (d = '.' ∧ cs.head? = some '"' ∧ endsOrBlank cs.tail = true))
    (h : closedFrom .word cs = true) : ReadsOn c more false (d :: cs) := by
  have halone : nextFrom false (d :: cs) = some (takeWord (d :: cs)) := by
    apply nextFrom_word hd
    · exact fun h => hparen ⟨h.1, endsOrBlank_of_startsBlank h.2⟩
    · exact fun h => hbackslash ⟨h.1, endsOrBlank_of_startsBlank h.2⟩
    · exact fun h => hquote ⟨h.1, h.2.1, endsOrBlank_of_startsBlank h.2.2⟩
  have hinFront : nextFrom false (d :: (cs ++ c :: more)) =
      some (takeWord (d :: (cs ++ c :: more))) := by
    apply nextFrom_word hd
    · rwa [startsBlank_append_blank cs hc]
    · rwa [startsBlank_append_blank cs hc]
    · rwa [quote_append_blank hc]
  unfold ReadsOn
  rw [halone]
  refine ⟨?_, ?_⟩
  · rw [List.cons_append, hinFront, ← List.cons_append, takeWord_append_blank _ hc]
    rfl
  · show closedFrom .between (takeWord (d :: cs)).2 = true
    rw [closedFrom_takeWord, closedFrom, if_neg (Bool.eq_false_iff.1 hd)]
    exact h

/-- Behind a closed text, a blank ends nothing but the text. -/
theorem readsOn_of_closed (more : List Char) (inComment : Bool) (hc : isBlank c = true)
    (h : closedFrom (if inComment then .comment else .between) cs = true) :
    ReadsOn c more inComment cs := by
  induction cs generalizing inComment with
  | nil =>
    cases inComment with
    | true => cases h
    | false => exact nextFrom_blank hc
  | cons d cs ih =>
    cases inComment with
    | true =>
      unfold ReadsOn
      rw [nextFrom, List.cons_append, nextFrom]
      apply ih
      by_cases hd : d = ')' <;> simpa [closedFrom, hd] using h
    | false =>
      have hclosed : closedFrom .between (d :: cs) = true := h
      rw [closedFrom] at hclosed
      split at hclosed
      · rename_i hblank
        unfold ReadsOn
        rw [List.cons_append, nextFrom_blank hblank, nextFrom_blank hblank]
        exact ih false hclosed
      rename_i hblank
      split at hclosed
      · rename_i hparen
        obtain ⟨rfl, hends⟩ := hparen
        -- A comment that is closed does not end with its parenthesis.
        have hfollows : startsBlank cs = true := by
          cases cs with
          | nil => cases hclosed
          | cons e cs => exact hends
        unfold ReadsOn
        rw [List.cons_append, nextFrom_paren hfollows,
          nextFrom_paren ((startsBlank_append_blank cs hc).trans hends)]
        exact ih true hclosed
      rename_i hparen
      split at hclosed
      · cases hclosed
      rename_i hbackslash
      split at hclosed
      · rename_i hquote
        obtain ⟨rfl, hhead, hends⟩ := hquote
        obtain ⟨str, rfl⟩ := List.head?_eq_some_iff.1 hhead
        cases str with
        | nil => cases hclosed
        | cons e str =>
          rw [closedFrom, closedFrom] at hclosed
          exact readsOn_string hends hclosed
      · rename_i hquote
        exact readsOn_word hc (Bool.eq_false_iff.2 hblank) hparen hbackslash hquote hclosed

variable {t : Token} {rest : List Char}

/-- The tokens of a closed text are taken off a longer one in the same way. -/
theorem next?_append_of_some (more : List Char) (hc : isBlank c = true) (h : isClosed cs = true)
    (hnext : next? cs = some (t, rest)) :
    next? (cs ++ c :: more) = some (t, rest ++ c :: more) ∧ isClosed rest = true := by
  have happend := readsOn_of_closed more false hc h
  rw [ReadsOn, show nextFrom false cs = some (t, rest) from hnext] at happend
  exact happend

/-- What follows a closed text is read as if it stood alone. -/
theorem next?_append_of_none (more : List Char) (hc : isBlank c = true) (h : isClosed cs = true)
    (hnext : next? cs = none) : next? (cs ++ c :: more) = next? more := by
  have happend := readsOn_of_closed more false hc h
  rw [ReadsOn, show nextFrom false cs = none from hnext] at happend
  exact happend

end Forth.Token
