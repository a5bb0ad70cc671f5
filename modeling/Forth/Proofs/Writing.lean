import Forth.Token

/-!
# Writing tokens on a line

Tokens are written on a line with a space between any two of them, and are taken off it again as
they were (`tokens_line`).  A word cannot be written if it holds a blank or is one of the markers
that begin a string literal or a comment, and a string cannot if it holds a quotation mark.
-/

namespace Forth.Token

open Text (isBlank)

/-- A token as it is written. -/
def text : Token → String
  | word name => name
  | string text => ".\" " ++ text ++ "\""

/-- The tokens on a line. -/
def line (ts : List Token) : String :=
  " ".intercalate (ts.map text)

/-- What begins a string literal or a comment. -/
def markers : List String :=
  [".\"", "(", "\\"]

/-- The token is taken off a line as it was written. -/
def isWritable : Token → Bool
  | word name => name != "" && name.toList.all (!isBlank ·) && !markers.contains name
  | string text => text.toList.all (· != '"')

/-- Nothing follows, or a blank does. -/
def Separated (rest : List Char) : Prop :=
  rest = [] ∨ startsBlank rest = true

/-- A blank before the next token makes no difference. -/
theorem next?_blank {c : Char} (cs : List Char) (hc : isBlank c = true) :
    next? (c :: cs) = next? cs := by
  simp only [next?, nextFrom, hc, Bool.false_eq_true, if_true, if_false]

theorem takeWord_append {name rest : List Char} (hname : ∀ c ∈ name, isBlank c = false)
    (hrest : Separated rest) : takeWord (name ++ rest) = (word (String.ofList name), rest) := by
  have hall : ∀ c ∈ name, (!isBlank c) = true := by
    intro c hc
    rw [hname c hc, Bool.not_false]
  have hstop : rest.takeWhile (!isBlank ·) = [] ∧ rest.dropWhile (!isBlank ·) = rest := by
    cases rest with
    | nil => exact ⟨rfl, rfl⟩
    | cons c rest =>
      have hblank : isBlank c = true := by
        obtain hnil | hblank := hrest
        · exact nomatch hnil
        · exact hblank
      simp [hblank]
  rw [takeWord, List.takeWhile_append_of_pos hall, List.dropWhile_append_of_pos hall, hstop.1,
    hstop.2, List.append_nil]

/-- Within a word no blank follows. -/
theorem eq_nil_of_startsBlank {cs rest : List Char} (hcs : ∀ c ∈ cs, isBlank c = false)
    (h : startsBlank (cs ++ rest) = true) : cs = [] := by
  cases cs with
  | nil => rfl
  | cons c cs =>
    have hc : isBlank c = false := hcs c (.head _)
    rw [List.cons_append, startsBlank, hc] at h
    exact nomatch h

/-- A word is taken off the line if nothing or a blank follows it. -/
theorem next?_word {name : String} {rest : List Char} (hname : (word name).isWritable = true)
    (hrest : Separated rest) : next? (name.toList ++ rest) = some (word name, rest) := by
  simp only [isWritable, Bool.and_eq_true, bne_iff_ne, List.all_eq_true, Bool.not_eq_true', markers,
    List.contains_cons, List.contains_nil, Bool.or_eq_false_iff, beq_eq_false_iff_ne,
    Bool.or_false] at hname
  obtain ⟨⟨hempty, hblank⟩, hquote, hparen, hbackslash⟩ := hname
  obtain ⟨cs, rfl⟩ : ∃ cs, name = String.ofList cs := ⟨name.toList, String.ofList_toList.symm⟩
  rw [String.toList_ofList] at hblank ⊢
  have hword := takeWord_append hblank hrest
  -- The marker words start no literal or comment here, since a blank would have to follow the
  -- marker, and then the word would be that marker.
  cases cs with
  | nil => exact absurd rfl hempty
  | cons c cs =>
    have hfirst : isBlank c = false := hblank c (.head _)
    have hothers : ∀ d ∈ cs, isBlank d = false := fun d hd => hblank d (.tail _ hd)
    have hparen' : ¬ (c = '(' ∧ startsBlank (cs ++ rest) = true) := by
      rintro ⟨rfl, h⟩
      obtain rfl := eq_nil_of_startsBlank hothers h
      exact hparen rfl
    have hbackslash' : ¬ (c = '\\' ∧ startsBlank (cs ++ rest) = true) := by
      rintro ⟨rfl, h⟩
      obtain rfl := eq_nil_of_startsBlank hothers h
      exact hbackslash rfl
    -- The marker of a string literal has two characters, so the second one may be the first of the
    -- rest.
    have hquote' : ¬ (c = '.' ∧ (cs ++ rest).head? = some '"' ∧
        startsBlank (cs ++ rest).tail = true) := by
      rintro ⟨rfl, hhead, h⟩
      cases cs with
      | nil =>
        obtain rfl | hstart := hrest
        · exact nomatch hhead
        · cases rest with
          | nil => exact nomatch hstart
          | cons d rest =>
            obtain rfl : d = '"' := Option.some.inj hhead
            exact nomatch hstart
      | cons d cs =>
        obtain rfl : d = '"' := Option.some.inj hhead
        obtain rfl := eq_nil_of_startsBlank (fun e he => hothers e (.tail _ he)) h
        exact hquote rfl
    rw [List.cons_append, next?, nextFrom]
    simp only [Bool.false_eq_true, if_false, hfirst, if_neg hparen', if_neg hbackslash',
      if_neg hquote']
    exact congrArg some hword

theorem bne_of_not_mem {d : Char} {cs : List Char} (h : d ∉ cs) : ∀ c ∈ cs, (c != d) = true := by
  intro c hc
  rw [bne_iff_ne]
  rintro rfl
  exact h hc

/-- A string literal ends at the quotation mark that closes it. -/
theorem takeString_closed {contents : String} (hcontents : '"' ∉ contents.toList)
    (rest : List Char) :
    takeString (contents.toList ++ '"' :: rest) = (string contents, rest) := by
  have hall := bne_of_not_mem hcontents
  rw [takeString, List.takeWhile_append_of_pos hall, List.dropWhile_append_of_pos hall]
  simp

/-- A string literal that is not closed goes to the end. -/
theorem takeString_unclosed {contents : String} (hcontents : '"' ∉ contents.toList) :
    takeString contents.toList = (string contents, []) := by
  have hall := bne_of_not_mem hcontents
  rw [← List.append_nil contents.toList, takeString, List.takeWhile_append_of_pos hall,
    List.dropWhile_append_of_pos hall]
  simp

/-- A string literal is taken off the line up to the quotation mark that closes it. -/
theorem next?_string {contents : String} (rest : List Char)
    (hcontents : (string contents).isWritable = true) :
    next? ((string contents).text.toList ++ rest) = some (string contents, rest) := by
  have hquote : '"' ∉ contents.toList := by
    intro h
    exact absurd (List.all_eq_true.1 hcontents _ h) (by decide)
  have htext : (string contents).text.toList ++ rest =
      '.' :: '"' :: ' ' :: (contents.toList ++ '"' :: rest) := by
    simp [text]
  rw [htext, ← takeString_closed hquote]
  rfl

theorem next?_text {t : Token} {rest : List Char} (ht : t.isWritable = true)
    (hrest : Separated rest) : next? (t.text.toList ++ rest) = some (t, rest) := by
  cases t with
  | word name => exact next?_word ht hrest
  | string contents => exact next?_string rest ht

theorem tokens_blank {c : Char} (cs : List Char) (hc : isBlank c = true) :
    tokens (c :: cs) = tokens cs := by
  rw [tokens, tokens, next?_blank cs hc]

theorem tokens_nil : tokens [] = [] :=
  tokens_of_next?_none rfl

/-- The tokens that are written on a line are the tokens that are taken off it. -/
theorem tokens_line {ts : List Token} (h : ts.all isWritable = true) :
    tokens (line ts).toList = ts := by
  induction ts with
  | nil => exact tokens_nil
  | cons t ts ih =>
    rw [List.all_cons, Bool.and_eq_true] at h
    obtain ⟨ht, hts⟩ := h
    cases ts with
    | nil =>
      have hnext := next?_text ht (.inl rfl)
      rw [List.append_nil] at hnext
      rw [line, List.map_singleton, String.intercalate_singleton, tokens_of_next? hnext, tokens_nil]
    | cons t' ts =>
      have hline : (line (t :: t' :: ts)).toList =
          t.text.toList ++ ' ' :: (line (t' :: ts)).toList := by
        simp [line]
      have hblank : Separated (' ' :: (line (t' :: ts)).toList) := .inr rfl
      have hnext := next?_text ht hblank
      rw [hline, tokens_of_next? hnext, tokens_blank _ rfl, ih hts]

theorem tokens_eq {text : String} {ts : List Token}
    (h : ts.all isWritable = true ∧ line ts = text) : tokens text.toList = ts := by
  obtain ⟨hts, rfl⟩ := h
  exact tokens_line hts

end Forth.Token
