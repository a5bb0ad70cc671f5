import Forth.Proofs.ClosedText
import Forth.Proofs.Writing

/-!
# The layout of a text

A text holds its tokens in some layout: there are blanks and comments in front of each token, a word
is followed by a blank or by nothing, a string stands behind its marker and one blank, and the text
may end in a string or a comment that is not closed.  `Written` tells which texts are layouts of a
list of tokens.  Every text is a layout of one list, which is the list of the tokens that are taken
off it (`tokens_eq_iff`).

A reader takes tokens off a text one by one, or passes over the rest of the line (`Reading`).  It
finds the tokens that are written there and nothing after them (`read_iff_written`).  The tokens of
a text can be written with a space between any two of them instead, and are still the same
(`tokens_are_canonical`).
-/

namespace Forth.Token

open Text (isBlank)

/-! ## Layouts -/

/-- Blanks and comments in parentheses. -/
inductive Gap : List Char → Prop
  | nil : Gap []
  | blank {c : Char} {gap : List Char} (hc : isBlank c = true) (hgap : Gap gap) : Gap (c :: gap)
  | comment {c : Char} {comment gap : List Char} (hc : isBlank c = true) (hcomment : ')' ∉ comment)
    (hgap : Gap gap) : Gap ('(' :: c :: (comment ++ ')' :: gap))

/-- What may stand behind the last token and the gap after it: nothing, a comment in parentheses that
is not closed, or a comment that goes to the end of the line. -/
inductive Trailer : List Char → Prop
  | nothing : Trailer []
  | comment {c : Char} {comment : List Char} (hc : isBlank c = true) (hcomment : ')' ∉ comment) :
    Trailer ('(' :: c :: comment)
  | line {c : Char} (hc : isBlank c = true) (comment : List Char) : Trailer ('\\' :: c :: comment)

/-- The characters stand for the token if this rest follows them.  A word that looks like a marker is
one, except at the end of the text, and only there may a string go without its closing quotation
mark. -/
inductive Renders : Token → List Char → List Char → Prop
  | word {name : String} {rest : List Char} (hname : (word name).isWritable = true)
    (hrest : Separated rest) : Renders (word name) name.toList rest
  | marker {name : String} (hname : name ∈ markers) : Renders (.word name) name.toList []
  | string {contents : String} {c : Char} (hc : isBlank c = true) (hcontents : '"' ∉ contents.toList)
    (rest : List Char) :
    Renders (string contents) ('.' :: '"' :: c :: (contents.toList ++ ['"'])) rest
  | unclosed {contents : String} {c : Char} (hc : isBlank c = true)
    (hcontents : '"' ∉ contents.toList) :
    Renders (.string contents) ('.' :: '"' :: c :: contents.toList) []

/-- The text is a layout of the tokens. -/
inductive Written : List Token → List Char → Prop
  | nil {gap trailer : List Char} (hgap : Gap gap) (htrailer : Trailer trailer) :
    Written [] (gap ++ trailer)
  | cons {t : Token} {ts : List Token} {gap spelled rest : List Char} (hgap : Gap gap)
    (ht : Renders t spelled rest) (hts : Written ts rest) :
    Written (t :: ts) (gap ++ (spelled ++ rest))

variable {t : Token} {ts : List Token} {cs spelled rest : List Char} {c : Char}

/-! ## Taking a token off a layout -/

/-- A comment is passed over up to the parenthesis that closes it. -/
theorem nextFrom_closed {comment : List Char} (h : ')' ∉ comment) (rest : List Char) :
    nextFrom true (comment ++ ')' :: rest) = next? rest := by
  induction comment with
  | nil => rfl
  | cons c comment ih =>
    obtain ⟨hc, hcomment⟩ := not_or.1 (mt List.mem_cons.2 h)
    have hopen : (c != ')') = true := bne_iff_ne.2 (Ne.symm hc)
    rw [List.cons_append, nextFrom, if_pos rfl, hopen, ih hcomment]

/-- In a comment that is not closed there is no further token. -/
theorem nextFrom_unclosed {comment : List Char} (h : ')' ∉ comment) :
    nextFrom true comment = none := by
  induction comment with
  | nil => rfl
  | cons c comment ih =>
    obtain ⟨hc, hcomment⟩ := not_or.1 (mt List.mem_cons.2 h)
    have hopen : (c != ')') = true := bne_iff_ne.2 (Ne.symm hc)
    rw [nextFrom, if_pos rfl, hopen, ih hcomment]

/-- Behind its marker and a blank a comment begins. -/
theorem next?_paren (hc : isBlank c = true) (cs : List Char) :
    next? ('(' :: c :: cs) = nextFrom true cs := by
  have hopen : (c != ')') = true := by
    rw [bne_iff_ne]
    rintro rfl
    exact absurd hc (by decide)
  have hmarker : startsBlank (c :: cs) = true := hc
  rw [next?, nextFrom_paren hmarker, nextFrom, if_pos rfl, hopen]

theorem next?_gap {gap : List Char} (h : Gap gap) (cs : List Char) :
    next? (gap ++ cs) = next? cs := by
  induction h with
  | nil => rfl
  | blank hc _ ih => rw [List.cons_append, next?_blank _ hc, ih]
  | comment hc hcomment _ ih =>
    rw [List.cons_append, List.cons_append, List.append_assoc, List.cons_append, next?_paren hc,
      nextFrom_closed hcomment, ih]

theorem next?_trailer {trailer : List Char} (h : Trailer trailer) : next? trailer = none := by
  cases h with
  | nothing => rfl
  | comment hc hcomment => rw [next?_paren hc, nextFrom_unclosed hcomment]
  | @line c hc comment =>
    have hmarker : '\\' = '\\' ∧ startsBlank (c :: comment) = true := ⟨rfl, hc⟩
    have hword : isBlank '\\' = false := by decide
    have hparen : ¬ ('\\' = '(' ∧ startsBlank (c :: comment) = true) := fun h => by simp at h
    rw [next?, nextFrom, if_neg Bool.false_ne_true, hword, if_neg Bool.false_ne_true, if_neg hparen,
      if_pos hmarker]

theorem markers_cases {name : String} (h : name ∈ markers) :
    name = ".\"" ∨ name = "(" ∨ name = "\\" := by
  simpa [markers] using h

/-- What stands for a token is read as that token, and the rest is left. -/
theorem Renders.next?_eq (h : Renders t spelled rest) :
    next? (spelled ++ rest) = some (t, rest) := by
  cases h with
  | word hname hrest => exact next?_word hname hrest
  | marker hname =>
    rw [List.append_nil]
    obtain rfl | rfl | rfl := markers_cases hname <;> rfl
  | string hc hcontents =>
    have hstring := takeString_closed hcontents rest
    rw [List.cons_append, List.cons_append, List.cons_append, List.append_assoc, next?,
      nextFrom_quote hc, List.singleton_append, hstring]
  | unclosed hc hcontents =>
    rw [List.append_nil, next?, nextFrom_quote hc, takeString_unclosed hcontents]

/-! ## Every text is a layout -/

/-- What is taken off the text, according to its layout: a token with what follows it, or nothing. -/
inductive Laid : List Char → Option (Token × List Char) → Prop
  | nothing {gap trailer : List Char} (hgap : Gap gap) (htrailer : Trailer trailer) :
    Laid (gap ++ trailer) none
  | token {t : Token} {gap spelled rest : List Char} (hgap : Gap gap) (ht : Renders t spelled rest) :
    Laid (gap ++ (spelled ++ rest)) (some (t, rest))

theorem Laid.next?_eq {r : Option (Token × List Char)} (h : Laid cs r) : next? cs = r := by
  cases h with
  | nothing hgap htrailer => rw [next?_gap hgap, next?_trailer htrailer]
  | token hgap ht => rw [next?_gap hgap, ht.next?_eq]

/-- A blank or a comment in front makes the gap longer. -/
theorem Laid.behind {r : Option (Token × List Char)} (h : Laid cs r) (front : List Char)
    (hfront : ∀ gap, Gap gap → Gap (front ++ gap)) : Laid (front ++ cs) r := by
  cases h with
  | nothing hgap htrailer =>
    rw [← List.append_assoc]
    exact .nothing (hfront _ hgap) htrailer
  | token hgap ht =>
    rw [← List.append_assoc]
    exact .token (hfront _ hgap) ht

theorem Laid.of_renders (h : Renders t spelled rest) : Laid (spelled ++ rest) (some (t, rest)) :=
  .token .nil h

theorem Laid.of_trailer {trailer : List Char} (h : Trailer trailer) : Laid trailer none :=
  .nothing .nil h

/-- Behind the marker of a string there is a string, closed or not. -/
theorem laid_string (hc : isBlank c = true) (cs : List Char) :
    Laid ('.' :: '"' :: c :: cs) (some (takeString cs)) := by
  by_cases hclosed : '"' ∈ cs
  · obtain ⟨contents, rest, rfl, hcontents⟩ := List.eq_append_cons_of_mem hclosed
    obtain ⟨text, rfl⟩ : ∃ text : String, contents = text.toList :=
      ⟨String.ofList contents, String.toList_ofList.symm⟩
    have hrenders := Laid.of_renders (.string hc hcontents rest)
    rw [takeString_closed hcontents]
    simpa using hrenders
  · obtain ⟨text, rfl⟩ : ∃ text : String, cs = text.toList :=
      ⟨String.ofList cs, String.toList_ofList.symm⟩
    have hrenders := Laid.of_renders (.unclosed hc hclosed)
    rw [takeString_unclosed hclosed]
    simpa using hrenders

/-- A word goes up to the next blank. -/
theorem takeWord_spec (cs : List Char) :
    ∃ name rest, takeWord cs = (word name, rest) ∧ cs = name.toList ++ rest ∧
      (∀ d ∈ name.toList, isBlank d = false) ∧ Separated rest := by
  refine ⟨_, _, rfl, ?_, ?_, ?_⟩
  · rw [String.toList_ofList, List.takeWhile_append_dropWhile]
  · intro d hd
    rw [String.toList_ofList] at hd
    simpa using List.all_eq_true.1 List.all_takeWhile d hd
  · have hstop : ∀ d rest, cs.dropWhile (fun c => !isBlank c) = d :: rest → isBlank d = true := by
      intro d rest h
      have hhead := List.head?_dropWhile_not (fun c => !isBlank c) cs
      rw [h] at hhead
      simpa using hhead
    rw [Separated]
    cases hrest : cs.dropWhile fun c => !isBlank c with
    | nil => exact .inl rfl
    | cons d rest => exact .inr (hstop d rest hrest)

/-- A word that begins with the first character, if no marker does. -/
theorem laid_word (hc : isBlank c = false) (hparen : ¬ (c = '(' ∧ startsBlank cs = true))
    (hbackslash : ¬ (c = '\\' ∧ startsBlank cs = true))
    (hquote : ¬ (c = '.' ∧ cs.head? = some '"' ∧ startsBlank cs.tail = true)) :
    Laid (c :: cs) (some (takeWord (c :: cs))) := by
  obtain ⟨name, rest, htake, hcs, hname, hrest⟩ := takeWord_spec (c :: cs)
  have hempty : name ≠ "" := by
    rintro rfl
    rw [show "".toList = [] from rfl, List.nil_append] at hcs
    obtain rfl | hblank := hrest
    · cases hcs
    · rw [← hcs, startsBlank, hc] at hblank
      cases hblank
  rw [htake, hcs]
  by_cases hmarker : name ∈ markers
  · -- What looks like a marker is no marker, so no blank follows it.
    obtain rfl | hblank := hrest
    · exact Laid.of_renders (.marker hmarker)
    · obtain rfl | rfl | rfl := markers_cases hmarker
      · obtain ⟨rfl, rfl⟩ := List.cons.inj hcs
        exact absurd ⟨rfl, rfl, hblank⟩ hquote
      · obtain ⟨rfl, rfl⟩ := List.cons.inj hcs
        exact absurd ⟨rfl, hblank⟩ hparen
      · obtain ⟨rfl, rfl⟩ := List.cons.inj hcs
        exact absurd ⟨rfl, hblank⟩ hbackslash
  · refine Laid.of_renders (.word ?_ hrest)
    simpa [isWritable, hempty, hmarker] using hname

/-- Behind the marker of a comment there is a comment, and the layout goes on behind it if it is
closed. -/
theorem laid_comment (hc : isBlank c = true)
    (hbehind : ∀ rest : List Char, rest.length < cs.length → Laid rest (next? rest)) :
    Laid ('(' :: c :: cs) (next? ('(' :: c :: cs)) := by
  rw [next?_paren hc]
  by_cases hclosed : ')' ∈ cs
  · obtain ⟨comment, rest, rfl, hcomment⟩ := List.eq_append_cons_of_mem hclosed
    have hshorter : rest.length < (comment ++ ')' :: rest).length := by
      rw [List.length_append, List.length_cons]
      omega
    have hlonger := (hbehind rest hshorter).behind ('(' :: c :: (comment ++ [')'])) fun gap hgap => by
      simpa using Gap.comment hc hcomment hgap
    rw [nextFrom_closed hcomment]
    simpa using hlonger
  · rw [nextFrom_unclosed hclosed]
    exact .of_trailer (.comment hc hclosed)

theorem exists_cons_of_startsBlank (h : startsBlank cs = true) :
    ∃ c rest, cs = c :: rest ∧ isBlank c = true := by
  cases cs with
  | nil => exact absurd h Bool.false_ne_true
  | cons c rest => exact ⟨c, rest, rfl, h⟩

/-- **The next token of a text is what its layout tells.** -/
theorem laid_next? (cs : List Char) : Laid cs (next? cs) := by
  -- A comment may be long, so the induction is on the length of the text.
  induction hn : cs.length using Nat.strongRecOn generalizing cs with
  | ind n ih =>
    subst hn
    cases cs with
    | nil => exact .nothing .nil .nothing
    | cons c cs =>
      have hbehind (rest : List Char) (h : rest.length < (c :: cs).length) : Laid rest (next? rest) :=
        ih rest.length h rest rfl
      by_cases hblank : isBlank c = true
      · rw [next?_blank cs hblank]
        exact (hbehind cs (Nat.lt_succ_self _)).behind [c] fun gap hgap => .blank hblank hgap
      rw [Bool.not_eq_true] at hblank
      by_cases hparen : c = '(' ∧ startsBlank cs = true
      · obtain ⟨rfl, hstart⟩ := hparen
        obtain ⟨d, cs, rfl, hd⟩ := exists_cons_of_startsBlank hstart
        apply laid_comment hd
        intro rest h
        apply hbehind
        simp only [List.length_cons]
        omega
      by_cases hbackslash : c = '\\' ∧ startsBlank cs = true
      · obtain ⟨rfl, hstart⟩ := hbackslash
        obtain ⟨d, cs, rfl, hd⟩ := exists_cons_of_startsBlank hstart
        have htrailer : Trailer ('\\' :: d :: cs) := .line hd cs
        rw [next?_trailer htrailer]
        exact .of_trailer htrailer
      by_cases hquote : c = '.' ∧ cs.head? = some '"' ∧ startsBlank cs.tail = true
      · obtain ⟨rfl, hhead, hstart⟩ := hquote
        obtain ⟨cs, rfl⟩ := List.head?_eq_some_iff.1 hhead
        obtain ⟨d, cs, rfl, hd⟩ := exists_cons_of_startsBlank hstart
        rw [next?, nextFrom_quote hd]
        exact laid_string hd cs
      · rw [next?, nextFrom_word hblank hparen hbackslash hquote]
        exact laid_word hblank hparen hbackslash hquote

/-- **A text is a layout of its tokens and of no other list.** -/
theorem tokens_eq_iff : tokens cs = ts ↔ Written ts cs := by
  constructor
  · rintro rfl
    induction hn : cs.length using Nat.strongRecOn generalizing cs with
    | ind n ih =>
      subst hn
      have hlaid := laid_next? cs
      generalize hnext : next? cs = r at hlaid
      cases hlaid with
      | nothing hgap htrailer =>
        rw [tokens_of_next?_none hnext]
        exact .nil hgap htrailer
      | token hgap ht =>
        rw [tokens_of_next? hnext]
        exact .cons hgap ht (ih _ (length_next?_lt hnext) rfl)
  · intro h
    induction h with
    | nil hgap htrailer =>
      exact tokens_of_next?_none (Laid.nothing hgap htrailer).next?_eq
    | cons hgap ht _ ih =>
      rw [tokens_of_next? (Laid.token hgap ht).next?_eq, ih]

/-! ## Reading a text -/

/-- What a reader does: it takes the next token, or it passes over the rest of the line. -/
inductive Reading
  | next
  | skip

/-- What a reading leaves of a text.  When there is no further token, nothing is left of it. -/
def Reading.leaves (cs : List Char) : Reading → List Char
  | next =>
    match next? cs with
    | none => []
    | some (_, rest) => rest
  | skip => []

/-- The token that is found after some readings, if there is one. -/
def read (readings : List Reading) (cs : List Char) : Option Token :=
  (next? (readings.foldl Reading.leaves cs)).map Prod.fst

theorem read_cons (r : Reading) (readings : List Reading) (cs : List Char) :
    read (r :: readings) cs = read readings (r.leaves cs) := rfl

/-- Where nothing is left, nothing is found any more. -/
theorem read_nil (readings : List Reading) : read readings [] = none := by
  induction readings with
  | nil => rfl
  | cons r readings ih =>
    rw [read_cons]
    cases r <;> exact ih

/-- A reader that only takes tokens finds them one after the other, and then none for ever. -/
theorem read_next (n : Nat) (cs : List Char) :
    read (List.replicate n .next) cs = (tokens cs)[n]? := by
  induction n generalizing cs with
  | zero =>
    rw [List.replicate_zero, read, List.foldl_nil]
    cases hnext : next? cs with
    | none =>
      rw [tokens_of_next?_none hnext]
      rfl
    | some taken =>
      rw [tokens_of_next? hnext]
      rfl
  | succ n ih =>
    rw [List.replicate_succ, read_cons, Reading.leaves]
    cases hnext : next? cs with
    | none =>
      rw [tokens_of_next?_none hnext]
      exact read_nil _
    | some taken =>
      rw [tokens_of_next? hnext, List.getElem?_cons_succ]
      exact ih taken.2

/-- **A text is read as it is written.**  Whatever the layout of a list of tokens is, a reader that
takes one token after the other finds exactly these, and none any more after the last one; and if it
does, the text is a layout of these tokens. -/
theorem read_iff_written (ts : List Token) (cs : List Char) :
    (∀ n, read (List.replicate n .next) cs = ts[n]?) ↔ Written ts cs := by
  simp only [read_next]
  rw [← tokens_eq_iff]
  constructor
  · exact List.ext_getElem?
  · rintro rfl n
    rfl

/-- A comment in front, a string that looks like the beginning of a comment and has a word right behind
it, and a bare marker at the end. -/
theorem read_iff_written_mixed :
    Written [word "1", string "( ", word "2", word "("] "( a)1\t.\" ( \"2\u2003(".toList ∧
      read (List.replicate 3 .next) "( a)1\t.\" ( \"2\u2003(".toList = some (word "(") ∧
      read (List.replicate 4 .next) "( a)1\t.\" ( \"2\u2003(".toList = none := by
  have hmarker : Written [word "("] "\u2003(".toList :=
    .cons (.blank rfl .nil) (.marker (by decide)) (.nil .nil .nothing)
  have hword : Written [word "2", word "("] "2\u2003(".toList :=
    .cons .nil (.word (by decide) (.inr rfl)) hmarker
  have hstring : Written [string "( ", word "2", word "("] "\t.\" ( \"2\u2003(".toList :=
    .cons (.blank rfl .nil) (.string rfl (by decide) _) hword
  have hcomment : ')' ∉ ['a'] := by decide
  have hfirst : (word "1").isWritable = true := by decide
  have hwritten : Written [word "1", string "( ", word "2", word "("]
      "( a)1\t.\" ( \"2\u2003(".toList :=
    .cons (.comment rfl hcomment .nil) (.word hfirst (.inr rfl)) hstring
  have hread := (read_iff_written _ _).2 hwritten
  exact ⟨hwritten, hread 3, hread 4⟩

/-! ## The canonical text -/

theorem Written.blank (h : Written ts cs) (hc : isBlank c = true) : Written ts (c :: cs) := by
  cases h with
  | nil hgap htrailer => exact .nil (.blank hc hgap) htrailer
  | cons hgap ht hts => exact .cons (.blank hc hgap) ht hts

/-- Nothing is written on an empty text. -/
theorem Written.eq_nil (h : Written ts []) : ts = [] := by
  rw [← tokens_eq_iff.2 h, tokens_nil]

/-- A token is spelled the canonical way in front of any rest that separates it from what follows,
but a marker only at the end. -/
theorem Renders.canonical {more : List Char} (h : Renders t spelled rest) (hmore : Separated more)
    (hend : rest = [] → more = []) : Renders t t.text.toList more := by
  have hstring {contents : String} (hcontents : '"' ∉ contents.toList) :
      Renders (.string contents) (Token.string contents).text.toList more := by
    have hrenders := Renders.string (c := ' ') rfl hcontents more
    simpa [text] using hrenders
  cases h with
  | word hname _ => exact .word hname hmore
  | marker hname =>
    rw [hend rfl]
    exact .marker hname
  | string _ hcontents => exact hstring hcontents
  | unclosed _ hcontents => exact hstring hcontents

/-- The tokens of a text can be written with a space between any two of them. -/
theorem Written.canonical (h : Written ts cs) : Written ts (line ts).toList := by
  induction h with
  | nil _ _ => exact .nil .nil .nothing
  | @cons t ts gap spelled rest _ ht hts ih =>
    cases ts with
    | nil =>
      have hrenders := ht.canonical (.inl rfl) fun _ => rfl
      have hline : (line [t]).toList = t.text.toList ++ [] := by simp [line]
      rw [hline]
      exact .cons .nil hrenders (.nil .nil .nothing)
    | cons t' ts =>
      have hline : (line (t :: t' :: ts)).toList =
          t.text.toList ++ ' ' :: (line (t' :: ts)).toList := by
        simp [line]
      have hrenders : Renders t t.text.toList (' ' :: (line (t' :: ts)).toList) := by
        apply ht.canonical (.inr rfl)
        rintro rfl
        exact absurd hts.eq_nil (List.cons_ne_nil _ _)
      rw [hline]
      exact .cons .nil hrenders (ih.blank rfl)

/-- What a token can be: a word is not empty and has no blanks, a string has no quotation mark. -/
def IsProper : Token → Prop
  | word name => name ≠ "" ∧ ∀ c ∈ name.toList, isBlank c = false
  | string contents => '"' ∉ contents.toList

theorem Renders.isProper (h : Renders t spelled rest) : t.IsProper := by
  cases h with
  | word hname _ =>
    simp only [isWritable, Bool.and_eq_true, bne_iff_ne, List.all_eq_true, Bool.not_eq_true']
      at hname
    exact hname.1
  | marker hname => obtain rfl | rfl | rfl := markers_cases hname <;> simp [IsProper] <;> decide
  | string _ hcontents => exact hcontents
  | unclosed _ hcontents => exact hcontents

/-- The tokens on a text are what tokens can be, and what looks like a marker is the last one. -/
theorem Written.proper (h : Written ts cs) {before after : List Token}
    (hts : ts = before ++ t :: after) :
    t.IsProper ∧ ∀ name ∈ markers, t = word name → after = [] := by
  induction h generalizing before with
  | nil _ _ => simp at hts
  | @cons t' ts gap spelled rest _ ht hrest ih =>
    cases before with
    | cons b before => exact ih (List.cons.inj hts).2
    | nil =>
      obtain ⟨rfl, rfl⟩ := List.cons.inj hts
      refine ⟨ht.isProper, ?_⟩
      rintro name hname rfl
      cases ht with
      | word hwritable _ => simp [isWritable, hname] at hwritable
      | marker _ => exact hrest.eq_nil

/-- **Every text has a canonical list of tokens.**  A reader finds the tokens of a text one after the
other, and then none for ever.  Words are not empty and have no blanks, strings have no quotation
marks, and what looks like a marker can only be the last token.  Written with a space between any two
of them, the tokens are the same again.  Once the rest of the line is passed over, nothing is found
any more. -/
theorem tokens_are_canonical (cs : List Char) :
    (∀ n, read (List.replicate n .next) cs = (tokens cs)[n]?) ∧
    (∀ before t after, tokens cs = before ++ t :: after →
      t.IsProper ∧ ∀ name ∈ markers, t = word name → after = []) ∧
    tokens (line (tokens cs)).toList = tokens cs ∧
    ∀ before after, read (before ++ .skip :: after) cs = none := by
  have hwritten : Written (tokens cs) cs := tokens_eq_iff.1 rfl
  refine ⟨fun n => read_next n cs, fun before t after hts => hwritten.proper hts,
    tokens_eq_iff.2 hwritten.canonical, fun before after => ?_⟩
  rw [read, List.foldl_append, List.foldl_cons]
  exact read_nil after

end Forth.Token
