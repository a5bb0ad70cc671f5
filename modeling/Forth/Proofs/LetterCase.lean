import Forth.Numeral
import Forth.Text.LowerCase
import Forth.Token
import Mathlib.Data.List.Forall2

/-!
# Texts that differ in the case of letters

Two texts that differ only in the case of ASCII letters have the same lower case as names
(`Text.lowerCase_of_sameLetters`), are the same numerals (`Numeral.parse?_of_sameLetters`) and are cut
into tokens at the same places (`Token.tokens_of_sameText`).  None of these functions compares its
text with that lower case: each looks at single characters, so each is shown to look at a character
only in ways that its case does not matter for (`Text.toLower_induction`).
-/

namespace Forth

namespace Text

/-- The texts are equal but for the case of ASCII letters. -/
def SameLetters (cs cs' : List Char) : Prop :=
  cs'.map Char.toLower = cs.map Char.toLower

instance (cs cs' : List Char) : Decidable (SameLetters cs cs') :=
  inferInstanceAs (Decidable (_ = _))

/-! ## Single characters -/

/-- What holds of each character with itself, and of the 26 capitals with their small letters, holds
of each character with its lower case. -/
theorem toLower_induction {p : Char → Char → Prop} (hsame : ∀ c, p c c)
    (hcapital : ∀ n < 26, p (Char.ofNat (65 + n)) (Char.ofNat (97 + n))) (c : Char) :
    p c c.toLower := by
  by_cases hc : c.val ≥ 'A'.val ∧ c.val ≤ 'Z'.val
  · have hrange : 65 ≤ c.toNat ∧ c.toNat ≤ 90 := hc
    obtain ⟨n, hn⟩ : ∃ n, c.toNat = 65 + n := ⟨c.toNat - 65, by omega⟩
    have hlt : n < 26 := by omega
    have hlower : ∀ n < 26, (Char.ofNat (65 + n)).toLower = Char.ofNat (97 + n) := by decide
    have hp := hcapital n hlt
    rwa [← hlower n hlt, ← hn, Char.ofNat_toNat] at hp
  · have hlower : c.toLower = c := dif_neg hc
    rw [hlower]
    exact hsame c

/-- A function of characters does not look at their case if it does not look at that of the capitals
of ASCII. -/
theorem eq_toLower {α : Type} (f : Char → α)
    (h : ∀ n < 26, f (Char.ofNat (97 + n)) = f (Char.ofNat (65 + n))) (c : Char) :
    f c.toLower = f c :=
  toLower_induction (p := fun c d => f d = f c) (fun _ => rfl) h c

theorem isBlank_toLower (c : Char) : isBlank c.toLower = isBlank c :=
  eq_toLower isBlank (by decide) c

/-- A character that is not a letter is told from all others in any case. -/
theorem toLower_eq_iff {x : Char} (hx : x.isAlpha = false) (c : Char) :
    c.toLower = x ↔ c = x := by
  refine toLower_induction (p := fun c d => d = x ↔ c = x) (fun _ => Iff.rfl) (fun n hn => ?_) c
  have hletters : ∀ n < 26, (Char.ofNat (97 + n)).isAlpha = true ∧
      (Char.ofNat (65 + n)).isAlpha = true := by decide
  obtain ⟨hsmall, hcapital⟩ := hletters n hn
  constructor
  · rintro rfl
    exact nomatch hx.symm.trans hsmall
  · rintro rfl
    exact nomatch hx.symm.trans hcapital

/-! ## The lower case of names -/

theorem cased_toLower (c : Char) :
    casedRanges.covers c.toLower.toNat = casedRanges.covers c.toNat :=
  eq_toLower (fun c => casedRanges.covers c.toNat) (by decide) c

theorem not_caseIgnorable {n : Nat} (h : 65 ≤ n ∧ n ≤ 90 ∨ 97 ≤ n ∧ n ≤ 122) :
    caseIgnorableRanges.covers n = false := by
  have hranges : ∀ r ∈ caseIgnorableRanges, r.2 < 65 ∨ 90 < r.1 ∧ r.2 < 97 ∨ 122 < r.1 := by
    decide +kernel
  rw [Bool.eq_false_iff, ne_eq, CodeRanges.covers_iff]
  rintro ⟨r, hr, hcovers⟩
  have hrange := hranges r hr
  omega

theorem caseIgnorable_toLower (c : Char) :
    caseIgnorableRanges.covers c.toLower.toNat = caseIgnorableRanges.covers c.toNat := by
  refine eq_toLower (fun c => caseIgnorableRanges.covers c.toNat) (fun n hn => ?_) c
  have hletters : ∀ n < 26, (Char.ofNat (97 + n)).toNat = 97 + n ∧
      (Char.ofNat (65 + n)).toNat = 65 + n := by decide
  obtain ⟨hsmall, hcapital⟩ := hletters n hn
  rw [hsmall, hcapital, not_caseIgnorable (by omega), not_caseIgnorable (by omega)]

theorem lowerChar_toLower (c : Char) : lowerChar c.toLower = lowerChar c :=
  eq_toLower lowerChar (by decide) c

theorem startsCased_toLower (cs : List Char) :
    startsCased (cs.map Char.toLower) = startsCased cs := by
  unfold startsCased
  have hignorable : (fun c : Char => caseIgnorableRanges.covers c.toNat) ∘ Char.toLower =
      fun c => caseIgnorableRanges.covers c.toNat := funext caseIgnorable_toLower
  rw [List.dropWhile_map, hignorable]
  cases cs.dropWhile fun c => caseIgnorableRanges.covers c.toNat with
  | nil => rfl
  | cons c rest => exact cased_toLower c

theorem lowerFrom_toLower (before cs : List Char) :
    lowerFrom (before.map Char.toLower) (cs.map Char.toLower) = lowerFrom before cs := by
  induction cs generalizing before with
  | nil => rfl
  | cons c cs ih =>
    have hsigma : c.toLower = 'Σ' ↔ c = 'Σ' := toLower_eq_iff (by decide) c
    have hrest := ih (c :: before)
    rw [List.map_cons] at hrest
    rw [List.map_cons, lowerFrom, lowerFrom, hrest, startsCased_toLower, startsCased_toLower,
      lowerChar_toLower]
    simp only [hsigma]

/-- Names that differ in the case of their letters are the same name. -/
theorem lowerCase_of_sameLetters {name name' : String}
    (h : SameLetters name.toList name'.toList) : lowerCase name' = lowerCase name := by
  rw [lowerCase, lowerCase, ← lowerFrom_toLower [] name'.toList, h, lowerFrom_toLower]

end Text

/-! ## Numerals -/

namespace Numeral

open Text

theorem digit?_toLower {base : Nat} (hbase : base = 2 ∨ base = 10 ∨ base = 16) (c : Char) :
    digit? base c.toLower = digit? base c := by
  rcases hbase with rfl | rfl | rfl
  · exact eq_toLower (digit? 2) (by decide) c
  · exact eq_toLower (digit? 10) (by decide) c
  · exact eq_toLower (digit? 16) (by decide) c

theorem digitsFrom_toLower {base : Nat} (hbase : base = 2 ∨ base = 10 ∨ base = 16) (acc : Nat)
    (cs : List Char) : digitsFrom base acc (cs.map Char.toLower) = digitsFrom base acc cs := by
  induction cs generalizing acc with
  | nil => rfl
  | cons c cs ih =>
    rw [List.map_cons, digitsFrom, digitsFrom, ih, digit?_toLower hbase]
    simp only [toLower_eq_iff (show '_'.isAlpha = false by decide), ih]

theorem digits_toLower {base : Nat} (hbase : base = 2 ∨ base = 10 ∨ base = 16) (cs : List Char) :
    digits base (cs.map Char.toLower) = digits base cs := by
  have hall : (cs.map Char.toLower).all (· = '_') = cs.all (· = '_') := by
    rw [List.all_map]
    congr 1
    funext c
    exact decide_eq_decide.2 (toLower_eq_iff (by decide) c)
  rw [digits, digits, hall, digitsFrom_toLower hbase]

theorem magnitude_singleton (c : Char) :
    magnitude [c] = if c = '_' then none else digits 10 [c] := by
  unfold magnitude
  split <;> simp_all

/-- The prefix of a base is known by its second character. -/
theorem magnitude_cons_cons (c d : Char) (cs : List Char) :
    magnitude (c :: d :: cs) =
      if c = '0' ∧ (d = 'x' ∨ d = 'X') then digits 16 cs
      else if c = '0' ∧ (d = 'b' ∨ d = 'B') then digits 2 cs
      else if c = '_' then none
      else digits 10 (c :: d :: cs) := by
  unfold magnitude
  split <;> simp_all
  grind

theorem magnitude_toLower (cs : List Char) : magnitude (cs.map Char.toLower) = magnitude cs := by
  have hten : ∀ cs, digits 10 (cs.map Char.toLower) = digits 10 cs := digits_toLower (by decide)
  have hunderscore : ∀ c : Char, c.toLower = '_' ↔ c = '_' := toLower_eq_iff (by decide)
  match cs with
  | [] => rfl
  | [c] =>
    have hrest := hten [c]
    rw [List.map_singleton] at hrest ⊢
    rw [magnitude_singleton, magnitude_singleton, hrest]
    simp only [hunderscore]
  | c :: d :: cs =>
    have hzero : c.toLower = '0' ↔ c = '0' := toLower_eq_iff (by decide) c
    have hx : (d.toLower = 'x' ∨ d.toLower = 'X') ↔ (d = 'x' ∨ d = 'X') :=
      toLower_induction (p := fun c d => (d = 'x' ∨ d = 'X') ↔ (c = 'x' ∨ c = 'X'))
        (fun _ => Iff.rfl) (by decide) d
    have hb : (d.toLower = 'b' ∨ d.toLower = 'B') ↔ (d = 'b' ∨ d = 'B') :=
      toLower_induction (p := fun c d => (d = 'b' ∨ d = 'B') ↔ (c = 'b' ∨ c = 'B'))
        (fun _ => Iff.rfl) (by decide) d
    have hrest := hten (c :: d :: cs)
    rw [List.map_cons, List.map_cons] at hrest ⊢
    rw [magnitude_cons_cons, magnitude_cons_cons, digits_toLower (by decide),
      digits_toLower (by decide), hrest]
    simp only [hzero, hx, hb, hunderscore]

theorem parseChars_cons (c : Char) (cs : List Char) :
    parseChars (c :: cs) =
      if c = '-' then (magnitude cs).bind fun n => cellOfInt? (-n)
      else if c = '+' then (magnitude cs).bind fun n => cellOfInt? n
      else (magnitude (c :: cs)).bind fun n => cellOfInt? n := by
  unfold parseChars
  split <;> simp_all

theorem parseChars_toLower (cs : List Char) : parseChars (cs.map Char.toLower) = parseChars cs := by
  cases cs with
  | nil => rfl
  | cons c cs =>
    have hminus : c.toLower = '-' ↔ c = '-' := toLower_eq_iff (by decide) c
    have hplus : c.toLower = '+' ↔ c = '+' := toLower_eq_iff (by decide) c
    have hall := magnitude_toLower (c :: cs)
    rw [List.map_cons] at hall ⊢
    rw [parseChars_cons, parseChars_cons, hall, magnitude_toLower cs]
    simp only [hminus, hplus]

/-- Texts that differ in the case of their letters are the same numeral. -/
theorem parse?_of_sameLetters {text text' : String}
    (h : SameLetters text.toList text'.toList) : parse? text' = parse? text := by
  rw [parse?, parse?, ← parseChars_toLower text'.toList, h, parseChars_toLower]

end Numeral

/-! ## Tokens -/

namespace Token

open Text

/-- The token in small letters, strings included. -/
def lower : Token → Token
  | word name => word (String.ofList (name.toList.map Char.toLower))
  | string text => string (String.ofList (text.toList.map Char.toLower))

/-- A token that was taken off a text, and the rest of the text, in small letters. -/
def lowerTaken (taken : Token × List Char) : Token × List Char :=
  (taken.1.lower, taken.2.map Char.toLower)

theorem takeString_toLower (cs : List Char) :
    takeString (cs.map Char.toLower) = lowerTaken (takeString cs) := by
  have hquote : (fun c => c != '"') ∘ Char.toLower = fun c => c != '"' := by
    funext c
    exact congrArg not (decide_eq_decide.2 (toLower_eq_iff (by decide) c))
  simp only [takeString, lowerTaken, lower, List.takeWhile_map, List.dropWhile_map, hquote,
    List.map_tail, String.toList_ofList]

theorem takeWord_toLower (cs : List Char) :
    takeWord (cs.map Char.toLower) = lowerTaken (takeWord cs) := by
  have hblank : (fun c => !isBlank c) ∘ Char.toLower = fun c => !isBlank c := by
    funext c
    exact congrArg not (isBlank_toLower c)
  simp only [takeWord, lowerTaken, lower, List.takeWhile_map, List.dropWhile_map, hblank,
    String.toList_ofList]

theorem startsBlank_toLower (cs : List Char) :
    startsBlank (cs.map Char.toLower) = startsBlank cs := by
  cases cs with
  | nil => rfl
  | cons c cs => exact isBlank_toLower c

theorem nextFrom_toLower (inComment : Bool) (cs : List Char) :
    nextFrom inComment (cs.map Char.toLower) = (nextFrom inComment cs).map lowerTaken := by
  induction cs generalizing inComment with
  | nil => rfl
  | cons c cs ih =>
    have hclose : (c.toLower != ')') = (c != ')') :=
      congrArg not (decide_eq_decide.2 (toLower_eq_iff (by decide) c))
    have hopen : c.toLower = '(' ↔ c = '(' := toLower_eq_iff (by decide) c
    have hbackslash : c.toLower = '\\' ↔ c = '\\' := toLower_eq_iff (by decide) c
    have hdot : c.toLower = '.' ↔ c = '.' := toLower_eq_iff (by decide) c
    have hquote : (cs.map Char.toLower).head? = some '"' ↔ cs.head? = some '"' := by
      cases cs with
      | nil => rfl
      | cons d cs =>
        simp only [List.map_cons, List.head?_cons, Option.some.injEq]
        exact toLower_eq_iff (by decide) d
    rw [List.map_cons, nextFrom, nextFrom, ← List.map_cons, takeWord_toLower, ← List.map_tail,
      ← List.map_drop, takeString_toLower]
    simp only [hclose, isBlank_toLower, hopen, hbackslash, hdot, hquote, startsBlank_toLower, ih,
      apply_ite (Option.map lowerTaken), Option.map_none, Option.map_some]

/-- The tokens do not depend on the case of letters, but for the spelling of each of them. -/
theorem tokens_toLower (cs : List Char) :
    tokens (cs.map Char.toLower) = (tokens cs).map lower := by
  induction cs using tokens.induct with
  | case1 cs hnext =>
    have hlower : next? (cs.map Char.toLower) = none := by
      rw [next?, nextFrom_toLower, ← next?, hnext, Option.map_none]
    rw [tokens_of_next?_none hlower, tokens_of_next?_none hnext]
    rfl
  | case2 cs t rest hnext ih =>
    have hlower : next? (cs.map Char.toLower) = some (t.lower, rest.map Char.toLower) := by
      rw [next?, nextFrom_toLower, ← next?, hnext]
      rfl
    rw [tokens_of_next? hlower, tokens_of_next? hnext, ih, List.map_cons]

/-- The text of a string literal. -/
def string? : Token → Option String
  | word _ => none
  | string text => some text

/-- The texts are equal but for the case of letters outside of string literals. -/
structure SameText (cs cs' : List Char) : Prop where
  letters : SameLetters cs cs'
  strings : (tokens cs').filterMap string? = (tokens cs).filterMap string?

/-- The tokens are the same string literal, or words of which `S` holds. -/
inductive Respelled (S : String → String → Prop) : Token → Token → Prop
  | word {name name' : String} (h : S name name') : Respelled S (.word name) (.word name')
  | string (text : String) : Respelled S (.string text) (.string text)

/-- Texts that differ only in the case of letters outside of string literals have the same tokens,
but for the case of letters in words. -/
theorem tokens_of_sameText {cs cs' : List Char} (h : SameText cs cs') :
    List.Forall₂ (Respelled fun name name' => SameLetters name.toList name'.toList)
      (tokens cs) (tokens cs') := by
  -- Lower-casing the text lower-cases its tokens, so both texts have the same tokens but for the
  -- letters.
  have hlower : (tokens cs').map lower = (tokens cs).map lower := by
    rw [← tokens_toLower, h.letters, tokens_toLower]
  have hstrings := h.strings
  -- Words may differ in their letters; the literals are the same ones in the same order.
  generalize tokens cs = ts, tokens cs' = ts' at hlower hstrings
  induction ts generalizing ts' with
  | nil =>
    obtain rfl := List.map_eq_nil_iff.1 hlower
    exact .nil
  | cons t ts ih =>
    obtain ⟨t', ts', rfl, hfirst, hrest⟩ := List.map_eq_cons_iff.1 hlower
    cases t with
    | word name =>
      cases t' with
      | word name' =>
        have hletters : SameLetters name.toList name'.toList :=
          String.ofList_injective (Token.word.inj hfirst)
        exact .cons (.word hletters) (ih ts' hrest hstrings)
      | string text' => exact nomatch hfirst
    | string text =>
      cases t' with
      | word name' => exact nomatch hfirst
      | string text' =>
        obtain ⟨rfl, hlater⟩ := List.cons.inj hstrings
        exact .cons (.string text') (ih ts' hrest hlater)

end Token

end Forth
