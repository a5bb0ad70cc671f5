import Forth.Text.LowerCase.Table

/-!
# Lower case

Names are compared by their lower case, which follows Unicode's full mapping without a locale:
each character has a lower case of its own, `İ` has one of two characters, and a capital sigma
becomes `ς` at the end of a word and `σ` elsewhere.
-/

namespace Forth.Text

/-- The lower case of one character, sigma taken as standing inside a word. -/
def lowerChar (c : Char) : List Char :=
  if c.toNat < 0x80 then
    [c.toLower]
  else if c = 'İ' then
    ['i', '\u0307']
  else if c = 'Σ' then
    ['σ']
  else
    [((caseRuns.findSome? (·.lower? c.toNat)).map Char.ofNat).getD c]

/-- Whether the first character that is not passed over is a letter with a case. -/
def startsCased (cs : List Char) : Bool :=
  match cs.dropWhile fun c => caseIgnorableRanges.covers c.toNat with
  | [] => false
  | c :: _ => casedRanges.covers c.toNat

/-- The lower case of `cs`, where `before` holds the characters in front of it, last one first:
a sigma ends a word if a letter comes before it and none after. -/
def lowerFrom (before : List Char) : List Char → List Char
  | [] => []
  | c :: cs =>
    (if c = 'Σ' ∧ startsCased before ∧ ¬ startsCased cs then ['ς'] else lowerChar c) ++
      lowerFrom (c :: before) cs

/-- The lower case of a text. -/
def lowerCase (text : String) : String :=
  String.ofList (lowerFrom [] text.toList)

theorem lowerChar_of_ascii {c : Char} (h : c.toNat < 0x80) : lowerChar c = [c.toLower] := by
  simp [lowerChar, h]

/-- On ASCII text the mapping goes character by character. -/
theorem lowerFrom_of_ascii (before cs : List Char) (h : ∀ c ∈ cs, c.toNat < 0x80) :
    lowerFrom before cs = cs.map Char.toLower := by
  induction cs generalizing before with
  | nil => rfl
  | cons c cs ih =>
    have hc : c.toNat < 0x80 := h c (by simp)
    have hs : c ≠ 'Σ' := by rintro rfl; exact absurd hc (by decide)
    simp [lowerFrom, hs, lowerChar_of_ascii hc, ih (c :: before) fun d hd => h d (by simp [hd])]

end Forth.Text
