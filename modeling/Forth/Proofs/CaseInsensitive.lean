import Forth.Proofs.RespelledRuns
import Forth.Proofs.Writing

/-!
# Upper and lower case

The language does not tell upper case from lower case, in names as in numerals.  Two hosts whose
lines differ only in the case of letters outside of string literals get the same replies and come to
the same session; the words that were spelled differently are only found where a word is quoted, and
there in lower case they are the same (`letter_case_makes_no_difference`).
-/

namespace Forth

/-- The calls are the same event, or lines that differ in the case of letters outside of string
literals. -/
inductive Call.SameText : Call → Call → Prop
  | line {text text' : String} (h : Token.SameText text.toList text'.toList) :
    SameText (.line text) (.line text')
  | event (e : Event) : SameText (.event e) (.event e)

/-- The words are equal but for the case of letters, and each is a word of a line that its own host
submitted. -/
structure Spelling (calls calls' : List Call) (name name' : String) : Prop where
  letters : Text.SameLetters name.toList name'.toList
  first : ∃ text, .line text ∈ calls ∧ .word name ∈ Token.tokens text.toList
  second : ∃ text, .line text ∈ calls' ∧ .word name' ∈ Token.tokens text.toList

variable {calls calls' : List Call}

theorem spells_spelling : Spells (Spelling calls calls') where
  lowerCase h := Text.lowerCase_of_sameLetters h.letters
  numeral h := Numeral.parse?_of_sameLetters h.letters

theorem forall₂_mem {α β : Type} {R : α → β → Prop} {xs : List α} {ys : List β}
    (h : List.Forall₂ R xs ys) : List.Forall₂ (fun x y => R x y ∧ x ∈ xs ∧ y ∈ ys) xs ys := by
  induction h with
  | nil => exact .nil
  | cons h _ ih =>
    refine .cons ⟨h, .head _, .head _⟩ (ih.imp ?_)
    rintro x y ⟨hxy, hx, hy⟩
    exact ⟨hxy, .tail _ hx, .tail _ hy⟩

theorem respelled_of_sameText (h : List.Forall₂ Call.SameText calls calls') :
    List.Forall₂ (Call.Respelled (Spelling calls calls')) calls calls' := by
  refine (forall₂_mem h).imp ?_
  rintro c c' ⟨hsame, hc, hc'⟩
  cases hsame with
  | event e => exact .event e
  | @line text text' htext =>
    refine .line ((forall₂_mem (Token.tokens_of_sameText htext)).imp ?_)
    rintro t t' ⟨hspelled, ht, ht'⟩
    cases hspelled with
    | word hletters => exact .word ⟨hletters, ⟨text, hc, ht⟩, ⟨text', hc', ht'⟩⟩
    | string text => exact .string text

namespace Session

variable {s t : Session} {replies : List Reply}

theorem Respelled.refl {S : String → String → Prop} (hline : s.line = none)
    (hqueue : s.machine.queue = []) : Respelled S s s where
  dictionary := rfl
  line := by
    rw [hline]
    exact .none
  returnDepth := rfl
  frames := rfl
  gathering := by
    cases s.gathering with
    | nothing => exact .nothing
    | definition name actions => exact .definition rfl rfl
    | block actions depth => exact .block rfl
  lastError := .inl rfl
  machine := by
    refine ⟨s.machine.output, s.machine.queue, rfl, .same _, ?_⟩
    rw [hqueue]
    exact .nil

/-- **The language does not tell upper case from lower case.**  Two hosts go on from the same
session, which waits for nothing, with the same events and with lines that differ only in the case
of letters outside of string literals.  Then each call of the second host comes to an end if the one
of the first does.  The replies are the same, but that each quotes an unknown word as it is spelled
in its own line.  The sessions have the same stacks, memory, random words and awaited event, the
same names in the dictionary and in memory, the same definitions but for the case of the words in
which they are spelled, and the same open definition but for the case of its name; and they have
printed the same but for the unknown words in error messages. -/
theorem letter_case_makes_no_difference (hs : Reachable Exec.Unaware s) (hrest : s.AtRest)
    (hcalls : List.Forall₂ Call.SameText calls calls') (h : Replies s calls replies t) :
    ∃ replies' t', Replies s calls' replies' t' ∧
      List.Forall₂ (Reply.Respelled (Spelling calls calls')) replies replies' ∧
      Respelled (Spelling calls calls') t t' := by
  have hresting := hs.resting fun _ h => h.keeps_queue
  have hsame : Respelled (Spelling calls calls') s s :=
    .refl hrest.1 (hresting.queue hrest.1)
  exact hsame.replies spells_spelling hresting.uses (respelled_of_sameText hcalls) h

theorem sameText_of_written {text text' : String} (ts ts' : List Token)
    (h : ts.all Token.isWritable = true ∧ Token.line ts = text)
    (h' : ts'.all Token.isWritable = true ∧ Token.line ts' = text')
    (hletters : Text.SameLetters text.toList text'.toList)
    (hstrings : ts'.filterMap Token.string? = ts.filterMap Token.string?) :
    Call.SameText (.line text) (.line text') := by
  refine .line ⟨hletters, ?_⟩
  rw [Token.tokens_eq h, Token.tokens_eq h', hstrings]

/-- A word, a variable and a numeral in mixed case, and a string that keeps its case. -/
theorem letter_case_makes_no_difference_mixed :
    let s := withPrimitives fun _ => 0
    let calls : List Call := [.line ": Double DUP + ; VARIABLE Total",
      .line "0X1F double TOTAL ! .\" Sum\" KEY", .event (.key 65), .line "Total @ . Nope"]
    let calls' : List Call := [.line ": double dup + ; variable TOTAL",
      .line "0x1f DOUBLE total ! .\" Sum\" key", .event (.key 65), .line "total @ . NOPE"]
    ∃ t replies' t', Replies s calls
        [.ok .ok, .ok (.suspended .key), .ok .ok, .error (.missingWord "Nope")] t ∧
      Replies s calls' replies' t' ∧
      List.Forall₂ (Reply.Respelled (Spelling calls calls'))
        [.ok .ok, .ok (.suspended .key), .ok .ok, .error (.missingWord "Nope")] replies' ∧
      Respelled (Spelling calls calls') t t' := by
  intro s calls calls'
  have hrun : (s.callAll 40 calls).map Prod.fst =
      some [.ok .ok, .ok (.suspended .key), .ok .ok, .error (.missingWord "Nope")] := by
    decide +kernel
  obtain ⟨⟨_, t⟩, ht, rfl⟩ := Option.map_eq_some_iff.1 hrun
  have hdefines : Call.SameText (.line ": Double DUP + ; VARIABLE Total")
      (.line ": double dup + ; variable TOTAL") :=
    sameText_of_written
      [.word ":", .word "Double", .word "DUP", .word "+", .word ";", .word "VARIABLE",
        .word "Total"]
      [.word ":", .word "double", .word "dup", .word "+", .word ";", .word "variable",
        .word "TOTAL"]
      (by decide +kernel) (by decide +kernel) (by decide +kernel) rfl
  have hwaits : Call.SameText (.line "0X1F double TOTAL ! .\" Sum\" KEY")
      (.line "0x1f DOUBLE total ! .\" Sum\" key") :=
    sameText_of_written
      [.word "0X1F", .word "double", .word "TOTAL", .word "!", .string "Sum", .word "KEY"]
      [.word "0x1f", .word "DOUBLE", .word "total", .word "!", .string "Sum", .word "key"]
      (by decide +kernel) (by decide +kernel) (by decide +kernel) rfl
  have hfails : Call.SameText (.line "Total @ . Nope") (.line "total @ . NOPE") :=
    sameText_of_written [.word "Total", .word "@", .word ".", .word "Nope"]
      [.word "total", .word "@", .word ".", .word "NOPE"]
      (by decide +kernel) (by decide +kernel) (by decide +kernel) rfl
  have hcalls : List.Forall₂ Call.SameText calls calls' :=
    .cons hdefines (.cons hwaits (.cons (.event _) (.cons hfails .nil)))
  have hreplies := replies_iff.2 ⟨40, ht⟩
  obtain ⟨replies', t', hsecond, hsame⟩ := letter_case_makes_no_difference
    (reachable_withPrimitives _) ⟨rfl, rfl⟩ hcalls hreplies
  exact ⟨t, replies', t', hreplies, hsecond, hsame⟩

end Session

end Forth
