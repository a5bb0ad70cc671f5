import Forth.Proofs.NumeralGrammar
import Forth.Proofs.SideBySide
import Forth.Proofs.Writing

/-!
# Printed cells read back

What is printed of a cell is a numeral for it, and a line of numerals pushes their cells.  So the
cells that are shown on a line, whether as the contents of a stack or one by one, can be submitted
as a line and are pushed again, the first one first (`printed_cells_read_back`).

The dictionary stands in the way, for a name is looked up before a numeral is read: no name in it may
be a decimal numeral.  Such a name would have to be a sign, or none, with digits behind it, since
that is all there is in the decimal form of a cell (`isDecimal_decimalChars`).
-/

namespace Forth

open Token (tokens)

/-! ## The decimal form of a cell -/

namespace Numeral

/-- Decimal digits behind a sign or behind none. -/
def isDecimal (cs : List Char) : Bool :=
  let digits := if cs.head? = some '-' ∨ cs.head? = some '+' then cs.tail else cs
  !digits.isEmpty && digits.all Char.isDigit

theorem isDigit_of_isDigit {c : Char} (hc : c.isDigit = true) : IsDigit 10 (c.toNat - 48) c := by
  simp only [Char.isDigit, Bool.and_eq_true, decide_eq_true_eq] at hc
  obtain ⟨hlow, hhigh⟩ := hc
  have hnat : c.toNat ≤ 57 := hhigh
  apply isDigit_of_digit? (by decide)
  have hrange : '0' ≤ c ∧ c ≤ '9' := ⟨hlow, hhigh⟩
  have hzero : '0'.toNat = 48 := rfl
  rw [digit?, if_pos hrange, hzero, if_pos (by omega)]

/-- Digits are read as the number that they are the digits of. -/
theorem exists_spells {cs : List Char} (hcs : ∀ c ∈ cs, c.isDigit = true) :
    ∃ ds, Spells 10 cs ds ∧
      ∀ acc, Nat.ofDigitChars 10 cs acc = acc * 10 ^ ds.length + valueOf 10 ds := by
  induction cs with
  | nil => exact ⟨[], .nil, fun acc => by simp⟩
  | cons c cs ih =>
    obtain ⟨hc, hrest⟩ := List.forall_mem_cons.1 hcs
    obtain ⟨ds, hspells, hvalue⟩ := ih hrest
    refine ⟨(c.toNat - 48) :: ds, .digit (isDigit_of_isDigit hc) hspells, fun acc => ?_⟩
    have hzero : '0'.toNat = 48 := rfl
    rw [Nat.ofDigitChars_cons, hvalue, valueOf_cons, List.length_cons, hzero]
    ring

theorem isMagnitude_toDigits (n : Nat) : IsMagnitude (Nat.toDigits 10 n) n := by
  have hdigits : ∀ c ∈ Nat.toDigits 10 n, c.isDigit = true :=
    fun c hc => Nat.isDigit_of_mem_toDigits (by decide) (by decide) hc
  obtain ⟨ds, hspells, hvalue⟩ := exists_spells hdigits
  have hn : valueOf 10 ds = n := by
    have h := hvalue 0
    rw [Nat.ofDigitChars_ten_toDigits, Nat.zero_mul, Nat.zero_add] at h
    exact h.symm
  have hne : Nat.toDigits 10 n ≠ [] := Nat.toDigits_ne_nil
  generalize Nat.toDigits 10 n = cs at hdigits hspells hne
  cases hspells with
  | nil => exact absurd rfl hne
  | underscore _ => exact absurd (hdigits '_' (.head _)) (by decide)
  | digit hc h => exact hn ▸ .decimal hc h

end Numeral

namespace Cell

open Numeral (Denotes isDecimal)

/-- The decimal form of a cell is a numeral for the integer of the cell. -/
theorem denotes_decimalChars (n : Cell) : Denotes n.decimalChars n.toInt := by
  have hmagnitude := Numeral.isMagnitude_toDigits n.toInt.natAbs
  unfold decimalChars
  by_cases hn : n < 0
  · have hneg : n.toInt < 0 := by simpa using Int64.lt_iff_toInt_lt.1 hn
    have hint : n.toInt = -(n.toInt.natAbs : Int) := by omega
    have hdenotes := Denotes.minus hmagnitude
    rw [← hint] at hdenotes
    simpa only [if_pos hn] using hdenotes
  · have hpos : 0 ≤ n.toInt := by simpa using Int64.le_iff_toInt_le.1 (Int64.not_lt.1 hn)
    have hint : n.toInt = (n.toInt.natAbs : Int) := by omega
    have hdenotes := Denotes.unsigned hmagnitude
    rw [← hint] at hdenotes
    simpa only [if_neg hn] using hdenotes

theorem parse?_decimal (n : Cell) : Numeral.parse? n.decimal = some n := by
  rw [Numeral.parse?, decimal, String.toList_ofList, Numeral.parseChars_eq_some_iff]
  exact n.denotes_decimalChars

theorem isDecimal_decimalChars (n : Cell) : isDecimal n.decimalChars = true := by
  have hdigits : (Nat.toDigits 10 n.toInt.natAbs).all Char.isDigit = true :=
    List.all_eq_true.2 fun c hc => Nat.isDigit_of_mem_toDigits (by decide) (by decide) hc
  have hne : Nat.toDigits 10 n.toInt.natAbs ≠ [] := Nat.toDigits_ne_nil
  unfold decimalChars isDecimal
  generalize Nat.toDigits 10 n.toInt.natAbs = ds at hdigits hne
  cases ds with
  | nil => exact absurd rfl hne
  | cons d ds =>
    by_cases hn : n < 0
    · simpa [hn] using hdigits
    · have hd : d ≠ '-' ∧ d ≠ '+' := by
        constructor <;> rintro rfl <;> exact absurd hdigits (by simp)
      simpa [hn, hd] using hdigits

theorem eq_minus_or_isDigit {n : Cell} {c : Char} (hc : c ∈ n.decimalChars) :
    c = '-' ∨ c.isDigit = true := by
  have hdigits : ∀ c ∈ Nat.toDigits 10 n.toInt.natAbs, c = '-' ∨ c.isDigit = true :=
    fun c hc => .inr (Nat.isDigit_of_mem_toDigits (by decide) (by decide) hc)
  unfold decimalChars at hc
  by_cases hn : n < 0
  · simp only [if_pos hn] at hc
    obtain rfl | hc := List.mem_cons.1 hc
    · exact .inl rfl
    · exact hdigits c hc
  · simp only [if_neg hn] at hc
    exact hdigits c hc

theorem toNat_of_mem_decimalChars {n : Cell} {c : Char} (hc : c ∈ n.decimalChars) :
    45 ≤ c.toNat ∧ c.toNat ≤ 57 := by
  obtain rfl | hdigit := eq_minus_or_isDigit hc
  · decide
  · simp only [Char.isDigit, Bool.and_eq_true, decide_eq_true_eq] at hdigit
    have hlow : 48 ≤ c.toNat := hdigit.1
    have hhigh : c.toNat ≤ 57 := hdigit.2
    omega

/-- The decimal form has no letters, so it is its own lower case. -/
theorem lowerCase_decimal (n : Cell) : Text.lowerCase n.decimal = n.decimal := by
  have hascii : ∀ c ∈ n.decimalChars, c.toNat < 0x80 := by
    intro c hc
    have hrange := toNat_of_mem_decimalChars hc
    omega
  have hlower : ∀ c ∈ n.decimalChars, c.toLower = c := by
    intro c hc
    have hrange := toNat_of_mem_decimalChars hc
    have hcapital : ¬ (c.val ≥ 65 ∧ c.val ≤ 90) := by
      rintro ⟨hlow, -⟩
      have : 65 ≤ c.toNat := hlow
      omega
    exact dif_neg hcapital
  rw [Text.lowerCase, decimal, String.toList_ofList, Text.lowerFrom_of_ascii _ _ hascii,
    List.map_congr_left hlower, List.map_id']

/-- A numeral as a token. -/
def token (n : Cell) : Token :=
  .word n.decimal

theorem isBlank_of_mem_decimalChars {n : Cell} {c : Char} (hc : c ∈ n.decimalChars) :
    Text.isBlank c = false := by
  have hrange := toNat_of_mem_decimalChars hc
  rw [← Bool.not_eq_true]
  simp only [Text.isBlank, Bool.or_eq_true, Bool.and_eq_true, decide_eq_true_eq, beq_iff_eq]
  omega

theorem decimal_ne {n : Cell} {name : String} (h : isDecimal name.toList = false) :
    n.decimal ≠ name := by
  rintro rfl
  rw [decimal, String.toList_ofList, isDecimal_decimalChars] at h
  cases h

theorem isWritable_token (n : Cell) : n.token.isWritable = true := by
  have hblank : ∀ c ∈ n.decimalChars, (!Text.isBlank c) = true := by
    intro c hc
    rw [isBlank_of_mem_decimalChars hc, Bool.not_false]
  have hmarkers : ∀ name ∈ Token.markers, isDecimal name.toList = false := by decide
  have hempty : n.decimal ≠ "" := decimal_ne rfl
  have hcontains : Token.markers.contains n.decimal = false := by
    rw [← Bool.not_eq_true, List.contains_iff_mem]
    exact fun hmem => decimal_ne (hmarkers _ hmem) rfl
  simp only [token, Token.isWritable, hcontains, Bool.not_false, Bool.and_true, Bool.and_eq_true,
    bne_iff_ne]
  exact ⟨hempty, List.all_eq_true.2 (by simpa [decimal] using hblank)⟩

/-- A numeral that is no name stands for its cell. -/
theorem resolve_token {d : Dictionary} (hd : ∀ entry ∈ d, isDecimal entry.1.toList = false)
    (n : Cell) : n.token.resolve d = .ok (.perform (.number n)) := by
  have hfind : d.find? n.decimal = none := by
    rw [Dictionary.find?, lowerCase_decimal, List.lookup_eq_none_iff]
    intro entry hentry
    rw [bne_iff_ne]
    exact decimal_ne (hd entry hentry)
  simp only [token, Token.resolve, hfind, parse?_decimal]

end Cell

/-! ## Cells on a line -/

/-- The contents of a stack, without the mark at the top, are numerals on a line. -/
theorem Stack.display_eq (s : Stack) :
    s.display = Token.line (s.reverse.map Cell.token) ++ " <- Top " := by
  rw [display, bottomUp, Token.line, List.map_map]
  rfl

/-- The cells one by one, each with a space behind it. -/
def Cell.spaced (cells : List Cell) : String :=
  String.join (cells.map fun n => n.decimal ++ " ")

theorem Cell.tokens_spaced (cells : List Cell) :
    tokens (Cell.spaced cells).toList = cells.map Cell.token := by
  induction cells with
  | nil => exact Token.tokens_nil
  | cons n cells ih =>
    have htext : (Cell.spaced (n :: cells)).toList =
        n.decimal.toList ++ ' ' :: (Cell.spaced cells).toList := by
      simp [Cell.spaced, String.join_cons]
    have hblank : Token.Separated (' ' :: (Cell.spaced cells).toList) := .inr rfl
    have hnext := Token.next?_word n.isWritable_token hblank
    rw [htext, Token.tokens_of_next? hnext, Token.tokens_blank _ rfl, ih]
    rfl

/-- Each `.` prints the cell on top, with a space behind it. -/
theorem Primitive.print_all_run (cells : List Cell) (below : Stack) (m : Machine) :
    (cells.forM fun _ => Primitive.print.run).run { m with data := cells ++ below } =
      .ok () { m with data := below, output := m.output.print (Cell.spaced cells) } := by
  induction cells generalizing m with
  | nil =>
    have hempty : m.output.print (Cell.spaced []) = m.output := Output.print_empty m.output
    rw [hempty]
    rfl
  | cons n cells ih =>
    have hspaced : Cell.spaced (n :: cells) = n.decimal ++ " " ++ Cell.spaced cells := by
      simp [Cell.spaced, String.join_cons]
    rw [hspaced, ← Output.print_print]
    exact ih { m with output := m.output.print (n.decimal ++ " ") }

namespace Session

/-- The session after a line that pushes these cells. -/
def withPushed (s : Session) (cells : Stack) : Session :=
  { s with
    machine := { s.machine with
      data := cells ++ s.machine.data
      output := s.machine.output.print " ok" }
    returnDepth := s.machine.returns.length }

/-- Numerals push their cells, and nothing else happens. -/
theorem leads_numerals {s : Session} {l : List Char} {cells : List Cell}
    (hwait : s.machine.wait = none) (hframes : s.frames = []) (hgathering : s.gathering = .nothing)
    (hd : ∀ entry ∈ s.dictionary, Numeral.isDecimal entry.1.toList = false)
    (hline : s.line = some l) (htokens : tokens l = cells.map Cell.token) :
    ∃ rest, tokens rest = [] ∧ Leads tick s { s with
      machine := { s.machine with data := cells.reverse ++ s.machine.data }, line := some rest } := by
  induction cells generalizing s l with
  | nil =>
    refine ⟨l, htokens, ?_⟩
    rw [← hline]
    exact .refl s
  | cons n cells ih =>
    obtain ⟨rest, hrest, htick⟩ := tick_of_operation hwait hframes hgathering hline htokens
      (n.resolve_token hd)
    have hmore : s.tick = .more { s with
        machine := { s.machine with data := n :: s.machine.data }, line := some rest } := by
      rw [htick]
      simp only [stepInto, hframes]
      rfl
    obtain ⟨last, hlast, hleads⟩ := ih (s := { s with
      machine := { s.machine with data := n :: s.machine.data }, line := some rest }) hwait hframes
      hgathering hd rfl hrest
    refine ⟨last, hlast, .more hmore ?_⟩
    simpa using hleads

theorem answers_numerals {s : Session} (hs : s.Idle)
    (hd : ∀ entry ∈ s.dictionary, Numeral.isDecimal entry.1.toList = false) {text : String}
    {cells : List Cell} (htext : tokens text.toList = cells.map Cell.token) :
    s.Answers (.line text) (.ok .ok) (s.withPushed cells.reverse) := by
  rw [answers_line_iff hs.line]
  obtain ⟨rest, hrest, hleads⟩ := leads_numerals (s := s.startLine text) hs.wait hs.frames
    hs.gathering hd rfl htext
  let last : Session := { s.startLine text with
    machine := { s.machine with data := cells.reverse ++ s.machine.data }, line := some rest }
  have hend : last.tick = .done last.finishLine := tick_of_end hs.wait hs.frames rfl hrest
  have hfinish : last.finishLine = (.ok .ok, s.withPushed cells.reverse) := by
    simp only [last, finishLine, startLine, hs.gathering, withPushed, Session.print, onMachine,
      hs.line]
  exact hleads.ends_iff.2 (.done (hend.trans (congrArg _ hfinish)))

/-- **Printed cells read back.**  The contents of a stack as they are shown, without the mark at the
top, push these cells again, the lowest first; and so does what is printed by one `.` for each cell,
in the order of printing. -/
theorem printed_cells_read_back {s : Session} (hs : s.Idle)
    (hd : ∀ entry ∈ s.dictionary, Numeral.isDecimal entry.1.toList = false) (cells : List Cell) :
    (∃ shown, Stack.display cells = shown ++ " <- Top " ∧
      s.Answers (.line shown) (.ok .ok) (s.withPushed cells)) ∧
    ∃ printed,
      (∀ (m : Machine) (below : Stack),
        (cells.forM fun _ => Primitive.print.run).run { m with data := cells ++ below } =
          .ok () { m with data := below, output := m.output.print printed }) ∧
      s.Answers (.line printed) (.ok .ok) (s.withPushed cells.reverse) := by
  constructor
  · have htokens : tokens (Token.line (cells.reverse.map Cell.token)).toList =
        cells.reverse.map Cell.token := by
      apply Token.tokens_line
      simp [Cell.isWritable_token]
    refine ⟨_, Stack.display_eq cells, ?_⟩
    have hanswers := answers_numerals hs hd htokens
    rwa [List.reverse_reverse] at hanswers
  · exact ⟨Cell.spaced cells, fun m below => Primitive.print_all_run cells below m,
      answers_numerals hs hd (Cell.tokens_spaced cells)⟩

theorem printed_cells_read_back_least :
    (withPrimitives fun _ => 0).Idle ∧
      (∀ entry ∈ (withPrimitives fun _ => 0).dictionary,
        Numeral.isDecimal entry.1.toList = false) ∧
      Stack.display [Int64.minValue, 0, 10] = "10 0 -9223372036854775808" ++ " <- Top " ∧
      (withPrimitives fun _ => 0).Answers (.line "10 0 -9223372036854775808") (.ok .ok)
        ((withPrimitives fun _ => 0).withPushed [Int64.minValue, 0, 10]) := by
  have hidle : (withPrimitives fun _ => 0).Idle := ⟨rfl, rfl, rfl, rfl⟩
  have hnames : ∀ entry ∈ (withPrimitives fun _ => 0).dictionary,
      Numeral.isDecimal entry.1.toList = false := by decide +kernel
  have hdisplay : Stack.display [Int64.minValue, 0, 10] =
      "10 0 -9223372036854775808" ++ " <- Top " := by decide +kernel
  obtain ⟨shown, hshown, hanswers⟩ :=
    (printed_cells_read_back hidle hnames [Int64.minValue, 0, 10]).1
  obtain rfl := (String.append_left_inj _).1 (hdisplay.symm.trans hshown)
  exact ⟨hidle, hnames, hdisplay, hanswers⟩

end Session

end Forth
