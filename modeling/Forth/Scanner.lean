import Forth.Token

/-!
# Scanning the bytes of a line

`Token.next?` takes tokens off a list of characters.  A line is held as its UTF-8 bytes, however,
and a `Scanner` goes over them with a position that counts bytes.  The position moves in three ways:
past a character by the number of its bytes, past a marker by the number of the marker's bytes, and
past the first byte that equals a delimiter.  A line can be cut only between two characters, so
whatever cuts it may fail: `none` stands for a failed cut in each of the functions below.

`Scanner.next` takes the next token off the bytes.  `Forth.Proofs.Scanning` shows that no cut fails
and that the tokens are those of `Token.next?`.
-/

namespace Forth

open Text (isBlank)

/-- A line and the position in its bytes that is reached. -/
structure Scanner where
  text : String
  position : String.Pos.Raw
  deriving DecidableEq, Repr, Inhabited

namespace Scanner

/-! ## Cutting a text -/

/-- The bytes of a text. -/
def bytes (text : String) : List UInt8 :=
  text.toByteArray.data.toList

/-- What stands between two positions of a text.  Both have to be between two characters, and the
first one must not be behind the second one. -/
def cut (text : String) (start stop : String.Pos.Raw) : Option String :=
  if h : start ≤ stop ∧ start.IsValid text ∧ stop.IsValid text then
    some (String.fromUTF8 (text.toByteArray.extract start.byteIdx stop.byteIdx)
      ((String.Pos.Raw.isValidUTF8_extract_iff start stop h.1 h.2.2.le_rawEndPos).2 (.inr h.2)))
  else
    none

/-- The first character has two bytes. -/
example : cut "é1" 0 ⟨1⟩ = none ∧ cut "é1" 0 ⟨2⟩ = some "é" := by decide

theorem utf8ByteSize_of_cut {text part : String} {start stop : String.Pos.Raw}
    (h : cut text start stop = some part) :
    part.utf8ByteSize = stop.byteIdx - start.byteIdx := by
  unfold cut at h
  split at h
  · rename_i hcut
    have hstop : stop.byteIdx ≤ text.utf8ByteSize := hcut.2.2.le_rawEndPos
    obtain rfl := Option.some.inj h
    rw [String.utf8ByteSize, String.fromUTF8, ByteArray.size_extract, String.size_toByteArray,
      Nat.min_eq_left hstop]
  · cases h

/-! ## Moving on -/

/-- At the beginning of a line. -/
def start (text : String) : Scanner :=
  ⟨text, 0⟩

/-- The number of bytes that are left. -/
def left (s : Scanner) : Nat :=
  s.text.utf8ByteSize - s.position.byteIdx

/-- What is left of the line. -/
def rest (s : Scanner) : Option String :=
  cut s.text s.position s.text.rawEndPos

/-- The next character, if there is one. -/
def peek (s : Scanner) : Option (Option Char) :=
  s.rest.map fun rest => rest.toList.head?

/-- Takes the next character, if there is one. -/
def take (s : Scanner) : Option (Option Char × Scanner) :=
  match s.peek with
  | none => none
  | some none => some (none, s)
  | some (some c) => some (some c, ⟨s.text, s.position + c⟩)

/-- Passes over what is left of the line. -/
def skipLine (s : Scanner) : Scanner :=
  ⟨s.text, s.text.rawEndPos⟩

/-- Where there is a next character, the end is not reached. -/
theorem position_lt_of_peek {s : Scanner} {c : Char} (h : s.peek = some (some c)) :
    s.position.byteIdx < s.text.utf8ByteSize := by
  obtain ⟨rest, hrest, hhead⟩ := Option.map_eq_some_iff.1 h
  have hsize := utf8ByteSize_of_cut hrest
  have hrest : rest ≠ "" := by
    rintro rfl
    cases hhead
  have hpos : rest.utf8ByteSize ≠ 0 := by
    rwa [ne_eq, String.utf8ByteSize_eq_zero_iff]
  rw [String.byteIdx_rawEndPos] at hsize
  omega

/-- A character takes at least one byte off what is left. -/
theorem left_lt_of_take {s s' : Scanner} {c : Char} (h : s.take = some (some c, s')) :
    s'.left < s.left := by
  unfold take at h
  split at h
  · cases h
  · cases h
  · rename_i d hpeek
    obtain ⟨-, rfl⟩ := Prod.mk.inj (Option.some.inj h)
    have hlt := position_lt_of_peek hpeek
    have hsize := d.utf8Size_pos
    simp only [left, String.Pos.Raw.byteIdx_add_char]
    omega

/-- Passes over characters with the property, and tells which one comes then. -/
def skipWhile (p : Char → Bool) (s : Scanner) : Option (Option Char × Scanner) :=
  match _h : s.take with
  | none => none
  | some (none, _) => some (none, s)
  | some (some c, s') => if p c then skipWhile p s' else some (some c, s)
termination_by s.left
decreasing_by exact left_lt_of_take ‹_›

/-- One round of the loop. -/
theorem skipWhile_eq (p : Char → Bool) (s : Scanner) :
    s.skipWhile p = match s.take with
      | none => none
      | some (none, _) => some (none, s)
      | some (some c, s') => if p c then s'.skipWhile p else some (some c, s) := by
  rw [skipWhile]
  split <;> simp_all

/-- In front of a character something is left, and nothing is put back. -/
theorem left_of_skipWhile {p : Char → Bool} {s s' : Scanner} {c : Char}
    (h : s.skipWhile p = some (some c, s')) : s'.left ≤ s.left ∧ 0 < s'.left := by
  fun_induction skipWhile p s with
  | case1 s htake => cases h
  | case2 s _ htake => cases h
  | case3 s d next htake hp ih =>
    have hless := left_lt_of_take htake
    have hnext := ih h
    omega
  | case4 s d next htake hp =>
    have hless := left_lt_of_take htake
    obtain ⟨-, rfl⟩ := Prod.mk.inj (Option.some.inj h)
    omega

/-- Takes what stands before the first byte that equals the delimiter, and passes over that byte
too.  Takes everything that is left if there is no such byte. -/
def takeUntil (delimiter : UInt8) (s : Scanner) : Option (String × Scanner) := do
  let rest ← s.rest
  match (bytes rest).idxOf? delimiter with
  | some n =>
    let taken ← cut s.text s.position ⟨s.position.byteIdx + n⟩
    return (taken, ⟨s.text, ⟨s.position.byteIdx + n + 1⟩⟩)
  | none =>
    let taken ← cut s.text s.position s.text.rawEndPos
    return (taken, s.skipLine)

theorem left_lt_of_takeUntil {delimiter : UInt8} {s s' : Scanner} {taken : String}
    (h : s.takeUntil delimiter = some (taken, s')) (hleft : 0 < s.left) : s'.left < s.left := by
  simp only [takeUntil, Option.bind_eq_bind, Option.bind_eq_some_iff, Option.pure_def] at h
  obtain ⟨rest, -, h⟩ := h
  split at h
  · obtain ⟨_, -, h⟩ := Option.bind_eq_some_iff.1 h
    obtain ⟨-, rfl⟩ := Prod.mk.inj (Option.some.inj h)
    simp only [left] at hleft ⊢
    omega
  · obtain ⟨_, -, h⟩ := Option.bind_eq_some_iff.1 h
    obtain ⟨-, rfl⟩ := Prod.mk.inj (Option.some.inj h)
    rwa [left, skipLine, String.byteIdx_rawEndPos, Nat.sub_self]

/-! ## Tokens -/

/-- Whether the marker comes next and a blank comes behind it. -/
def atMarker (marker : String) (s : Scanner) : Option Bool := do
  let rest ← s.rest
  if (bytes marker).isPrefixOf (bytes rest) then
    let behind ← cut rest marker.rawEndPos rest.rawEndPos
    return Token.startsBlank behind.toList
  else
    return false

/-- Begins a string literal. -/
def stringMarker : String := ".\""

/-- Begins a comment in parentheses. -/
def commentMarker : String := "("

/-- Begins a comment that extends to the end of the line. -/
def lineMarker : String := "\\"

/-- Takes the word that begins here. -/
def takeWord (s : Scanner) : Option (Token × Scanner) := do
  let (_, s') ← s.skipWhile fun c => !isBlank c
  let name ← cut s.text s.position s'.position
  return (.word name, s')

/-- Takes the string literal whose marker begins here, with the one blank that separates them. -/
def takeString (s : Scanner) : Option (Token × Scanner) := do
  let (_, s) ← take ⟨s.text, s.position + stringMarker⟩
  let (contents, s) ← s.takeUntil '"'.toUInt8
  return (.string contents, s)

/-- What the scanner comes upon behind the blanks. -/
inductive Lexeme
  | token (t : Token)
  /-- A comment in parentheses, behind which the search goes on. -/
  | comment
  /-- The end of the line, or a comment that extends to it. -/
  | nothing
  deriving DecidableEq, Repr, Inhabited

/-- Takes what begins here, where no blank does. -/
def takeLexeme (s : Scanner) : Option (Lexeme × Scanner) := do
  if ← s.atMarker stringMarker then
    let (t, s) ← s.takeString
    return (.token t, s)
  else if ← s.atMarker commentMarker then
    let (_, s) ← s.takeUntil ')'.toUInt8
    return (.comment, s)
  else if ← s.atMarker lineMarker then
    return (.nothing, s.skipLine)
  else
    let (t, s) ← s.takeWord
    return (.token t, s)

theorem left_lt_of_takeLexeme {s s' : Scanner}
    (h : s.takeLexeme = some (.comment, s')) (hleft : 0 < s.left) : s'.left < s.left := by
  simp only [takeLexeme, Option.bind_eq_bind, Option.bind_eq_some_iff, Option.pure_def] at h
  obtain ⟨_, -, h⟩ := h
  split at h
  · simp [Option.bind_eq_some_iff] at h
  obtain ⟨_, -, h⟩ := Option.bind_eq_some_iff.1 h
  split at h
  · obtain ⟨_, htake, h⟩ := Option.bind_eq_some_iff.1 h
    obtain ⟨-, rfl⟩ := Prod.mk.inj (Option.some.inj h)
    exact left_lt_of_takeUntil htake hleft
  obtain ⟨_, -, h⟩ := Option.bind_eq_some_iff.1 h
  split at h
  · simp at h
  · simp [Option.bind_eq_some_iff] at h

/-- Takes what comes next. -/
def lexeme (s : Scanner) : Option (Lexeme × Scanner) := do
  match ← s.skipWhile isBlank with
  | (none, s) => return (.nothing, s)
  | (some _, s) => s.takeLexeme

/-- A comment takes at least one byte off what is left. -/
theorem left_lt_of_lexeme {s s' : Scanner} (h : s.lexeme = some (.comment, s')) :
    s'.left < s.left := by
  simp only [lexeme, Option.bind_eq_bind, Option.bind_eq_some_iff, Option.pure_def] at h
  obtain ⟨⟨c, here⟩, hskip, h⟩ := h
  cases c with
  | none => simp at h
  | some c =>
    have hhere := left_of_skipWhile hskip
    have hless := left_lt_of_takeLexeme h hhere.2
    omega

/-- The next token, if there is one. -/
def next (s : Scanner) : Option (Option Token × Scanner) :=
  match _h : s.lexeme with
  | none => none
  | some (.token t, s') => some (some t, s')
  | some (.comment, s') => next s'
  | some (.nothing, s') => some (none, s')
termination_by s.left
decreasing_by exact left_lt_of_lexeme ‹_›

/-- One round of the loop. -/
theorem next_eq (s : Scanner) :
    s.next = match s.lexeme with
      | none => none
      | some (.token t, s') => some (some t, s')
      | some (.comment, s') => s'.next
      | some (.nothing, s') => some (none, s') := by
  rw [next]
  split <;> simp_all

end Scanner

end Forth
