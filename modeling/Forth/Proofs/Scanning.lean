import Forth.Proofs.Layout
import Forth.Scanner
import Mathlib.Data.List.TakeWhile

/-!
# Scanning bytes and reading characters

A scanner counts bytes, and a line can be cut only between two characters.  That it never tries to
cut one in two rests on the encoding: the byte of an ASCII character is a byte of no other character
(`mem_utf8EncodeChar_iff`), so the first byte that equals a delimiter's is that of the first
delimiter.

A scanner `Faces` what is left of a line when it stands between two characters of it.  Whatever the
scanner does, it faces what is left afterwards (`Faces.skipWhile`, `Faces.takeUntil` and so on
up to `Faces.next`), and it finds what is found among the characters.  So no reading of a
line fails (`never_cuts_a_character`).
-/

namespace Forth

open Text (isBlank)

/-! ## Comments and blanks among the characters -/

namespace Token

/-- In a comment, the next token is behind the parenthesis that closes it. -/
theorem nextFrom_comment (cs : List Char) :
    nextFrom true cs = next? (cs.dropWhile (· != ')')).tail := by
  induction cs with
  | nil => rfl
  | cons c cs ih =>
    rw [nextFrom, if_pos rfl]
    by_cases hc : c = ')'
    · subst hc
      rfl
    · have hopen : (c != ')') = true := bne_iff_ne.2 hc
      rw [hopen, ih, List.dropWhile_cons, if_pos hopen]

theorem next?_dropWhile (cs : List Char) : next? (cs.dropWhile isBlank) = next? cs := by
  induction cs with
  | nil => rfl
  | cons c cs ih =>
    by_cases hc : isBlank c = true
    · rw [List.dropWhile_cons, if_pos hc, ih, next?_blank cs hc]
    · rw [List.dropWhile_cons, if_neg hc]

end Token

namespace Scanner

/-! ## Bytes of characters -/

section Bytes

variable {c d : Char} {cs : List Char}

theorem bytes_ofList (cs : List Char) :
    bytes (String.ofList cs) = cs.flatMap String.utf8EncodeChar := by
  simp [bytes, List.utf8Encode]

theorem bytes_append (cs ds : List Char) :
    bytes (String.ofList (cs ++ ds)) = bytes (String.ofList cs) ++ bytes (String.ofList ds) := by
  simp [bytes]

theorem length_bytes (text : String) : (bytes text).length = text.utf8ByteSize := by
  simp [bytes]

/-- A character of one byte has its code point for a byte. -/
theorem toNat_toUInt8 (hc : c.utf8Size = 1) : c.toUInt8.toNat = c.toNat ∧ c.toNat < 128 := by
  have hsmall : c.toNat ≤ 127 := Char.utf8Size_eq_one_iff.1 hc
  refine ⟨?_, by omega⟩
  rw [Char.toUInt8, UInt32.toNat_toUInt8]
  exact Nat.mod_eq_of_lt (Nat.lt_of_le_of_lt hsmall (by decide))

/-- The bytes of a character of several bytes are all beyond ASCII, the first one and the ones that
continue it. -/
theorem le_toNat_of_mem_utf8EncodeChar {b : UInt8} (hc : c.utf8Size ≠ 1)
    (hb : b ∈ String.utf8EncodeChar c) : 128 ≤ b.toNat := by
  have hor (x y : UInt8) (hy : 128 ≤ y.toNat) : 128 ≤ (x ||| y).toNat := by
    rw [UInt8.toNat_or]
    exact Nat.le_trans hy Nat.right_le_or
  obtain hone | htwo | hthree | hfour := c.utf8Size_eq
  · exact absurd hone hc
  · rw [String.utf8EncodeChar_eq_cons_cons htwo] at hb
    simp only [List.mem_cons, List.not_mem_nil, or_false] at hb
    obtain rfl | rfl := hb <;> exact hor _ _ (by decide)
  · rw [String.utf8EncodeChar_eq_cons_cons_cons hthree] at hb
    simp only [List.mem_cons, List.not_mem_nil, or_false] at hb
    obtain rfl | rfl | rfl := hb <;> exact hor _ _ (by decide)
  · rw [String.utf8EncodeChar_eq_cons_cons_cons_cons hfour] at hb
    simp only [List.mem_cons, List.not_mem_nil, or_false] at hb
    obtain rfl | rfl | rfl | rfl := hb <;> exact hor _ _ (by decide)

/-- **The byte of an ASCII character is a byte of no other character.** -/
theorem mem_utf8EncodeChar_iff (hd : d.utf8Size = 1) :
    d.toUInt8 ∈ String.utf8EncodeChar c ↔ d = c := by
  obtain ⟨hbyte, hsmall⟩ := toNat_toUInt8 hd
  constructor
  · intro h
    by_cases hc : c.utf8Size = 1
    · rw [String.utf8EncodeChar_eq_singleton hc, List.mem_singleton] at h
      have hcode := congrArg UInt8.toNat h
      rw [hbyte, ← Char.toUInt8, (toNat_toUInt8 hc).1] at hcode
      exact Char.ext (UInt32.toNat_inj.1 hcode)
    · have hlarge := le_toNat_of_mem_utf8EncodeChar hc h
      omega
  · rintro rfl
    rw [String.utf8EncodeChar_eq_singleton hd]
    exact List.mem_singleton.2 rfl

theorem mem_bytes_iff (hd : d.utf8Size = 1) : d.toUInt8 ∈ bytes (String.ofList cs) ↔ d ∈ cs := by
  rw [bytes_ofList, List.mem_flatMap]
  simp only [mem_utf8EncodeChar_iff hd]
  simp

/-- The first byte that equals an ASCII character's stands behind all bytes of what is in front of
the first such character. -/
theorem idxOf?_bytes_closed (hd : d.utf8Size = 1) (hcs : d ∉ cs) (rest : List Char) :
    (bytes (String.ofList (cs ++ d :: rest))).idxOf? d.toUInt8 =
      some (String.ofList cs).utf8ByteSize := by
  have hbyte : bytes (String.ofList [d]) = [d.toUInt8] := by
    rw [bytes_ofList, List.flatMap_singleton, String.utf8EncodeChar_eq_singleton hd]
    rfl
  have hbefore := mt (mem_bytes_iff hd).1 hcs
  rw [← length_bytes, List.append_cons, bytes_append, bytes_append, hbyte, List.idxOf?_eq_some_iff]
  refine ⟨by simp, by simp, ?_⟩
  intro j hj heq
  apply hbefore
  rw [← heq]
  simp [List.getElem_append_left, hj]

theorem idxOf?_bytes_unclosed (hd : d.utf8Size = 1) (hcs : d ∉ cs) :
    (bytes (String.ofList cs)).idxOf? d.toUInt8 = none :=
  List.idxOf?_eq_none_iff.2 (mt (mem_bytes_iff hd).1 hcs)

/-- A text begins with another one if its bytes do. -/
theorem isPrefixOf_bytes_iff {ds : List Char} :
    (bytes (String.ofList cs)).isPrefixOf (bytes (String.ofList ds)) = true ↔ cs <+: ds := by
  refine List.isPrefixOf_iff_prefix.trans ⟨?_, ?_⟩
  · rintro ⟨more, hmore⟩
    apply List.isPrefix_of_utf8Encode_append_eq_utf8Encode more.toByteArray
    apply ByteArray.ext
    apply Array.toList_inj.1
    simpa [bytes] using hmore
  · rintro ⟨more, rfl⟩
    rw [bytes_append]
    exact List.prefix_append _ _

end Bytes

/-! ## Between two characters -/

section Between

variable (before after : List Char)

theorem rawEndPos_append (cs ds : List Char) :
    (String.ofList (cs ++ ds)).rawEndPos =
      ⟨(String.ofList cs).rawEndPos.byteIdx + (String.ofList ds).utf8ByteSize⟩ := by
  apply String.Pos.Raw.ext
  rw [String.byteIdx_rawEndPos, String.byteIdx_rawEndPos, String.ofList_append,
    String.utf8ByteSize_append]

theorem isValid_append (cs ds : List Char) :
    (String.ofList cs).rawEndPos.IsValid (String.ofList (cs ++ ds)) := by
  rw [String.Pos.Raw.isValid_iff_exists_append]
  exact ⟨_, _, String.ofList_append, rfl⟩

/-- Between characters a text can be cut. -/
theorem cut_append (cs part ds : List Char) :
    cut (String.ofList (cs ++ (part ++ ds))) (String.ofList cs).rawEndPos
      (String.ofList (cs ++ part)).rawEndPos = some (String.ofList part) := by
  -- Both ends are boundaries of characters, so the cut does not fail.
  have hcut : (String.ofList cs).rawEndPos ≤ (String.ofList (cs ++ part)).rawEndPos ∧
      (String.ofList cs).rawEndPos.IsValid (String.ofList (cs ++ (part ++ ds))) ∧
      (String.ofList (cs ++ part)).rawEndPos.IsValid (String.ofList (cs ++ (part ++ ds))) := by
    refine ⟨?_, isValid_append _ _, ?_⟩
    · rw [rawEndPos_append]
      exact Nat.le_add_right _ _
    · rw [← List.append_assoc]
      exact isValid_append _ _
  have hbytes : (String.ofList (cs ++ (part ++ ds))).toByteArray.extract
      (String.ofList cs).rawEndPos.byteIdx (String.ofList (cs ++ part)).rawEndPos.byteIdx =
        (String.ofList part).toByteArray := by
    have hstart : (String.ofList cs).rawEndPos.byteIdx = (String.ofList cs).toByteArray.size + 0 := by
      rw [String.byteIdx_rawEndPos, String.size_toByteArray, Nat.add_zero]
    have hstop : (String.ofList (cs ++ part)).rawEndPos.byteIdx =
        (String.ofList cs).toByteArray.size + (String.ofList part).toByteArray.size := by
      rw [String.byteIdx_rawEndPos, String.ofList_append, String.utf8ByteSize_append,
        String.size_toByteArray, String.size_toByteArray]
    rw [hstart, hstop, String.ofList_append, String.toByteArray_append,
      ByteArray.extract_append_size_add, String.ofList_append, String.toByteArray_append,
      ByteArray.extract_append_eq_left rfl]
  rw [cut, dif_pos hcut, Option.some_inj, ← String.toByteArray_inj]
  exact hbytes

/-- The scanner that has these characters behind it and those in front of it. -/
def between : Scanner :=
  ⟨String.ofList (before ++ after), (String.ofList before).rawEndPos⟩

theorem rest_between : (between before after).rest = some (String.ofList after) := by
  have hcut := cut_append before after []
  rwa [List.append_nil] at hcut

theorem peek_between : (between before after).peek = some after.head? := by
  rw [peek, rest_between, Option.map_some, String.toList_ofList]

theorem take_between_nil : (between before []).take = some (none, between before []) := by
  rw [take, peek_between]
  rfl

theorem take_between_cons (c : Char) :
    (between before (c :: after)).take = some (some c, between (before ++ [c]) after) := by
  have hposition :
      (String.ofList before).rawEndPos + c = (String.ofList (before ++ [c])).rawEndPos := by
    rw [rawEndPos_append, ← String.singleton_eq_ofList, String.utf8ByteSize_singleton]
    rfl
  rw [take, peek_between]
  simp only [List.head?_cons, between, hposition, List.append_assoc, List.singleton_append]

theorem skipLine_between : (between before after).skipLine = between (before ++ after) [] := by
  simp only [between, skipLine, List.append_nil]

theorem skipWhile_between (p : Char → Bool) :
    (between before after).skipWhile p = some ((after.dropWhile p).head?,
      between (before ++ after.takeWhile p) (after.dropWhile p)) := by
  induction after generalizing before with
  | nil =>
    rw [skipWhile_eq, take_between_nil, List.takeWhile_nil, List.append_nil]
    rfl
  | cons c after ih =>
    rw [skipWhile_eq, take_between_cons]
    by_cases hc : p c = true
    · simp [ih, hc]
    · simp [hc]

theorem takeUntil_closed {d : Char} {cs : List Char} (hd : d.utf8Size = 1) (hcs : d ∉ cs)
    (rest : List Char) :
    (between before (cs ++ d :: rest)).takeUntil d.toUInt8 =
      some (String.ofList cs, between (before ++ (cs ++ [d])) rest) := by
  have hsearch := idxOf?_bytes_closed hd hcs rest
  have hcut := cut_append before cs (d :: rest)
  have hsize : (String.ofList (cs ++ [d])).utf8ByteSize = (String.ofList cs).utf8ByteSize + 1 := by
    rw [String.ofList_append, String.utf8ByteSize_append, ← String.singleton_eq_ofList,
      String.utf8ByteSize_singleton, hd]
  have hposition : (⟨(String.ofList before).rawEndPos.byteIdx + (String.ofList cs).utf8ByteSize + 1⟩ :
      String.Pos.Raw) = (String.ofList (before ++ (cs ++ [d]))).rawEndPos := by
    rw [rawEndPos_append, hsize, Nat.add_assoc]
  rw [takeUntil, rest_between]
  simp only [Option.bind_eq_bind, Option.bind_some, Option.pure_def, hsearch, between,
    ← rawEndPos_append, hcut, hposition, List.append_assoc, List.singleton_append]

theorem takeUntil_unclosed {d : Char} (hd : d.utf8Size = 1) (hafter : d ∉ after) :
    (between before after).takeUntil d.toUInt8 =
      some (String.ofList after, between (before ++ after) []) := by
  have hsearch := idxOf?_bytes_unclosed hd hafter
  have hcut := cut_append before after []
  rw [List.append_nil] at hcut
  rw [takeUntil, rest_between]
  simp only [Option.bind_eq_bind, Option.bind_some, Option.pure_def, hsearch, skipLine_between]
  simp only [between, hcut, Option.bind_some]

end Between

/-! ## Facing what is left -/

/-- The scanner goes over this text and stands between two characters, with these in front of it. -/
def Faces (s : Scanner) (text after : List Char) : Prop :=
  ∃ before, text = before ++ after ∧ s = between before after

variable {s : Scanner} {text after : List Char}

theorem faces_start (text : String) : (start text).Faces text.toList text.toList := by
  refine ⟨[], rfl, ?_⟩
  rw [between, List.nil_append, String.ofList_toList]
  rfl

theorem Faces.isValid (h : s.Faces text after) :
    s.text = String.ofList text ∧ s.position.IsValid s.text ∧
      s.rest = some (String.ofList after) := by
  obtain ⟨before, rfl, rfl⟩ := h
  exact ⟨rfl, isValid_append before after, rest_between before after⟩

theorem Faces.skipLine (h : s.Faces text after) : s.skipLine.Faces text [] := by
  obtain ⟨before, rfl, rfl⟩ := h
  rw [skipLine_between]
  exact ⟨before ++ after, by simp, rfl⟩

theorem Faces.skipWhile (h : s.Faces text after) (p : Char → Bool) :
    ∃ s', s.skipWhile p = some ((after.dropWhile p).head?, s') ∧
      s'.Faces text (after.dropWhile p) := by
  obtain ⟨before, rfl, rfl⟩ := h
  exact ⟨_, skipWhile_between before after p, before ++ after.takeWhile p, by simp, rfl⟩

/-- **Among the bytes a delimiter is found where it is found among the characters.** -/
theorem Faces.takeUntil {d : Char} (h : s.Faces text after) (hd : d.utf8Size = 1) :
    ∃ s', s.takeUntil d.toUInt8 = some (String.ofList (after.takeWhile (· != d)), s') ∧
      s'.Faces text (after.dropWhile (· != d)).tail := by
  obtain ⟨before, rfl, rfl⟩ := h
  by_cases hclosed : d ∈ after
  · obtain ⟨cs, rest, rfl, hcs⟩ := List.eq_append_cons_of_mem hclosed
    have hother := Token.bne_of_not_mem hcs
    rw [takeUntil_closed before hd hcs, List.takeWhile_append_of_pos hother,
      List.dropWhile_append_of_pos hother]
    exact ⟨_, by simp, before ++ (cs ++ [d]), by simp, rfl⟩
  · have hother := Token.bne_of_not_mem hclosed
    rw [takeUntil_unclosed before after hd hclosed, List.takeWhile_eq_self_iff.2 hother,
      List.dropWhile_eq_nil_iff.2 hother]
    exact ⟨_, rfl, before ++ after, by simp, rfl⟩

/-! ## Markers -/

/-- Whether the characters begin with the marker and a blank. -/
def marks (marker after : List Char) : Bool :=
  marker.isPrefixOf after && Token.startsBlank (after.drop marker.length)

theorem marks_singleton {m c : Char} {cs : List Char} :
    marks [m] (c :: cs) = true ↔ c = m ∧ Token.startsBlank cs = true := by
  rw [@eq_comm _ c m]
  simp [marks]

theorem marks_pair {m n c : Char} {cs : List Char} :
    marks [m, n] (c :: cs) = true ↔
      c = m ∧ cs.head? = some n ∧ Token.startsBlank cs.tail = true := by
  rw [@eq_comm _ c m]
  cases cs with
  | nil => simp [marks]
  | cons d cs =>
    rw [List.head?_cons, Option.some_inj, @eq_comm _ d n]
    simp [marks, and_assoc]

theorem Faces.atMarker (h : s.Faces text after) (marker : List Char) :
    s.atMarker (String.ofList marker) = some (marks marker after) := by
  rw [Scanner.atMarker, h.isValid.2.2]
  simp only [Option.bind_eq_bind, Option.bind_some, Option.pure_def]
  by_cases hmarker : marker <+: after
  · obtain ⟨behind, rfl⟩ := hmarker
    have hcut := cut_append marker behind []
    have hbegins : marker.isPrefixOf (marker ++ behind) = true := by simp
    rw [List.append_nil] at hcut
    rw [if_pos (isPrefixOf_bytes_iff.2 (List.prefix_append _ _)), hcut, marks, hbegins,
      List.drop_left, Option.bind_some, String.toList_ofList, Bool.true_and]
  · have hbegins : marker.isPrefixOf after = false :=
      Bool.eq_false_iff.2 (mt List.isPrefixOf_iff_prefix.1 hmarker)
    rw [if_neg (mt isPrefixOf_bytes_iff.1 hmarker), marks, hbegins, Bool.false_and]

/-! ## Tokens -/

theorem Faces.takeWord (h : s.Faces text after) :
    ∃ s', s.takeWord = some ((Token.takeWord after).1, s') ∧
      s'.Faces text (Token.takeWord after).2 := by
  obtain ⟨before, rfl, rfl⟩ := h
  have hcut := cut_append before (after.takeWhile fun c => !isBlank c)
    (after.dropWhile fun c => !isBlank c)
  rw [List.takeWhile_append_dropWhile] at hcut
  refine ⟨_, ?_, before ++ after.takeWhile fun c => !isBlank c, by simp [Token.takeWord], rfl⟩
  rw [Scanner.takeWord, skipWhile_between]
  simp only [Option.bind_eq_bind, Option.bind_some, Option.pure_def, between]
  rw [hcut]
  rfl

theorem Faces.takeString {c : Char} {cs : List Char} (h : s.Faces text ('.' :: '"' :: c :: cs)) :
    ∃ s', s.takeString = some ((Token.takeString cs).1, s') ∧
      s'.Faces text (Token.takeString cs).2 := by
  obtain ⟨before, rfl, rfl⟩ := h
  have hmarker : (⟨(between before ('.' :: '"' :: c :: cs)).text,
      (between before ('.' :: '"' :: c :: cs)).position + stringMarker⟩ : Scanner) =
        between (before ++ ['.', '"']) (c :: cs) := by
    rw [between, between, rawEndPos_append, List.append_assoc]
    rfl
  have hblank : Faces (between (before ++ ['.', '"'] ++ [c]) cs)
      (before ++ '.' :: '"' :: c :: cs) cs := ⟨_, by simp, rfl⟩
  have hdelimiter : '"'.utf8Size = 1 := by decide
  obtain ⟨s', htake, hs'⟩ := hblank.takeUntil hdelimiter
  refine ⟨s', ?_, hs'⟩
  rw [Scanner.takeString, hmarker, take_between_cons]
  simp only [Option.bind_eq_bind, Option.bind_some, Option.pure_def, htake]
  rfl

/-- What a lexeme tells about the next token of the characters, when these are left behind it. -/
def Lexeme.Tells (after left : List Char) : Lexeme → Prop
  | token t => Token.next? after = some (t, left)
  | comment => Token.next? after = Token.next? left ∧ left.length < after.length
  | nothing => Token.next? after = none ∧ left = []

theorem Faces.takeLexeme {c : Char} {cs : List Char} (h : s.Faces text (c :: cs))
    (hc : isBlank c = false) :
    ∃ found left s', s.takeLexeme = some (found, s') ∧ s'.Faces text left ∧
      found.Tells (c :: cs) left := by
  have hstring : s.atMarker stringMarker = some (marks ['.', '"'] (c :: cs)) := h.atMarker _
  have hcomment : s.atMarker commentMarker = some (marks ['('] (c :: cs)) := h.atMarker _
  have hline : s.atMarker lineMarker = some (marks ['\\'] (c :: cs)) := h.atMarker _
  rw [Scanner.takeLexeme]
  simp only [Option.bind_eq_bind, Option.bind_some, Option.pure_def, hstring, hcomment, hline]
  by_cases hquote : marks ['.', '"'] (c :: cs) = true
  · obtain ⟨rfl, hhead, hstart⟩ := marks_pair.1 hquote
    obtain ⟨cs, rfl⟩ := List.head?_eq_some_iff.1 hhead
    obtain ⟨d, cs, rfl, hd⟩ := Token.exists_cons_of_startsBlank hstart
    obtain ⟨s', htake, hs'⟩ := h.takeString
    rw [if_pos hquote, htake]
    exact ⟨_, _, s', rfl, hs', Token.nextFrom_quote hd⟩
  by_cases hparen : marks ['('] (c :: cs) = true
  · obtain ⟨rfl, hstart⟩ := marks_singleton.1 hparen
    obtain ⟨d, cs, rfl, hd⟩ := Token.exists_cons_of_startsBlank hstart
    have hdelimiter : ')'.utf8Size = 1 := by decide
    obtain ⟨s', htake, hs'⟩ := h.takeUntil hdelimiter
    -- The search begins at the marker, and neither the marker nor the blank closes the comment.
    have hleft : (('(' :: d :: cs).dropWhile (· != ')')).tail = (cs.dropWhile (· != ')')).tail := by
      have hopen : (d != ')') = true := by
        rw [bne_iff_ne]
        rintro rfl
        exact absurd hd (by decide)
      rw [List.dropWhile_cons, if_pos (by decide), List.dropWhile_cons, if_pos hopen]
    have hless : (cs.dropWhile (· != ')')).tail.length < ('(' :: d :: cs).length := by
      have hdrop := (List.dropWhile_suffix (l := cs) (· != ')')).length_le
      rw [List.length_tail, List.length_cons, List.length_cons]
      omega
    rw [hleft] at hs'
    rw [if_neg hquote, if_pos hparen, htake]
    exact ⟨_, _, s', rfl, hs', (Token.next?_paren hd cs).trans (Token.nextFrom_comment cs), hless⟩
  by_cases hbackslash : marks ['\\'] (c :: cs) = true
  · obtain ⟨rfl, hstart⟩ := marks_singleton.1 hbackslash
    obtain ⟨d, cs, rfl, hd⟩ := Token.exists_cons_of_startsBlank hstart
    rw [if_neg hquote, if_neg hparen, if_pos hbackslash]
    exact ⟨_, _, _, rfl, h.skipLine, Token.next?_trailer (.line hd cs), rfl⟩
  · obtain ⟨s', htake, hs'⟩ := h.takeWord
    rw [if_neg hquote, if_neg hparen, if_neg hbackslash, htake]
    exact ⟨_, _, s', rfl, hs', Token.nextFrom_word hc (mt marks_singleton.2 hparen)
      (mt marks_singleton.2 hbackslash) (mt marks_pair.2 hquote)⟩

theorem Faces.lexeme (h : s.Faces text after) :
    ∃ found left s', s.lexeme = some (found, s') ∧ s'.Faces text left ∧
      found.Tells after left := by
  obtain ⟨here, hskip, hhere⟩ := h.skipWhile isBlank
  have hnext := Token.next?_dropWhile after
  have hshorter := (List.dropWhile_suffix (l := after) isBlank).length_le
  rw [Scanner.lexeme, hskip]
  simp only [Option.bind_eq_bind, Option.bind_some, Option.pure_def]
  cases hdrop : after.dropWhile isBlank with
  | nil =>
    rw [hdrop] at hnext hhere
    exact ⟨_, _, here, rfl, hhere, hnext.symm, rfl⟩
  | cons c cs =>
    have hc : isBlank c = false := by
      have hhead := List.head?_dropWhile_not isBlank after
      rw [hdrop] at hhead
      simpa using hhead
    rw [hdrop] at hnext hhere hshorter
    obtain ⟨found, left, s', htake, hs', htells⟩ := hhere.takeLexeme hc
    refine ⟨found, left, s', htake, hs', ?_⟩
    cases found with
    | token t => exact hnext.symm.trans htells
    | comment => exact ⟨hnext.symm.trans htells.1, Nat.lt_of_lt_of_le htells.2 hshorter⟩
    | nothing => exact ⟨hnext.symm.trans htells.1, htells.2⟩

/-- **The scanner finds the token that is found among the characters.** -/
theorem Faces.next (h : s.Faces text after) :
    ∃ s', s.next = some ((Token.next? after).map Prod.fst, s') ∧
      s'.Faces text (Token.Reading.next.leaves after) := by
  -- Only a comment makes the scanner go on, and what is left behind it is shorter.
  induction hn : after.length using Nat.strongRecOn generalizing s after with
  | ind n ih =>
    subst hn
    obtain ⟨found, left, s', hlexeme, hs', htells⟩ := h.lexeme
    rw [next_eq, hlexeme]
    cases found with
    | token t =>
      have hnext : Token.next? after = some (t, left) := htells
      rw [Token.Reading.leaves, hnext]
      exact ⟨s', rfl, hs'⟩
    | comment =>
      obtain ⟨hnext, hless⟩ := htells
      rw [Token.Reading.leaves, hnext]
      exact ih left.length hless hs' rfl
    | nothing =>
      obtain ⟨hnext, rfl⟩ := htells
      rw [Token.Reading.leaves, hnext]
      exact ⟨s', rfl, hs'⟩

/-! ## Reading a line -/

/-- What a reader does to the scanner. -/
def perform (s : Scanner) : Token.Reading → Option Scanner
  | .next => s.next.map Prod.snd
  | .skip => some s.skipLine

theorem Faces.perform (h : s.Faces text after) (r : Token.Reading) :
    ∃ s', s.perform r = some s' ∧ s'.Faces text (r.leaves after) := by
  cases r with
  | next =>
    obtain ⟨s', hnext, hs'⟩ := h.next
    refine ⟨s', ?_, hs'⟩
    rw [Scanner.perform, hnext, Option.map_some]
  | skip => exact ⟨_, rfl, h.skipLine⟩

/-- However many readings there are, none of them fails. -/
theorem Faces.readings (h : s.Faces text after) (readings : List Token.Reading) :
    ∃ s', readings.foldlM Scanner.perform s = some s' ∧
      s'.Faces text (readings.foldl Token.Reading.leaves after) := by
  induction readings generalizing s after with
  | nil => exact ⟨s, rfl, h⟩
  | cons r readings ih =>
    obtain ⟨next, hperform, hnext⟩ := h.perform r
    rw [List.foldlM_cons, hperform]
    exact ih hnext

/-- **No character is ever cut.**  Whatever a line holds, and in whatever order its tokens are taken
and the rest of it is passed over, no cut fails: the position stays within the line and between two
of its characters, in front of what is left when the characters are read, and so the next token is
the one that is found there.  From any position between two characters of a line, the search for the
byte of a quotation mark or of a closing parenthesis takes the characters in front of the first one,
which are all if there is none, and leaves the characters behind it. -/
theorem never_cuts_a_character (text : String) (readings : List Token.Reading)
    (before after : String) {d : Char} (hd : d = '"' ∨ d = ')') :
    (∃ s, readings.foldlM perform (start text) = some s ∧
      s.text = text ∧ s.position ≤ text.rawEndPos ∧ s.position.IsValid text ∧
      s.rest = some (String.ofList (readings.foldl Token.Reading.leaves text.toList)) ∧
      s.next.map Prod.fst = some (Token.read readings text.toList)) ∧
    ∃ s, takeUntil d.toUInt8 ⟨before ++ after, before.rawEndPos⟩ =
        some (String.ofList (after.toList.takeWhile (· != d)), s) ∧
      s.text = before ++ after ∧ s.position.IsValid (before ++ after) ∧
      s.rest = some (String.ofList (after.toList.dropWhile (· != d)).tail) := by
  constructor
  -- The scanner faces the characters that the readings leave, and so stands at the boundary of one.
  · obtain ⟨s, hreadings, hs⟩ := (faces_start text).readings readings
    obtain ⟨htext, hvalid, hrest⟩ := hs.isValid
    obtain ⟨s', hnext, -⟩ := hs.next
    rw [String.ofList_toList] at htext
    rw [htext] at hvalid
    refine ⟨s, hreadings, htext, hvalid.le_rawEndPos, hvalid, hrest, ?_⟩
    rw [hnext, Option.map_some]
    rfl
  -- Both delimiters are one byte long, so the byte searched for is the whole character.
  · have hsize : d.utf8Size = 1 := by
      obtain rfl | rfl := hd <;> decide
    have hfaces :
        Faces ⟨before ++ after, before.rawEndPos⟩ (before ++ after).toList after.toList := by
      refine ⟨before.toList, String.toList_append, ?_⟩
      rw [between, String.ofList_append, String.ofList_toList, String.ofList_toList]
    obtain ⟨s, htake, hs⟩ := hfaces.takeUntil hsize
    obtain ⟨htext, hvalid, hrest⟩ := hs.isValid
    rw [String.ofList_toList] at htext
    rw [htext] at hvalid
    exact ⟨s, htake, htext, hvalid, hrest⟩

/-- Characters of two, three and four bytes, blanks of several bytes behind the markers, and a
parenthesis between characters of several bytes. -/
theorem never_cuts_a_character_wide :
    (')' = '"' ∨ ')' = ')') ∧
    (∃ s, [Token.Reading.next, .next].foldlM perform (start "(\u00a0é€)ß .\"\u3000ü( 𝄞\"\u2003€ 1") =
        some s ∧
      s.rest = some "\u2003€ 1" ∧ s.next.map Prod.fst = some (some (.word "€"))) ∧
    ∃ s, takeUntil ')'.toUInt8 ⟨"(\u00a0" ++ "é𝄞)€)", "(\u00a0".rawEndPos⟩ = some ("é𝄞", s) ∧
      s.rest = some "€)" := by
  obtain ⟨⟨s, hreadings, -, -, -, hrest, hnext⟩, s', htake, -, -, hrest'⟩ :=
    never_cuts_a_character "(\u00a0é€)ß .\"\u3000ü( 𝄞\"\u2003€ 1" [.next, .next] "(\u00a0" "é𝄞)€)"
      (.inr rfl)
  exact ⟨.inr rfl, ⟨s, hreadings, hrest, hnext⟩, s', htake, hrest'⟩

end Scanner

end Forth
