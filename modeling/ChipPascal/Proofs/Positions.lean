import Mathlib.Data.List.DropRight
import ChipPascal.Proofs.Excerpts

/-!
# Lines and columns in bytes

A text is written as bytes, and offsets count these. The line of an offset is told by the newline
bytes before it, and its column by the bytes since the last of them, also where the offset falls
into the middle of a character. Different offsets have different positions, in the same order.
-/

namespace ChipPascal

/-! ### Bytes of a text -/

def utf8Bytes (s : String) : List UInt8 := s.toByteArray.data.toList

def encoded (cs : List Char) : List UInt8 := cs.flatMap String.utf8EncodeChar

def newline : UInt8 := 10

def carriageReturn : UInt8 := 13

theorem utf8Bytes_eq (s : String) : utf8Bytes s = encoded s.toList := by
  have hBytes : s.toByteArray = s.toList.utf8Encode := by
    rw [← String.toByteArray_ofList, String.ofList_toList]
  rw [utf8Bytes, hBytes, List.utf8Encode, List.data_toByteArray]
  rfl

theorem encoded_append (xs ys : List Char) : encoded (xs ++ ys) = encoded xs ++ encoded ys :=
  List.flatMap_append

theorem encoded_singleton (c : Char) : encoded [c] = String.utf8EncodeChar c := by
  simp [encoded]

theorem length_encoded (cs : List Char) : (encoded cs).length = byteLength cs := by
  induction cs with
  | nil => rfl
  | cons c cs ih =>
    rw [← List.singleton_append, encoded_append, List.length_append, ih, encoded_singleton,
      String.length_utf8EncodeChar, byteLength_append, byteLength_cons, byteLength_nil,
      Nat.add_zero]

/-- A byte below 128 is a character of its own, and a part of no other. -/
theorem mem_utf8EncodeChar_iff {b : UInt8} (hb : b.toNat < 128) (c : Char) :
    b ∈ String.utf8EncodeChar c ↔ c.toNat = b.toNat := by
  have hc : c.val.toNat = c.toNat := rfl
  simp only [String.utf8EncodeChar, hc]
  split
  · rw [List.mem_singleton, ← UInt8.toNat_inj, UInt8.toNat_ofNat']
    omega
  · split
    · simp only [List.mem_cons, List.not_mem_nil, ← UInt8.toNat_inj, UInt8.toNat_ofNat', or_false]
      constructor <;> intro h <;> omega
    · split
      · simp only [List.mem_cons, List.not_mem_nil, ← UInt8.toNat_inj, UInt8.toNat_ofNat', or_false]
        constructor <;> intro h <;> omega
      · simp only [List.mem_cons, List.not_mem_nil, ← UInt8.toNat_inj, UInt8.toNat_ofNat', or_false]
        constructor <;> intro h <;> omega

theorem newline_mem_utf8EncodeChar {c : Char} : newline ∈ String.utf8EncodeChar c ↔ c = '\n' := by
  rw [mem_utf8EncodeChar_iff (by decide), ← Char.toNat_inj]
  rfl

theorem carriageReturn_mem_utf8EncodeChar {c : Char} :
    carriageReturn ∈ String.utf8EncodeChar c ↔ c = '\r' := by
  rw [mem_utf8EncodeChar_iff (by decide), ← Char.toNat_inj]
  rfl

theorem newline_mem_encoded {cs : List Char} : newline ∈ encoded cs ↔ '\n' ∈ cs := by
  simp only [encoded, List.mem_flatMap, newline_mem_utf8EncodeChar, exists_eq_right]

/-- A newline is one byte, and no other character has that byte. -/
theorem count_encoded (cs : List Char) : (encoded cs).count newline = cs.count '\n' := by
  induction cs with
  | nil => rfl
  | cons c cs ih =>
    rw [← List.singleton_append, encoded_append, List.count_append, List.count_append, ih,
      encoded_singleton]
    by_cases hc : c = '\n'
    · subst hc
      rfl
    · have hByte : newline ∉ String.utf8EncodeChar c := fun h =>
        hc (newline_mem_utf8EncodeChar.mp h)
      have hChar : '\n' ∉ [c] := fun h => hc (List.mem_singleton.mp h).symm
      rw [List.count_eq_zero.mpr hByte, List.count_eq_zero.mpr hChar]

/-- Whether carriage returns are dropped as characters or as bytes makes no difference. -/
theorem encoded_dropEndWhile (cs : List Char) :
    encoded (dropEndWhile (· = '\r') cs) = (encoded cs).rdropWhile (· = carriageReturn) := by
  have hDrop : ∀ cs, dropEndWhile (· = '\r') cs = cs.rdropWhile (· = '\r') := fun _ => rfl
  rw [hDrop]
  induction cs using List.reverseRecOn with
  | nil => rfl
  | append_singleton cs c ih =>
    rw [List.rdropWhile_concat, encoded_append, encoded_singleton]
    by_cases hc : c = '\r'
    · subst hc
      have hByte : String.utf8EncodeChar '\r' = [carriageReturn] := rfl
      rw [hByte, List.rdropWhile_concat, if_pos (by simp), if_pos (by simp), ih]
    · have hOther : carriageReturn ∉ String.utf8EncodeChar c :=
        fun h => hc (carriageReturn_mem_utf8EncodeChar.mp h)
      rw [if_neg (by simpa using hc), encoded_append, encoded_singleton]
      cases hBytes : String.utf8EncodeChar c using List.reverseRecOn with
      | nil =>
        have hLength := String.length_utf8EncodeChar c
        rw [hBytes] at hLength
        exact absurd hLength.symm (Nat.pos_iff_ne_zero.mp c.utf8Size_pos)
      | append_singleton bytes b =>
        have hLast : b ≠ carriageReturn := by
          rintro rfl
          rw [hBytes] at hOther
          exact hOther (List.mem_append_right _ List.mem_cons_self)
        rw [← List.append_assoc, List.rdropWhile_concat, if_neg (by simpa using hLast)]

/-! ### Positions in bytes -/

/-- The bytes before `offset` on its line; past the end, the end counts. -/
def lineHead (bytes : List UInt8) (offset : Nat) : List UInt8 :=
  (bytes.take offset).rtakeWhile (· ≠ newline)

def lineTail (bytes : List UInt8) (offset : Nat) : List UInt8 :=
  (bytes.drop offset).takeWhile (· ≠ newline)

/-- The newlines before `offset` and the bytes since the last of them, both counted from one. -/
def bytePosition (bytes : List UInt8) (offset : Nat) : Position :=
  ⟨1 + (bytes.take offset).count newline, 1 + (lineHead bytes offset).length⟩

/-- Lines come first, columns second. -/
def Position.Before (p q : Position) : Prop :=
  p.line < q.line ∨ p.line = q.line ∧ p.column < q.column

instance (p q : Position) : Decidable (p.Before q) := inferInstanceAs (Decidable (_ ∨ _))

theorem Position.Before.ne {p q : Position} (h : p.Before q) : p ≠ q := by
  rintro rfl
  rcases h with hLine | ⟨-, hColumn⟩
  · exact Nat.lt_irrefl _ hLine
  · exact Nat.lt_irrefl _ hColumn

theorem rtakeWhile_append_of_notMem {xs ys : List UInt8} (h : newline ∉ ys) :
    (xs ++ ys).rtakeWhile (· ≠ newline) = xs.rtakeWhile (· ≠ newline) ++ ys := by
  have hAll : ∀ b ∈ ys.reverse, decide (b ≠ newline) = true := by
    intro b hb
    rw [decide_eq_true_iff]
    rintro rfl
    exact h (List.mem_reverse.mp hb)
  rw [List.rtakeWhile, List.reverse_append, List.takeWhile_append_of_pos hAll,
    List.reverse_append, List.reverse_reverse, List.rtakeWhile]

/-- Positions follow each other as offsets do. -/
theorem before_bytePosition {bytes : List UInt8} {a b : Nat} (hab : a < b)
    (hb : b ≤ bytes.length) : (bytePosition bytes a).Before (bytePosition bytes b) := by
  -- what stands between the two offsets either has a newline or lengthens the line
  obtain ⟨between, hBetween⟩ : bytes.take a <+: bytes.take b :=
    List.take_prefix_take_left (Nat.le_of_lt hab)
  have hLength : between.length = b - a := by
    have hLengths := congrArg List.length hBetween
    simp only [List.length_append, List.length_take] at hLengths
    omega
  by_cases hNewline : newline ∈ between
  · left
    have hCount := List.count_pos_iff.mpr hNewline
    simp only [bytePosition, ← hBetween, List.count_append]
    omega
  · right
    simp only [bytePosition, lineHead, ← hBetween, List.count_append,
      List.count_eq_zero.mpr hNewline, rtakeWhile_append_of_notMem hNewline, List.length_append]
    omega

/-- No two offsets in a text have one position. -/
theorem bytePosition_inj {bytes : List UInt8} {a b : Nat} (ha : a ≤ bytes.length)
    (hb : b ≤ bytes.length) (h : bytePosition bytes a = bytePosition bytes b) : a = b := by
  rcases Nat.lt_trichotomy a b with hLess | hEq | hGreater
  · exact absurd h (before_bytePosition hLess hb).ne
  · exact hEq
  · exact absurd h.symm (before_bytePosition hGreater ha).ne

theorem lineHead_min (bytes : List UInt8) (offset : Nat) :
    lineHead bytes (min offset bytes.length) = lineHead bytes offset := by
  rw [lineHead, lineHead, List.take_eq_take_min (i := offset)]

theorem lineTail_min (bytes : List UInt8) (offset : Nat) :
    lineTail bytes (min offset bytes.length) = lineTail bytes offset := by
  rcases Nat.le_total offset bytes.length with hInside | hPast
  · rw [Nat.min_eq_left hInside]
  · rw [Nat.min_eq_right hPast, lineTail, lineTail, List.drop_length, List.drop_eq_nil_of_le hPast]

/-- Offsets behind the text have the position of its end. -/
theorem bytePosition_min (bytes : List UInt8) (offset : Nat) :
    bytePosition bytes (min offset bytes.length) = bytePosition bytes offset := by
  rw [bytePosition, bytePosition, lineHead_min, List.take_eq_take_min (i := offset)]

/-! ### Positions of a text -/

namespace IsLine

variable {text before line rest : List Char} {offset : Nat}

/-- A line begins behind a newline or with the text. -/
theorem rtakeWhile_before (h : IsLine text before line rest) :
    (encoded before).rtakeWhile (· ≠ newline) = [] := by
  cases before using List.reverseRecOn with
  | nil => rfl
  | append_singleton first c =>
    have hc : c = '\n' := h.opens c (by rw [List.getLast?_concat]; rfl)
    have hByte : encoded ['\n'] = [newline] := rfl
    rw [encoded_append, hc, hByte, List.rtakeWhile_concat, if_neg (by simp)]

/-- A line ends before a newline or with the text. -/
theorem takeWhile_rest (h : IsLine text before line rest) :
    (encoded rest).takeWhile (· ≠ newline) = [] := by
  cases rest with
  | nil => rfl
  | cons c rest =>
    have hc : c = '\n' := h.ends c rfl
    subst hc
    rfl

theorem newline_notMem (h : IsLine text before line rest) : newline ∉ encoded line :=
  fun hMem => h.whole (newline_mem_encoded.mp hMem)

theorem take_encoded (h : IsLine text before line rest) (hBegins : byteLength before ≤ offset)
    (hEnds : offset ≤ byteLength before + byteLength line) :
    (encoded text).take offset =
      encoded before ++ (encoded line).take (offset - byteLength before) := by
  rw [← length_encoded] at hBegins
  rw [← length_encoded, ← length_encoded] at hEnds
  rw [h.text, encoded_append, encoded_append, List.take_append, List.take_of_length_le hBegins,
    List.take_append_of_le_length (by omega), length_encoded]

theorem drop_encoded (h : IsLine text before line rest) (hBegins : byteLength before ≤ offset)
    (hEnds : offset ≤ byteLength before + byteLength line) :
    (encoded text).drop offset =
      (encoded line).drop (offset - byteLength before) ++ encoded rest := by
  rw [← length_encoded] at hBegins
  rw [← length_encoded, ← length_encoded] at hEnds
  rw [h.text, encoded_append, encoded_append, List.drop_append, List.drop_eq_nil_of_le hBegins,
    List.nil_append, List.drop_append_of_le_length (by omega), length_encoded]

theorem lineHead_eq (h : IsLine text before line rest) (hBegins : byteLength before ≤ offset)
    (hEnds : offset ≤ byteLength before + byteLength line) :
    lineHead (encoded text) offset = (encoded line).take (offset - byteLength before) := by
  have hNewline : newline ∉ (encoded line).take (offset - byteLength before) :=
    fun hMem => h.newline_notMem (List.mem_of_mem_take hMem)
  rw [lineHead, h.take_encoded hBegins hEnds, rtakeWhile_append_of_notMem hNewline,
    h.rtakeWhile_before, List.nil_append]

theorem lineTail_eq (h : IsLine text before line rest) (hBegins : byteLength before ≤ offset)
    (hEnds : offset ≤ byteLength before + byteLength line) :
    lineTail (encoded text) offset = (encoded line).drop (offset - byteLength before) := by
  have hAll : ∀ b ∈ (encoded line).drop (offset - byteLength before),
      decide (b ≠ newline) = true := by
    intro b hb
    rw [decide_eq_true_iff]
    rintro rfl
    exact h.newline_notMem (List.mem_of_mem_drop hb)
  rw [lineTail, h.drop_encoded hBegins hEnds, List.takeWhile_append_of_pos hAll, h.takeWhile_rest,
    List.append_nil]

/-- The position of an offset is read off the line that it falls in. -/
theorem bytePosition_eq (h : IsLine text before line rest) (hBegins : byteLength before ≤ offset)
    (hEnds : offset ≤ byteLength before + byteLength line) :
    bytePosition (encoded text) offset =
      ⟨before.count '\n' + 1, offset - byteLength before + 1⟩ := by
  have hNewline : newline ∉ (encoded line).take (offset - byteLength before) :=
    fun hMem => h.newline_notMem (List.mem_of_mem_take hMem)
  have hColumn : ((encoded line).take (offset - byteLength before)).length =
      offset - byteLength before := by
    rw [List.length_take, length_encoded]
    omega
  rw [bytePosition, h.lineHead_eq hBegins hEnds, hColumn, h.take_encoded hBegins hEnds,
    List.count_append, count_encoded, List.count_eq_zero.mpr hNewline, Nat.add_zero, Nat.add_comm 1,
    Nat.add_comm 1]

end IsLine

namespace LineIndex

theorem length_utf8Bytes (source : String) : (utf8Bytes source).length = source.utf8ByteSize := by
  rw [utf8Bytes_eq, length_encoded, byteLength_toList]

/-- An offset past the end counts as the end. -/
theorem position_min (source : String) (offset : Nat) :
    (ofString source).position (min offset (utf8Bytes source).length) =
      (ofString source).position offset := by
  have hSize : (ofString source).size = (utf8Bytes source).length := by
    rw [utf8Bytes_eq, length_encoded]
    rfl
  simp only [position, hSize, Nat.min_assoc, Nat.min_self]

/-- The line in which an offset stands, and its position there. -/
theorem exists_line_of_le {source : String} {offset : Nat}
    (h : offset ≤ (utf8Bytes source).length) :
    ∃ start line, (ofString source).line? ((ofString source).position offset).line =
        some ⟨start, line⟩ ∧
      (ofString source).position offset = bytePosition (utf8Bytes source) offset ∧
      encoded line = lineHead (utf8Bytes source) offset ++ lineTail (utf8Bytes source) offset := by
  rw [length_utf8Bytes] at h
  obtain ⟨before, line, rest, hIsLine, hBegins, hEnds, hPosition, hLine⟩ := exists_position h
  refine ⟨byteLength before, line, ?_, ?_, ?_⟩
  · rw [hPosition]
    exact hLine
  · rw [hPosition, utf8Bytes_eq, hIsLine.bytePosition_eq hBegins hEnds]
  · rw [utf8Bytes_eq, hIsLine.lineHead_eq hBegins hEnds, hIsLine.lineTail_eq hBegins hEnds,
      List.take_append_drop]

/-- The index finds the position that the bytes have. -/
theorem position_eq (source : String) (offset : Nat) :
    (ofString source).position offset = bytePosition (utf8Bytes source) offset := by
  rw [← position_min, ← bytePosition_min]
  obtain ⟨-, -, -, hPosition, -⟩ := exists_line_of_le (Nat.min_le_right offset _)
  exact hPosition

/-- The line of an offset is there, and what is shown of it is all between the newlines around the
offset, except for carriage returns at its end. -/
theorem exists_lineText? (source : String) (offset : Nat) :
    ∃ text, (ofString source).lineText? ((ofString source).position offset).line = some text ∧
      utf8Bytes text =
        (lineHead (utf8Bytes source) offset ++ lineTail (utf8Bytes source) offset).rdropWhile
          (· = carriageReturn) := by
  rw [← position_min, ← lineHead_min, ← lineTail_min]
  obtain ⟨start, line, hLine, -, hBytes⟩ :=
    @exists_line_of_le source _ (Nat.min_le_right offset _)
  refine ⟨SourceLine.shown ⟨start, line⟩, ?_, ?_⟩
  · rw [lineText?, hLine, Option.map_some]
  · rw [utf8Bytes_eq, SourceLine.shown, String.toList_ofList, encoded_dropEndWhile, hBytes]

/-- Line and column of an offset are told by the newlines before it and the bytes since the last of
them. The line has a text, which lies between the newlines around the offset. Positions keep the
order of the offsets in the text, so no two of these share one. -/
theorem positions_exact (source : String) :
    (∀ offset, (ofString source).position offset =
      ⟨1 + ((utf8Bytes source).take offset).count newline,
        1 + (lineHead (utf8Bytes source) offset).length⟩) ∧
    (∀ offset, ∃ text,
      (ofString source).lineText? ((ofString source).position offset).line = some text ∧
        utf8Bytes text =
          (lineHead (utf8Bytes source) offset ++ lineTail (utf8Bytes source) offset).rdropWhile
            (· = carriageReturn)) ∧
    (∀ a b, a < b → b ≤ (utf8Bytes source).length →
      ((ofString source).position a).Before ((ofString source).position b)) ∧
    ∀ a b, a ≤ (utf8Bytes source).length → b ≤ (utf8Bytes source).length →
      (ofString source).position a = (ofString source).position b → a = b := by
  refine ⟨position_eq source, exists_lineText? source, ?_, ?_⟩
  · intro a b hab hb
    rw [position_eq, position_eq]
    exact before_bytePosition hab hb
  · intro a b ha hb hEq
    rw [position_eq, position_eq] at hEq
    exact bytePosition_inj ha hb hEq

/-- Three lines: the first has a character of two bytes and two carriage returns at its end, the
second is empty. -/
def threeLines : String := "aé\r\r\n\nx"

theorem threeLines_positions :
    (ofString threeLines).position 2 = ⟨1, 3⟩ ∧
      (∃ text, (ofString threeLines).lineText? 1 = some text ∧
        utf8Bytes text = [0x61, 0xC3, 0xA9]) ∧
      (ofString threeLines).position 100 = ⟨3, 2⟩ ∧
      ((ofString threeLines).position 5).Before ((ofString threeLines).position 6) ∧
      (ofString threeLines).position 6 ≠ (ofString threeLines).position 7 := by
  obtain ⟨hPosition, hText, hBefore, hInj⟩ := positions_exact threeLines
  have hLength : (utf8Bytes threeLines).length = 8 := by decide +kernel
  have hFirst : (ofString threeLines).position 2 = ⟨1, 3⟩ :=
    (hPosition 2).trans (by decide +kernel)
  obtain ⟨text, hLine, hBytes⟩ := hText 2
  rw [hFirst] at hLine
  refine ⟨hFirst, ⟨text, hLine, hBytes.trans (by decide +kernel)⟩, ?_, ?_, ?_⟩
  · exact (hPosition 100).trans (by decide +kernel)
  · exact hBefore 5 6 (by decide) (by rw [hLength]; decide)
  · intro hEq
    have hSame := hInj 6 7 (by rw [hLength]; decide) (by rw [hLength]; decide) hEq
    exact absurd hSame (by decide)

end LineIndex

end ChipPascal
