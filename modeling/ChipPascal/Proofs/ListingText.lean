import ChipPascal.Assembly.Listing
import ChipPascal.Machine.Image
import ChipPascal.Proofs.Identifiers

/-!
# Reading a listing back

What the assembler reads from the text of a listing are its labels, its data words and its
instructions, each in the words it was written in. This holds of all listings in which names are
identifiers and no remark runs over the end of its line.
-/

namespace ChipPascal

/-! ### Plain text -/

/-- No white space, and none of the marks at which the assembler cuts a line. -/
def isPlainChar (c : Char) : Bool := !isWhiteSpace c && c ≠ ',' && c ≠ ';' && c ≠ ':'

def Plain (cs : List Char) : Prop := cs ≠ [] ∧ ∀ c ∈ cs, isPlainChar c = true

instance (cs : List Char) : Decidable (Plain cs) :=
  decidable_of_iff (cs ≠ [] ∧ cs.all isPlainChar = true) (by simp [Plain])

theorem isPlainChar_iff {c : Char} :
    isPlainChar c = true ↔ isWhiteSpace c = false ∧ c ≠ ',' ∧ c ≠ ';' ∧ c ≠ ':' := by
  simp [isPlainChar, and_assoc]

/-- Names have none of the characters that separate words. -/
theorem isPlainChar_of_isIdentPart {c : Char} (h : Lexer.isIdentPart c = true) :
    isPlainChar c = true := by
  have hBounds : (48 ≤ c.toNat ∧ c.toNat ≤ 57) ∨ (65 ≤ c.toNat ∧ c.toNat ≤ 90) ∨
      (97 ≤ c.toNat ∧ c.toNat ≤ 122) ∨ c.toNat = 95 := by
    have hRange : ∀ lo hi : Char, lo.val ≤ c.val ∧ c.val ≤ hi.val →
        lo.toNat ≤ c.toNat ∧ c.toNat ≤ hi.toNat := fun lo hi h =>
      ⟨UInt32.le_iff_toNat_le.mp h.1, UInt32.le_iff_toNat_le.mp h.2⟩
    have hBoth : ∀ {a b : Prop} [Decidable a] [Decidable b], (decide a && decide b) = true →
        a ∧ b := by simp
    simp only [Lexer.isIdentPart, Char.isAlphanum, Bool.or_eq_true, decide_eq_true_eq] at h
    rcases h with (h | h) | rfl
    · rcases Bool.or_eq_true_iff.mp h with h | h
      · exact .inr (.inl (hRange 'A' 'Z' (of_decide_eq_true h)))
      · exact .inr (.inr (.inl (hRange 'a' 'z' (hBoth h))))
    · exact .inl (hRange '0' '9' (hBoth h))
    · exact .inr (.inr (.inr rfl))
  have hNe : ∀ d : Char, c.toNat ≠ d.toNat → c ≠ d := fun d hd hcd => hd (by rw [hcd])
  refine isPlainChar_iff.mpr ⟨?_, hNe _ ?_, hNe _ ?_, hNe _ ?_⟩
  · simp only [isWhiteSpace, Bool.or_eq_false_iff, Bool.and_eq_false_iff, decide_eq_false_iff_not]
    omega
  · show c.toNat ≠ 44
    omega
  · show c.toNat ≠ 59
    omega
  · show c.toNat ≠ 58
    omega

theorem isPlainChar_of_isDigit {c : Char} (h : c.isDigit = true) : isPlainChar c = true :=
  isPlainChar_of_isIdentPart (by simp [Lexer.isIdentPart, Char.isAlphanum, h])

theorem Plain.append_left {a b : List Char} (ha : Plain a)
    (hb : ∀ c ∈ b, isPlainChar c = true) : Plain (a ++ b) := by
  refine ⟨by simp [ha.1], ?_⟩
  intro c hc
  rcases List.mem_append.mp hc with h | h
  · exact ha.2 c h
  · exact hb c h

theorem Plain.no_blank {cs : List Char} (h : Plain cs) : ∀ c ∈ cs, isWhiteSpace c = false :=
  fun c hc => (isPlainChar_iff.mp (h.2 c hc)).1

theorem plain_digits (n : Nat) : Plain (Nat.toDigits 10 n) :=
  ⟨Nat.toDigits_ne_nil, fun _ hc =>
    isPlainChar_of_isDigit (Nat.isDigit_of_mem_toDigits (by decide) (by decide) hc)⟩

/-! ### Labels and operands -/

namespace Label

def Tidy : Label → Prop
  | global name | procedure name => IsIdentifier name
  | _ => True

theorem plain_text {l : Label} (h : l.Tidy) : Plain l.text.toList := by
  have hName : ∀ {name : String}, IsIdentifier name →
      ∀ c ∈ name.toList, isPlainChar c = true :=
    fun h c hc => isPlainChar_of_isIdentPart (h.2 c hc)
  cases l with
  | entry => decide
  | finish => decide
  | bcdLow => decide
  | bcdHigh => decide
  | stackZone => decide
  | global name =>
    rw [text, String.toList_append]
    refine Plain.append_left (by decide) ?_
    exact (hName h)
  | procedure name =>
    rw [text, String.toList_append]
    refine Plain.append_left (by decide) ?_
    exact (hName h)
  | elseBranch n =>
    rw [text, String.toList_append]
    refine Plain.append_left (by decide) ?_
    simpa using (plain_digits n).2
  | endBranch n =>
    rw [text, String.toList_append]
    refine Plain.append_left (by decide) ?_
    simpa using (plain_digits n).2

/-- Different labels have different texts. -/
theorem text_injective {l m : Label} (h : l.text = m.text) : l = m := by
  have hDigits : ∀ {a b : Nat}, Nat.toDigits 10 a = Nat.toDigits 10 b → a = b := by
    intro a b hab
    have := congrArg (Nat.ofDigitChars 10 · 0) hab
    simpa using this
  have hChars := congrArg String.toList h
  -- two labels of different kinds differ in one of their first eleven characters
  cases l <;> cases m <;> simp [text] at hChars ⊢
  · exact String.toList_inj.mp hChars
  · exact String.toList_inj.mp hChars
  · exact hDigits hChars
  · exact hDigits hChars

theorem toList_bracketed (l : Label) : l.bracketed.toList = '[' :: l.text.toList ++ [']'] := by
  simp [bracketed]

theorem plain_bracketed {l : Label} (h : l.Tidy) : Plain l.bracketed.toList := by
  rw [toList_bracketed]
  refine ⟨by simp, ?_⟩
  intro c hc
  simp only [List.cons_append, List.mem_cons, List.mem_append, List.not_mem_nil, or_false] at hc
  rcases hc with rfl | hc | rfl
  · decide
  · exact (plain_text h).2 c hc
  · decide

end Label

theorem plain_regText (x : Reg) : Plain x.text.toList := by
  have h : ∀ x : Reg, Plain x.text.toList := by decide +kernel
  exact h x

def hexDigit (d : Nat) : Char := d.digitChar.toUpper

theorem toList_immediate (k : UInt8) :
    (immediate k).toList = ['0', 'x', hexDigit (k.toNat / 16), hexDigit (k.toNat % 16)] := by
  have hLt : k.toNat < 256 := k.toNat_lt
  by_cases hk : k.toNat < 16
  · have hDigits : Nat.toDigits 16 k.toNat = [k.toNat.digitChar] := Nat.toDigits_of_lt_base hk
    have hHigh : hexDigit (k.toNat / 16) = '0' := by
      rw [Nat.div_eq_of_lt hk]
      decide
    simp [immediate, hexUpper, padLeft, hDigits, hHigh, Nat.mod_eq_of_lt hk]
    rfl
  · have hDigits : Nat.toDigits 16 k.toNat =
        [(k.toNat / 16).digitChar, (k.toNat % 16).digitChar] := by
      rw [Nat.toDigits_of_base_le (by decide) (by omega), Nat.toDigits_of_lt_base (by omega)]
      rfl
    simp [immediate, hexUpper, padLeft, hDigits]
    exact ⟨rfl, rfl⟩

theorem plain_immediate (k : UInt8) : Plain (immediate k).toList := by
  have hDigit : ∀ d < 16, isPlainChar (hexDigit d) = true := by decide
  have hLt : k.toNat < 256 := k.toNat_lt
  have hHigh := hDigit (k.toNat / 16) (by omega)
  have hLow := hDigit (k.toNat % 16) (by omega)
  have hMark : isPlainChar '0' = true ∧ isPlainChar 'x' = true := by decide
  rw [toList_immediate]
  refine ⟨by simp, ?_⟩
  simp [hHigh, hLow, hMark]

namespace Instr

def target? : Instr → Option Label
  | index l | jump l | call l => some l
  | _ => none

def Tidy (i : Instr) : Prop := ∀ l, i.target? = some l → l.Tidy

theorem plain_mnemonic (i : Instr) : Plain i.mnemonic.toList := by
  cases i <;> simp only [mnemonic] <;> decide

theorem plain_operands {i : Instr} (h : i.Tidy) : ∀ o ∈ i.operands, Plain o.toList := by
  have hI : Plain ['I'] := by decide
  have hAtI : Plain ['[', 'I', ']'] := by decide
  have hB : Plain ['B'] := by decide
  have hF : Plain ['F'] := by decide
  cases i with
  | index l => simp [operands, hI, Label.plain_bracketed (h l rfl)]
  | jump l => simp [operands, Label.plain_bracketed (h l rfl)]
  | call l => simp [operands, Label.plain_bracketed (h l rfl)]
  | _ => simp [operands, plain_regText, plain_immediate, plain_digits, hI, hAtI, hB, hF]

end Instr

/-! ### Cutting and trimming -/

theorem splitAtChar_of_not_mem {sep : Char} {a : List Char} (h : sep ∉ a) :
    splitAtChar sep a = [a] := by
  induction a with
  | nil => rfl
  | cons c a ih =>
    have hc : c ≠ sep := Ne.symm (List.ne_of_not_mem_cons h)
    simp [splitAtChar, hc, ih (List.not_mem_of_not_mem_cons h)]

theorem splitAtChar_append {sep : Char} {a : List Char} (h : sep ∉ a) (b : List Char) :
    splitAtChar sep (a ++ sep :: b) = a :: splitAtChar sep b := by
  induction a with
  | nil => simp [splitAtChar]
  | cons c a ih =>
    have hc : c ≠ sep := Ne.symm (List.ne_of_not_mem_cons h)
    simp [splitAtChar, hc, ih (List.not_mem_of_not_mem_cons h)]

theorem takeWhile_eq_self {p : Char → Bool} {cs : List Char} (h : ∀ c ∈ cs, p c = true) :
    cs.takeWhile p = cs := by
  induction cs with
  | nil => rfl
  | cons c cs ih =>
    rw [List.takeWhile_cons_of_pos (h c (by simp)), ih fun d hd => h d (List.mem_cons_of_mem c hd)]

def Solid (cs : List Char) : Prop :=
  (∃ c, cs.head? = some c ∧ isWhiteSpace c = false) ∧
    ∃ c, cs.getLast? = some c ∧ isWhiteSpace c = false

theorem Solid.ne_nil {cs : List Char} (h : Solid cs) : cs ≠ [] := by
  obtain ⟨⟨c, hc, -⟩, -⟩ := h
  rintro rfl
  simp at hc

theorem dropWhile_blank_append {blanks cs : List Char} {c : Char}
    (hBlank : ∀ b ∈ blanks, isWhiteSpace b = true) (hHead : cs.head? = some c)
    (hc : isWhiteSpace c = false) : (blanks ++ cs).dropWhile isWhiteSpace = cs := by
  rw [List.dropWhile_append_of_pos hBlank]
  obtain ⟨cs', rfl⟩ := List.head?_eq_some_iff.mp hHead
  simp [hc]

/-- Trimming removes the blanks around a text and nothing else. -/
theorem Solid.trim {a cs b : List Char} (h : Solid cs) (ha : ∀ c ∈ a, isWhiteSpace c = true)
    (hb : ∀ c ∈ b, isWhiteSpace c = true) : trim (a ++ cs ++ b) = cs := by
  obtain ⟨⟨first, hFirst, hSolid⟩, last, hLast, hSolid'⟩ := h
  have hStart : (a ++ cs ++ b).dropWhile isWhiteSpace = cs ++ b := by
    rw [List.append_assoc]
    exact dropWhile_blank_append ha (by simp [List.head?_append, hFirst]) hSolid
  have hEnd : (b.reverse ++ cs.reverse).dropWhile isWhiteSpace = cs.reverse := by
    refine dropWhile_blank_append ?_ (by rw [List.head?_reverse, hLast]) hSolid'
    intro c hc
    exact hb c (List.mem_reverse.mp hc)
  rw [ChipPascal.trim, hStart, dropEndWhile, List.reverse_append, hEnd, List.reverse_reverse]

theorem Plain.solid {cs : List Char} (h : Plain cs) : Solid cs := by
  refine ⟨⟨cs.head h.1, List.head?_eq_some_head h.1, ?_⟩,
    cs.getLast h.1, List.getLast?_eq_some_getLast h.1, ?_⟩
  · exact h.no_blank _ (List.head_mem h.1)
  · exact h.no_blank _ (List.getLast_mem h.1)

theorem Plain.not_mem {cs : List Char} (h : Plain cs) {c : Char} (hc : isPlainChar c = false) :
    c ∉ cs := by
  intro hMem
  simp [h.2 c hMem] at hc

/-! ### Instructions -/

def spread : List (List Char) → List Char
  | [] => []
  | o :: os => ' ' :: (o ++ os.flatMap fun o => ',' :: ' ' :: o)

theorem splitAtChar_operands {o : List Char} {os : List (List Char)}
    (h : ∀ p ∈ o :: os, ',' ∉ p) :
    splitAtChar ',' (o ++ os.flatMap fun o => ',' :: ' ' :: o) = o :: os.map (' ' :: ·) := by
  induction os generalizing o with
  | nil =>
    simp only [List.flatMap_nil, List.append_nil, List.map_nil]
    exact splitAtChar_of_not_mem (h o (by simp))
  | cons p os ih =>
    have hTail : ∀ q ∈ (' ' :: p) :: os, ',' ∉ q := by
      intro q hq
      rcases List.mem_cons.mp hq with rfl | hq
      · have hp := h p (by simp)
        simp [hp]
      · exact h q (by simp [hq])
    simp only [List.flatMap_cons, List.cons_append, List.map_cons]
    rw [splitAtChar_append (h o (by simp)), ← List.cons_append, ih hTail]

theorem getLast?_spread {o : List Char} {os : List (List Char)} (h : ∀ p ∈ o :: os, Plain p) :
    ∃ c, (o ++ os.flatMap fun o => ',' :: ' ' :: o).getLast? = some c ∧
      isPlainChar c = true := by
  induction os generalizing o with
  | nil =>
    have ho := h o (by simp)
    exact ⟨o.getLast ho.1, by simp [List.getLast?_eq_some_getLast ho.1],
      ho.2 _ (List.getLast_mem ho.1)⟩
  | cons p os ih =>
    obtain ⟨c, hc, hPlain⟩ := ih (o := p) fun q hq => h q (List.mem_cons_of_mem o hq)
    refine ⟨c, ?_, hPlain⟩
    rw [List.flatMap_cons, List.cons_append, List.cons_append, List.getLast?_append]
    simp [List.getLast?_cons, hc]

theorem getLast?_words {m : List Char} {os : List (List Char)} (hm : Plain m)
    (hos : ∀ o ∈ os, Plain o) :
    ∃ c, (m ++ spread os).getLast? = some c ∧ isPlainChar c = true := by
  cases os with
  | nil =>
    exact ⟨m.getLast hm.1, by simp [spread, List.getLast?_eq_some_getLast hm.1],
      hm.2 _ (List.getLast_mem hm.1)⟩
  | cons o os =>
    obtain ⟨c, hc, hPlain⟩ := getLast?_spread hos
    refine ⟨c, ?_, hPlain⟩
    rw [spread, List.getLast?_append]
    simp [List.getLast?_cons, hc]

theorem solid_words {m : List Char} {os : List (List Char)} (hm : Plain m)
    (hos : ∀ o ∈ os, Plain o) : Solid (m ++ spread os) := by
  obtain ⟨⟨first, hFirst, hSolid⟩, -⟩ := hm.solid
  obtain ⟨last, hLast, hPlain⟩ := getLast?_words hm hos
  exact ⟨⟨first, by simp [List.head?_append, hFirst], hSolid⟩,
    last, hLast, (isPlainChar_iff.mp hPlain).1⟩

theorem not_mem_words {m : List Char} {os : List (List Char)} (hm : Plain m)
    (hos : ∀ o ∈ os, Plain o) {c : Char} (hc : isPlainChar c = false) (hBlank : c ≠ ' ')
    (hComma : c ≠ ',') : c ∉ m ++ spread os := by
  have hOperand : ∀ o ∈ os, c ∉ o := fun o ho => (hos o ho).not_mem hc
  have hMnemonic : c ∉ m := hm.not_mem hc
  cases os with
  | nil => simpa [spread] using hMnemonic
  | cons o os =>
    have ho := hOperand o (by simp)
    simp only [spread, List.mem_append, List.mem_cons, List.mem_flatMap, not_or]
    refine ⟨hMnemonic, hBlank, ho, ?_⟩
    rintro ⟨p, hp, h | h | h⟩
    · exact hComma h
    · exact hBlank h
    · exact hOperand p (List.mem_cons_of_mem o hp) h

/-- A mnemonic and its operands are read back from the words that write them. -/
theorem Machine.readStatement_words {m : List Char} {os : List (List Char)} (hm : Plain m)
    (hos : ∀ o ∈ os, Plain o) :
    readStatement (m ++ spread os) = ⟨String.ofList m, os.map String.ofList⟩ := by
  have hBlank : ∀ c ∈ m, decide (c ≠ ' ') = true := by
    intro c hc
    have hNe : c ≠ ' ' := fun h => hm.not_mem (by decide) (h ▸ hc)
    simp [hNe]
  cases os with
  | nil =>
    have hTake := takeWhile_eq_self hBlank
    have hDrop : m.dropWhile (fun c => decide (c ≠ ' ')) = [] := by
      have := List.takeWhile_append_dropWhile (p := fun c => decide (c ≠ ' ')) (l := m)
      rw [hTake] at this
      exact List.append_right_eq_self.mp this
    simp only [readStatement, spread, List.append_nil, hTake, hDrop]
    rfl
  | cons o os =>
    have hComma : ∀ p ∈ o :: os, ',' ∉ p := fun p hp => (hos p hp).not_mem (by decide)
    have hKeep : ∀ p ∈ o :: os, String.ofList p ≠ "" := by
      intro p hp
      simpa using (hos p hp).1
    have hTrim : ∀ p ∈ o :: os, trim p = p := by
      intro p hp
      simpa using (hos p hp).solid.trim (a := []) (b := []) (by simp) (by simp)
    have hTrimBlank : ∀ p ∈ o :: os, trim (' ' :: p) = p := by
      intro p hp
      have hSpace : ∀ c ∈ [' '], isWhiteSpace c = true := List.forall_mem_singleton.mpr rfl
      simpa using (hos p hp).solid.trim (b := []) hSpace (by simp)
    simp only [readStatement, spread, List.takeWhile_append_of_pos hBlank,
      List.dropWhile_append_of_pos hBlank, List.takeWhile_cons, List.dropWhile_cons, ne_eq,
      not_true, decide_false, Bool.false_eq_true, if_false, List.append_nil, List.drop_succ_cons,
      List.drop_zero]
    rw [splitAtChar_operands hComma]
    refine congrArg _ ?_
    have hMap : (o :: os.map (' ' :: ·)).map (fun p => String.ofList (trim p)) =
        (o :: os).map String.ofList := by
      rw [List.map_cons, List.map_cons, hTrim o (by simp), List.map_map]
      refine congrArg _ (List.map_congr_left fun p hp => ?_)
      simp only [Function.comp_apply, hTrimBlank p (List.mem_cons_of_mem o hp)]
    rw [hMap]
    refine List.filter_eq_self.mpr fun p hp => ?_
    obtain ⟨q, hq, rfl⟩ := List.mem_map.mp hp
    simpa using hKeep q hq

theorem intercalate_cons (o : List Char) (os : List (List Char)) :
    [',', ' '].intercalate (o :: os) = o ++ os.flatMap fun o => ',' :: ' ' :: o := by
  induction os generalizing o with
  | nil => simp
  | cons p os ih => simp [List.intercalate_cons_cons, ih]

theorem Instr.toList_text (i : Instr) :
    i.text.toList = i.mnemonic.toList ++ spread (i.operands.map String.toList) := by
  unfold Instr.text
  cases hOperands : i.operands with
  | nil => simp [spread]
  | cons o os =>
    have hBlank : " ".toList = [' '] := rfl
    have hComma : ", ".toList = [',', ' '] := rfl
    simp only [List.isEmpty_cons, Bool.false_eq_true, if_false, String.toList_append,
      String.toList_intercalate, List.map_cons, hBlank, hComma, intercalate_cons, spread,
      List.append_assoc, List.singleton_append]

namespace Machine

section

variable {i : Instr} (h : i.Tidy)

include h

theorem plain_words : ∀ o ∈ i.operands.map String.toList, Plain o := by
  intro o ho
  obtain ⟨p, hp, rfl⟩ := List.mem_map.mp ho
  exact Instr.plain_operands h p hp

theorem solid_text : Solid i.text.toList := by
  rw [Instr.toList_text]
  exact solid_words i.plain_mnemonic (plain_words h)

/-- An instruction is read back from its text. -/
theorem readStatement_text : readStatement i.text.toList = ⟨i.mnemonic, i.operands⟩ := by
  rw [Instr.toList_text, readStatement_words i.plain_mnemonic (plain_words h)]
  simp [Function.comp_def]

/-- An instruction is taken neither for a label nor for a data word. -/
theorem text_is_code :
    i.text.toList.getLast? ≠ some ':' ∧ ['d', 'w'].isPrefixOf i.text.toList = false := by
  rw [Instr.toList_text]
  constructor
  · obtain ⟨c, hc, hPlain⟩ := getLast?_words i.plain_mnemonic (plain_words h)
    rw [hc]
    rintro ⟨⟩
    exact absurd hPlain (by decide)
  · cases i <;> simp [Instr.mnemonic, List.isPrefixOf]

theorem not_mem_text {c : Char} (hc : isPlainChar c = false) (hBlank : c ≠ ' ')
    (hComma : c ≠ ',') : c ∉ i.text.toList := by
  rw [Instr.toList_text]
  exact not_mem_words i.plain_mnemonic (plain_words h) hc hBlank hComma

/-- Blanks may stand after the instruction, and then nothing or a comment. -/
theorem readItem?_instr {blanks rest : List Char} (hBlank : ∀ c ∈ blanks, c = ' ')
    (hRest : rest = [] ∨ ∃ note, rest = ';' :: note) :
    readItem? (i.text.toList ++ blanks ++ rest) = some (.code ⟨i.mnemonic, i.operands⟩) := by
  have hBody : ∀ c ∈ i.text.toList ++ blanks, decide (c ≠ ';') = true := by
    intro c hc
    rcases List.mem_append.mp hc with hc | hc
    · have hNe : c ≠ ';' := by
        rintro rfl
        exact not_mem_text h (by decide) (by decide) (by decide) hc
      simp [hNe]
    · rw [hBlank c hc]
      decide
  have hTake : (i.text.toList ++ blanks ++ rest).takeWhile (· ≠ ';') =
      i.text.toList ++ blanks := by
    rw [List.takeWhile_append_of_pos hBody]
    rcases hRest with rfl | ⟨note, rfl⟩ <;> simp
  have hTrim : trim (i.text.toList ++ blanks) = i.text.toList := by
    refine (solid_text h).trim (a := []) (by simp) fun c hc => ?_
    rw [hBlank c hc]
    decide
  obtain ⟨hColon, hWord⟩ := text_is_code h
  simp only [readItem?, hTake, hTrim, (solid_text h).ne_nil, hColon, hWord,
    readStatement_text h, if_false, Bool.false_eq_true]

end

theorem readItem?_label {l : Label} (h : l.Tidy) :
    readItem? (l.text.toList ++ [':']) = some (.label l.text) := by
  have hPlain := Label.plain_text h
  have hTake : (l.text.toList ++ [':']).takeWhile (· ≠ ';') = l.text.toList ++ [':'] := by
    refine takeWhile_eq_self fun c hc => ?_
    have hNe : c ≠ ';' := by
      rintro rfl
      rcases List.mem_append.mp hc with hc | hc
      · exact hPlain.not_mem (by decide) hc
      · simp at hc
    simp [hNe]
  have hSolid : Solid (l.text.toList ++ [':']) := by
    obtain ⟨⟨first, hFirst, hFirst'⟩, -⟩ := hPlain.solid
    exact ⟨⟨first, by simp [List.head?_append, hFirst], hFirst'⟩, ':', by simp, by decide⟩
  have hTrim : trim (l.text.toList ++ [':']) = l.text.toList ++ [':'] := by
    simpa using hSolid.trim (a := []) (b := []) (by simp) (by simp)
  have hTrimName : trim l.text.toList = l.text.toList := by
    simpa using hPlain.solid.trim (a := []) (b := []) (by simp) (by simp)
  simp only [readItem?, hTake, hTrim]
  simp [hTrimName]

end Machine

/-! ### Listings -/

namespace Line

/-- Names are identifiers, and remarks and notes do not run over the end of the line. -/
def Tidy : Line → Prop
  | blank | word => True
  | remark text => '\n' ∉ text.toList
  | label l => l.Tidy
  | instr i note => i.Tidy ∧ ∀ text, note = some text → '\n' ∉ text.toList

def item? : Line → Option Machine.Item
  | blank | remark _ => none
  | label l => some (.label l.text)
  | instr i _ => some (.code ⟨i.mnemonic, i.operands⟩)
  | word => some .word

theorem toList_text_noted (i : Instr) (note : String) :
    (noted i note).text.toList =
      i.text.toList ++ List.replicate (noteColumn - i.text.length) ' ' ++
        ';' :: ' ' :: note.toList := by
  simp [noted, Line.text, padRight]

/-- A tidy line is read as what it stands for. Remarks and blank lines stand for nothing. -/
theorem readItem?_text {line : Line} (h : line.Tidy) :
    Machine.readItem? line.text.toList = line.item? := by
  cases line with
  | blank => rfl
  | word => decide
  | remark text =>
    have hText : (remark text).text.toList = ';' :: ';' :: ' ' :: text.toList := by
      simp [Line.text]
    rw [hText]
    rfl
  | label l =>
    have hText : (label l).text.toList = l.text.toList ++ [':'] := by simp [Line.text]
    rw [hText, Machine.readItem?_label h]
    rfl
  | instr i note =>
    cases note with
    | none =>
      have hBare : ([] : List Char) = [] ∨ ∃ note, [] = ';' :: note := .inl rfl
      have hRead := Machine.readItem?_instr h.1 (fun c hc => absurd hc List.not_mem_nil) hBare
      simpa [Line.text, item?] using hRead
    | some note =>
      refine (congrArg _ (toList_text_noted i note)).trans ?_
      refine Machine.readItem?_instr h.1 ?_ (.inr ⟨_, rfl⟩)
      intro c hc
      exact List.eq_of_mem_replicate hc

/-- A tidy line is one line. -/
theorem newline_not_mem_text {line : Line} (h : line.Tidy) : '\n' ∉ line.text.toList := by
  cases line with
  | blank => decide
  | word => decide
  | remark text => simpa [Line.text, Tidy] using h
  | label l =>
    have hName := (Label.plain_text h).not_mem (c := '\n') (by decide)
    simpa [Line.text] using hName
  | instr i note =>
    have hInstr := Machine.not_mem_text h.1 (c := '\n') (by decide) (by decide) (by decide)
    cases note with
    | none => exact hInstr
    | some note =>
      have hNote := h.2 note rfl
      have hText := toList_text_noted i note
      rw [noted] at hText
      rw [hText]
      simp [hInstr, hNote]

end Line

section

variable {lines : List Line}

/-- The listing is split into its own lines, and an empty one behind the last. -/
theorem splitLines_listingText (h : ∀ line ∈ lines, line.Tidy) :
    splitLines (listingText lines).toList = lines.map (·.text.toList) ++ [[]] := by
  induction lines with
  | nil => rfl
  | cons line lines ih =>
    have hLine := Line.newline_not_mem_text (h line (by simp))
    have hRest := ih fun l hl => h l (List.mem_cons_of_mem line hl)
    have hText : (listingText (line :: lines)).toList =
        line.text.toList ++ '\n' :: (listingText lines).toList := by
      simp [listingText]
    rw [splitLines] at hRest ⊢
    rw [hText, splitAtChar_append hLine, hRest]
    rfl

theorem filterMap_readItem?_text (h : ∀ line ∈ lines, line.Tidy) :
    (lines.map (·.text.toList)).filterMap Machine.readItem? = lines.filterMap Line.item? := by
  induction lines with
  | nil => rfl
  | cons line lines ih =>
    have hLine := Line.readItem?_text (h line (by simp))
    have hRest := ih fun l hl => h l (List.mem_cons_of_mem line hl)
    simp only [List.map_cons, List.filterMap_cons, hLine, hRest]

/-- Reading the text of a listing gives the items of its lines. -/
theorem readItems_listingText (h : ∀ line ∈ lines, line.Tidy) :
    Machine.readItems (listingText lines) = lines.filterMap Line.item? := by
  have hEnd : [([] : List Char)].filterMap Machine.readItem? = [] := rfl
  rw [Machine.readItems, splitLines_listingText h, List.filterMap_append, hEnd, List.append_nil,
    filterMap_readItem?_text h]

end

end ChipPascal
