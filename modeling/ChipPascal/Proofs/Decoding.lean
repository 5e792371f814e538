import ChipPascal.Proofs.ListingText

/-!
# Decoding what was written

Numerals are read as the numbers they stand for, and each instruction, written in words and read
again, is the operation that it was meant to be.
-/

namespace ChipPascal

/-! ### Numerals -/

namespace Numeral

theorem digit?_of_isDigit {c : Char} (h : c.isDigit = true) :
    digit? 10 c = some (c.toNat - '0'.toNat) := by
  have hBounds : '0' ≤ c ∧ c ≤ '9' := by
    simpa [Char.isDigit, Char.le_def, UInt32.le_iff_toNat_le] using h
  have hNat : c.toNat ≤ 57 := by
    have := (Char.isDigit_iff_toNat.mp h).2
    exact this
  have hLt : c.toNat - '0'.toNat < 10 := by
    show c.toNat - 48 < 10
    omega
  simp only [digit?, hBounds, and_self, if_true, hLt]

theorem le_ofDigitChars (cs : List Char) (acc : Nat) : acc ≤ Nat.ofDigitChars 10 cs acc := by
  induction cs generalizing acc with
  | nil => simp
  | cons c cs ih =>
    rw [Nat.ofDigitChars_cons]
    have := ih (10 * acc + (c.toNat - '0'.toNat))
    omega

theorem readDigits_of_isDigit {cs : List Char} {limit acc : Nat}
    (hDigits : ∀ c ∈ cs, c.isDigit = true) (hLimit : Nat.ofDigitChars 10 cs acc ≤ limit) :
    readDigits 10 limit acc cs = .ok (Nat.ofDigitChars 10 cs acc) := by
  induction cs generalizing acc with
  | nil => simp [readDigits]
  | cons c cs ih =>
    rw [Nat.ofDigitChars_cons] at hLimit ⊢
    have hStep := le_ofDigitChars cs (10 * acc + (c.toNat - '0'.toNat))
    have hNow : acc * 10 + (c.toNat - '0'.toNat) ≤ limit := by
      rw [Nat.mul_comm acc 10]
      omega
    simp only [readDigits, digit?_of_isDigit (hDigits c (by simp)), hNow, if_true]
    rw [Nat.mul_comm acc 10]
    exact ih (fun d hd => hDigits d (List.mem_cons_of_mem c hd)) hLimit

theorem digit?_ten {c : Char} {d : Nat} (h : digit? 10 c = some d) :
    d = c.toNat - '0'.toNat := by
  simp only [digit?] at h
  split at h
  · split at h
    · exact (Option.some.inj h).symm
    · simp at h
  · split at h
    · split at h
      · omega
      · simp at h
    · split at h
      · split at h
        · omega
        · simp at h
      · simp at h

/-- What is read from decimal digits is the number they write, and within the limit. -/
theorem readDigits_eq {cs : List Char} {limit acc n : Nat}
    (h : readDigits 10 limit acc cs = .ok n) :
    n = Nat.ofDigitChars 10 cs acc ∧ (acc ≤ limit → n ≤ limit) := by
  induction cs generalizing acc with
  | nil =>
    simp only [readDigits, Except.ok.injEq] at h
    subst h
    exact ⟨by simp, id⟩
  | cons c cs ih =>
    simp only [readDigits] at h
    split at h
    · simp at h
    · next d hd =>
      split at h
      · next hLimit =>
        obtain ⟨hValue, hLe⟩ := ih h
        rw [Nat.ofDigitChars_cons, hValue, digit?_ten hd, Nat.mul_comm acc 10]
        refine ⟨rfl, fun _ => ?_⟩
        rw [← digit?_ten hd, Nat.mul_comm 10 acc, ← hValue]
        exact hLe hLimit
      · simp at h

/-- A numeral that is read without an error is worth what its digits say. -/
theorem read_eq {cs : List Char} {limit n : Nat} (h : read 10 limit cs = .ok n) :
    n = Nat.ofDigitChars 10 cs 0 ∧ n ≤ limit := by
  unfold read at h
  split at h
  · simp at h
  · simp at h
  · next cs _ =>
    obtain ⟨hValue, hLe⟩ := readDigits_eq h
    refine ⟨?_, hLe (Nat.zero_le limit)⟩
    rw [Nat.ofDigitChars_cons]
    exact hValue
  · obtain ⟨hValue, hLe⟩ := readDigits_eq h
    exact ⟨hValue, hLe (Nat.zero_le limit)⟩

theorem read_of_ne_plus {radix limit : Nat} {c : Char} (h : c ≠ '+') (cs : List Char) :
    read radix limit (c :: cs) = readDigits radix limit 0 (c :: cs) := by
  unfold read
  split <;> simp_all

end Numeral

/-! ### Operands -/

theorem Reg.toList_text (x : Reg) : x.text.toList = ['v', hexDigit x.val] := by
  have hDigits : Nat.toDigits 16 x.val = [x.val.digitChar] := Nat.toDigits_of_lt_base x.isLt
  simp [Reg.text, hexUpper, hDigits, hexDigit]

theorem hexDigit_facts {d : Nat} (h : d < 16) :
    Numeral.digit? 16 (hexDigit d) = some d ∧ (hexDigit d).utf8Size = 1 ∧ hexDigit d ≠ '+' := by
  have hAll : ∀ d < 16, Numeral.digit? 16 (hexDigit d) = some d ∧
      (hexDigit d).utf8Size = 1 ∧ hexDigit d ≠ '+' := by decide
  exact hAll d h

namespace Machine

theorem readRegister_text (x : Reg) : readRegister x.text = .ok x := by
  obtain ⟨hDigit, hSize, -⟩ := hexDigit_facts x.isLt
  have hFin : Reg.ofDigit x.val = x := Fin.ofNat_val_eq_self x
  simp [readRegister, Reg.toList_text, hDigit, hSize, hFin]

theorem looksLikeRegister_text (x : Reg) : looksLikeRegister x.text = true := by
  obtain ⟨-, hSize, -⟩ := hexDigit_facts x.isLt
  simp [looksLikeRegister, Reg.toList_text, hSize]

/-- No immediate is mistaken for a register. -/
theorem looksLikeRegister_immediate (k : UInt8) : looksLikeRegister (immediate k) = false := by
  simp [looksLikeRegister, toList_immediate]

theorem readByte_immediate (k : UInt8) : readByte (immediate k) = .ok k := by
  have hLt : k.toNat < 256 := k.toNat_lt
  obtain ⟨hHigh, -, hPlus⟩ := hexDigit_facts (d := k.toNat / 16) (by omega)
  obtain ⟨hLow, -, -⟩ := hexDigit_facts (d := k.toNat % 16) (by omega)
  have hValue : Numeral.read 16 255 [hexDigit (k.toNat / 16), hexDigit (k.toNat % 16)] =
      .ok k.toNat := by
    rw [Numeral.read_of_ne_plus hPlus]
    have hFirst : 0 * 16 + k.toNat / 16 ≤ 255 := by omega
    have hBoth : (0 * 16 + k.toNat / 16) * 16 + k.toNat % 16 = k.toNat := by omega
    have hLimit : k.toNat ≤ 255 := by omega
    simp only [Numeral.readDigits, hHigh, hLow, hFirst, if_true, hBoth, hLimit]
  simp [readByte, toList_immediate, hValue]

theorem readByte_decimal (k : UInt8) : readByte (toString k.toNat) = .ok k := by
  have hChars : (toString k.toNat).toList = Nat.toDigits 10 k.toNat := by simp
  have hDigits : ∀ c ∈ Nat.toDigits 10 k.toNat, c.isDigit = true := fun c hc =>
    Nat.isDigit_of_mem_toDigits (by decide) (by decide) hc
  have hNat : Nat.ofDigitChars 10 (Nat.toDigits 10 k.toNat) 0 = k.toNat := by simp
  have hLimit : k.toNat ≤ 255 := Nat.le_of_lt_succ k.toNat_lt
  have hRead : Numeral.read 10 255 (Nat.toDigits 10 k.toNat) = .ok k.toNat := by
    have hAll : Numeral.readDigits 10 255 0 (Nat.toDigits 10 k.toNat) = .ok k.toNat := by
      rw [Numeral.readDigits_of_isDigit hDigits (hNat.symm ▸ hLimit), hNat]
    cases hList : Nat.toDigits 10 k.toNat with
    | nil => exact absurd hList Nat.toDigits_ne_nil
    | cons c cs =>
      have hPlus : c ≠ '+' := by
        rintro rfl
        exact absurd (hDigits '+' (by simp [hList])) (by decide)
      rw [Numeral.read_of_ne_plus hPlus, ← hList]
      exact hAll
  have hPlain : ∀ rest, Nat.toDigits 10 k.toNat ≠ '0' :: 'x' :: rest := by
    intro rest hList
    exact absurd (hDigits 'x' (by simp [hList])) (by decide)
  unfold readByte
  rw [hChars]
  split
  · next rest hList => exact absurd hList (hPlain rest)
  · simp [hRead]

theorem bracketed?_bracketed (l : Label) : bracketed? l.bracketed = some l.text := by
  have hLast : (l.text.toList ++ [']']).getLast? = some ']' := by simp
  have hName : String.ofList (l.text.toList ++ [']']).dropLast = l.text := by simp
  simp only [bracketed?, Label.toList_bracketed, List.cons_append, hLast, if_true, hName]

theorem bracketed?_decimal (n : Nat) : bracketed? (toString n) = none := by
  have hChars : (toString n).toList = Nat.toDigits 10 n := by simp
  unfold bracketed?
  rw [hChars]
  split
  · next rest hList =>
    have hMem : '[' ∈ Nat.toDigits 10 n := by simp [hList]
    exact absurd (Nat.isDigit_of_mem_toDigits (by decide) (by decide) hMem) (by decide)
  · rfl

/-- A label in brackets is read as its address. -/
theorem readAddress_bracketed {labels : Labels} {l : Label} {a : UInt16}
    (h : labels.get? l.text = some a) : readAddress labels l.bracketed = .ok a := by
  simp [readAddress, bracketed?_bracketed, h]

theorem readAddress_decimal (labels : Labels) (k : UInt8) :
    readAddress labels (toString k.toNat) = .ok k.toUInt16 := by
  simp only [readAddress, bracketed?_decimal, readByte_decimal]
  rfl

end Machine

/-! ### Instructions -/

open Machine

def Instr.op (addr : Label → UInt16) : Instr → Op
  | set x k => .set x k
  | copy x y => .copy x y
  | indexByte k => .index k.toUInt16
  | index l => .index (addr l)
  | save x => .save x
  | load x => .load x
  | decimal x => .decimal x
  | glyph x => .glyph x
  | addIndex x => .addIndex x
  | add x y => .add x y
  | addByte x k => .addByte x k
  | sub x y => .sub x y
  | xor x y => .xor x y
  | or x y => .or x y
  | skipNe x k => .skipNeByte x k
  | jump l => .jump (addr l)
  | call l => .call (addr l)
  | ret => .ret
  | cls | breakpoint | draw .. => .outside

theorem Reg.text_ne (x : Reg) :
    x.text ≠ "I" ∧ x.text ≠ "[I]" ∧ x.text ≠ "B" ∧ x.text ≠ "F" := by
  refine ⟨?_, ?_, ?_, ?_⟩ <;>
  · intro h
    have := congrArg String.toList h
    simp [Reg.toList_text] at this

theorem immediate_ne (k : UInt8) : immediate k ≠ "[I]" := by
  intro h
  have := congrArg String.toList h
  simp [toList_immediate] at this

theorem readOperand_text (x : Reg) : readOperand x.text = .ok (.reg x) := by
  simp only [readOperand, looksLikeRegister_text, readRegister_text, if_true]
  rfl

theorem readOperand_immediate (k : UInt8) : readOperand (immediate k) = .ok (.byte k) := by
  simp only [readOperand, looksLikeRegister_immediate, readByte_immediate, Bool.false_eq_true,
    if_false]
  rfl

/-- An instruction is decoded as what it means, if its label is known. -/
theorem decode_instr {labels : Labels} {addr : Label → UInt16} {i : Instr}
    (h : ∀ l, i.target? = some l → labels.get? l.text = some (addr l)) :
    decode labels ⟨i.mnemonic, i.operands⟩ = .ok (i.op addr) := by
  cases i with
  | index l | jump l | call l =>
    simp only [Instr.mnemonic, Instr.operands, decode, readAddress_bracketed (h l rfl)]
    rfl
  | indexByte k =>
    simp only [Instr.mnemonic, Instr.operands, decode, readAddress_decimal]
    rfl
  | ret | cls | breakpoint => rfl
  | draw x y rows => simp only [Instr.mnemonic, Instr.operands, decode, Instr.op]
  | set x k =>
    -- the first operand is a register's name, so no other form of `ld` fits
    obtain ⟨hI, hAtI, hB, hF⟩ := x.text_ne
    have hk := immediate_ne k
    simp only [Instr.mnemonic, Instr.operands, decode, readOperand_immediate, readRegister_text]
    rfl
  | copy x y =>
    obtain ⟨hI, hAtI, hB, hF⟩ := x.text_ne
    have hy := y.text_ne.2.1
    simp only [Instr.mnemonic, Instr.operands, decode, readOperand_text, readRegister_text]
    rfl
  | load x =>
    obtain ⟨hI, hAtI, hB, hF⟩ := x.text_ne
    simp only [Instr.mnemonic, Instr.operands, decode, readRegister_text]
    rfl
  | add x y =>
    have hI := x.text_ne.1
    simp only [Instr.mnemonic, Instr.operands, decode, readOperand_text, readRegister_text]
    rfl
  | addByte x k =>
    have hI := x.text_ne.1
    simp only [Instr.mnemonic, Instr.operands, decode, readOperand_immediate, readRegister_text]
    rfl
  | _ =>
    simp only [Instr.mnemonic, Instr.operands, decode, readTwo, readOperand_immediate,
      readRegister_text]
    rfl

end ChipPascal
