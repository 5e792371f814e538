import ChipPascal.Proofs.Execution

/-!
# Straight-line code, instruction by instruction

Registers and memory are seen through `reg` and `byte`. Each instruction that goes on to
the next one has a rule that carries it out at the head of a list of lines; where it touches memory,
the rule asks that the memory is there.
-/

namespace ChipPascal

namespace Machine.State

/-! ### Views and updates -/

/-- The byte at an address; there is nothing beyond the memory. -/
def byte (s : State) (a : Nat) : UInt8 := s.memory[a]?.getD 0

def setIndex (s : State) (a : UInt16) : State := { s with index := a }

def poke (s : State) (a : Nat) (b : UInt8) : State :=
  { s with memory := s.memory.setIfInBounds a b }

section

variable (s : State) (x y : Reg) (b : UInt8) (i : UInt16) (a c : Nat)

@[simp] theorem reg_next : s.next.reg x = s.reg x := rfl
@[simp] theorem byte_next : s.next.byte a = s.byte a := rfl
@[simp] theorem index_next : s.next.index = s.index := by cases s; rfl

@[simp] theorem reg_setIndex : (s.setIndex i).reg x = s.reg x := rfl
@[simp] theorem byte_setIndex : (s.setIndex i).byte a = s.byte a := rfl
@[simp] theorem index_setIndex : (s.setIndex i).index = i := by cases s; rfl

@[simp] theorem byte_setReg : (s.setReg x b).byte a = s.byte a := rfl
@[simp] theorem index_setReg : (s.setReg x b).index = s.index := by cases s; rfl

@[simp] theorem reg_poke : (s.poke a b).reg x = s.reg x := rfl
@[simp] theorem index_poke : (s.poke a b).index = s.index := by cases s; rfl

@[simp] theorem reg_setReg : (s.setReg x b).reg y = if y = x then b else s.reg y := by
  by_cases h : y = x
  · subst h
    simp [reg, setReg]
  · have hVal : x.val ≠ y.val := fun hv => h (Fin.ext hv.symm)
    simp [reg, setReg, h, hVal]

/-- A byte that is written is read back, and the others stay as they are. -/
theorem byte_poke (h : a < memorySize) :
    (s.poke a b).byte c = if c = a then b else s.byte c := by
  by_cases hc : c = a
  · subst hc
    simp [byte, poke, h]
  · simp [byte, poke, hc, Ne.symm hc]

end

end Machine.State

open Machine Line

def carry (a b : UInt8) : UInt8 := if 255 < a.toNat + b.toNat then 1 else 0

def noBorrow (a b : UInt8) : UInt8 := if b ≤ a then 1 else 0

/-! ### Rules -/

section

variable {addr : Label → UInt16} {note : Option String} {rest : List Line} {s : State}

@[simp] theorem runLines_nil : runLines addr [] s = some s := rfl

@[simp] theorem runLines_blank : runLines addr (.blank :: rest) s = runLines addr rest s := rfl

@[simp] theorem runLines_set (x : Reg) (k : UInt8) :
    runLines addr (.instr (.set x k) note :: rest) s =
      runLines addr rest (s.next.setReg x k) := rfl

@[simp] theorem runLines_copy (x y : Reg) :
    runLines addr (.instr (.copy x y) note :: rest) s =
      runLines addr rest (s.next.setReg x (s.reg y)) := rfl

@[simp] theorem runLines_indexByte (k : UInt8) :
    runLines addr (.instr (.indexByte k) note :: rest) s =
      runLines addr rest (s.next.setIndex k.toUInt16) := rfl

@[simp] theorem runLines_index (l : Label) :
    runLines addr (.instr (.index l) note :: rest) s =
      runLines addr rest (s.next.setIndex (addr l)) := rfl

@[simp] theorem runLines_addIndex (x : Reg) :
    runLines addr (.instr (.addIndex x) note :: rest) s =
      runLines addr rest (s.next.setIndex (s.index + (s.reg x).toUInt16)) := rfl

@[simp] theorem runLines_glyph (x : Reg) :
    runLines addr (.instr (.glyph x) note :: rest) s =
      runLines addr rest (s.next.setIndex ((s.reg x).toUInt16 * 5)) := rfl

@[simp] theorem runLines_add (x y : Reg) :
    runLines addr (.instr (.add x y) note :: rest) s =
      runLines addr rest ((s.next.setReg x (s.reg x + s.reg y)).setReg .flag
        (carry (s.reg x) (s.reg y))) := rfl

@[simp] theorem runLines_addByte (x : Reg) (k : UInt8) :
    runLines addr (.instr (.addByte x k) note :: rest) s =
      runLines addr rest (s.next.setReg x (s.reg x + k)) := rfl

@[simp] theorem runLines_sub (x y : Reg) :
    runLines addr (.instr (.sub x y) note :: rest) s =
      runLines addr rest ((s.next.setReg x (s.reg x - s.reg y)).setReg .flag
        (noBorrow (s.reg x) (s.reg y))) := rfl

@[simp] theorem runLines_xor (x y : Reg) :
    runLines addr (.instr (.xor x y) note :: rest) s =
      runLines addr rest (s.next.setReg x (s.reg x ^^^ s.reg y)) := rfl

@[simp] theorem runLines_or (x y : Reg) :
    runLines addr (.instr (.or x y) note :: rest) s =
      runLines addr rest (s.next.setReg x (s.reg x ||| s.reg y)) := rfl

@[simp] theorem runLines_cls :
    runLines addr (.instr .cls note :: rest) s = runLines addr rest s.next := rfl

@[simp] theorem runLines_breakpoint :
    runLines addr (.instr .breakpoint note :: rest) s = runLines addr rest s.next := rfl

@[simp] theorem runLines_draw (x y : Reg) (rows : UInt8) :
    runLines addr (.instr (.draw x y rows) note :: rest) s = runLines addr rest s.next := rfl

/-! ### Memory -/

theorem getD_reg (s : State) (x : Reg) : s.v[x.val]?.getD 0 = s.reg x := by
  simp [State.reg, x.isLt]

/-- Saving does not fail if the registers fit in memory behind the index. -/
theorem runLines_save {x : Reg} (h : s.index.toNat + x.val < memorySize) :
    runLines addr (.instr (.save x) note :: rest) s =
      runLines addr rest { s.next with
        memory := writeRegisters s.v s.index.toNat (x.val + 1) s.memory } := by
  simp only [runLines, Instr.isStraight, Instr.op, execute, h, if_true]

theorem runLines_load {x : Reg} (h : s.index.toNat + x.val < memorySize) :
    runLines addr (.instr (.load x) note :: rest) s =
      runLines addr rest { s.next with
        v := readRegisters s.memory s.index.toNat (x.val + 1) s.v } := by
  simp only [runLines, Instr.isStraight, Instr.op, execute, h, if_true]

theorem runLines_save_low (h : s.index.toNat < memorySize) :
    runLines addr (.instr (.save .loadLow) note :: rest) s =
      runLines addr rest (s.next.poke s.index.toNat (s.reg .loadLow)) := by
  have hFits : s.index.toNat + Reg.loadLow.val < memorySize := h
  rw [runLines_save hFits, ← getD_reg]
  rfl

theorem runLines_save_high (h : s.index.toNat + 1 < memorySize) :
    runLines addr (.instr (.save .loadHigh) note :: rest) s =
      runLines addr rest ((s.next.poke s.index.toNat (s.reg .loadLow)).poke (s.index.toNat + 1)
        (s.reg .loadHigh)) := by
  rw [runLines_save h, ← getD_reg, ← getD_reg]
  rfl

theorem setIfInBounds_eq_setReg (s : State) (x : Reg) (b : UInt8) :
    { s with v := s.v.setIfInBounds x.val b } = s.setReg x b := by
  simp [State.setReg, Vector.setIfInBounds, Vector.set, Array.setIfInBounds, x.isLt]

theorem runLines_load_low (h : s.index.toNat < memorySize) :
    runLines addr (.instr (.load .loadLow) note :: rest) s =
      runLines addr rest (s.next.setReg .loadLow (s.byte s.index.toNat)) := by
  have hFits : s.index.toNat + Reg.loadLow.val < memorySize := h
  rw [runLines_load hFits, ← setIfInBounds_eq_setReg]
  rfl

theorem runLines_load_high (h : s.index.toNat + 1 < memorySize) :
    runLines addr (.instr (.load .loadHigh) note :: rest) s =
      runLines addr rest ((s.next.setReg .loadLow (s.byte s.index.toNat)).setReg .loadHigh
        (s.byte (s.index.toNat + 1))) := by
  have hFits : s.index.toNat + Reg.loadHigh.val < memorySize := h
  rw [runLines_load hFits, ← setIfInBounds_eq_setReg, ← setIfInBounds_eq_setReg]
  rfl

theorem runLines_load_three (h : s.index.toNat + 2 < memorySize) :
    runLines addr (.instr (.load .accLow) note :: rest) s =
      runLines addr rest (((s.next.setReg .loadLow (s.byte s.index.toNat)).setReg .loadHigh
        (s.byte (s.index.toNat + 1))).setReg .accLow (s.byte (s.index.toNat + 2))) := by
  have hFits : s.index.toNat + Reg.accLow.val < memorySize := h
  rw [runLines_load hFits, ← setIfInBounds_eq_setReg, ← setIfInBounds_eq_setReg,
    ← setIfInBounds_eq_setReg]
  rfl

theorem runLines_decimal {x : Reg} (h : s.index.toNat + 2 < memorySize) :
    runLines addr (.instr (.decimal x) note :: rest) s =
      runLines addr rest (((s.next.poke s.index.toNat (s.reg x / 100)).poke (s.index.toNat + 1)
        (s.reg x / 10 % 10)).poke (s.index.toNat + 2) (s.reg x % 10)) := by
  simp only [runLines, Instr.isStraight, Instr.op, execute, h, if_true]
  rfl

end

end ChipPascal
