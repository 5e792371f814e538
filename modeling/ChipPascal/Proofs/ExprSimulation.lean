import ChipPascal.Proofs.Code
import ChipPascal.Proofs.StraightLine

/-!
# Expressions compute their values

The code of an expression leaves the value of the expression in the accumulator, cut to one or two
bytes. It leaves the stack pointer, the frame and all memory below the stack pointer alone.
-/

namespace ChipPascal

open Machine Line
open Lowering hiding State

/-! ### Bytes as numbers -/

def word (low high : UInt8) : Nat := low.toNat + 256 * high.toNat

/-- Two integers are the same in one or in two bytes. -/
def Cong (wide : Bool) (a b : Int) : Prop :=
  if wide then a % 65536 = b % 65536 else a % 256 = b % 256

theorem Cong.refl (wide : Bool) (a : Int) : Cong wide a a := by
  cases wide <;> rfl

theorem Cong.neg {wide : Bool} {a b : Int} (h : Cong wide a b) : Cong wide (-a) (-b) := by
  cases wide <;> simp only [Cong, if_true, if_false, Bool.false_eq_true] at h ⊢ <;> omega

theorem Cong.trans {wide : Bool} {a b c : Int} (h : Cong wide a b) (h' : Cong wide b c) :
    Cong wide a c := by
  cases wide <;> exact Eq.trans h h'

theorem toNat_carry (a b : UInt8) : (carry a b).toNat = (a.toNat + b.toNat) / 256 := by
  have ha : a.toNat < 256 := a.toNat_lt
  have hb : b.toNat < 256 := b.toNat_lt
  unfold carry
  split
  · show 1 = _
    omega
  · show 0 = _
    omega

theorem toNat_noBorrow (a b : UInt8) :
    (noBorrow a b).toNat = (256 + a.toNat - b.toNat) / 256 := by
  have ha : a.toNat < 256 := a.toNat_lt
  have hb : b.toNat < 256 := b.toNat_lt
  unfold noBorrow
  split
  · next h =>
    have hNat : b.toNat ≤ a.toNat := UInt8.le_iff_toNat_le.mp h
    show 1 = _
    omega
  · next h =>
    have hNat : ¬ b.toNat ≤ a.toNat := fun h' => h (UInt8.le_iff_toNat_le.mpr h')
    show 0 = _
    omega

theorem toNat_sub_byte (a b : UInt8) : (a - b).toNat = (256 + a.toNat - b.toNat) % 256 := by
  have hb : b.toNat < 256 := b.toNat_lt
  rw [UInt8.toNat_sub]
  show (256 - b.toNat + a.toNat) % 256 = _
  omega

theorem toNat_not_byte (a : UInt8) : (~~~a).toNat = 255 - a.toNat := UInt8.toNat_not a

theorem xor_ones (a : UInt8) : a ^^^ 0xFF = ~~~a := UInt8.xor_neg_one

/-- Adding the complement subtracts, but for one. -/
theorem add_not (a k : UInt8) : a + ~~~k = a + 0xFF - k := by
  have hk : k.toNat < 256 := k.toNat_lt
  have hOnes : (0xFF : UInt8).toNat = 255 := rfl
  apply UInt8.toNat_inj.mp
  simp only [UInt8.toNat_add, toNat_sub_byte, toNat_not_byte, hOnes]
  omega

theorem cong_low (a h k : UInt8) : Cong false (word a h) (word a k) := by
  simp only [Cong, word, Bool.false_eq_true, if_false]
  omega

theorem cong_add_low (a h b k m : UInt8) :
    Cong false (word (a + b) m) (word a h + word b k) := by
  simp only [Cong, word, UInt8.toNat_add, Bool.false_eq_true, if_false]
  omega

theorem cong_sub_low (a h b k m : UInt8) :
    Cong false (word (a - b) m) (word a h - word b k) := by
  have hb : b.toNat < 256 := b.toNat_lt
  simp only [Cong, word, toNat_sub_byte, Bool.false_eq_true, if_false]
  omega

/-- Addition in two bytes, the carry added to the high half first. -/
theorem cong_add_word (a h b k : UInt8) :
    Cong true (word (a + b) (h + carry a b + k)) (word a h + word b k) := by
  simp only [Cong, word, UInt8.toNat_add, toNat_carry, if_true]
  omega

/-- Subtraction in two bytes: the high half loses one unless the low half did not borrow. -/
theorem cong_sub_word (a h b k : UInt8) :
    Cong true (word (a - b) (h + noBorrow a b + 0xFF - k)) (word a h - word b k) := by
  have ha : a.toNat < 256 := a.toNat_lt
  have hb : b.toNat < 256 := b.toNat_lt
  have hk : k.toNat < 256 := k.toNat_lt
  have hOnes : (0xFF : UInt8).toNat = 255 := rfl
  simp only [Cong, word, UInt8.toNat_add, toNat_sub_byte, toNat_noBorrow, hOnes, if_true]
  omega

theorem cong_neg_low (a h m : UInt8) : Cong false (word (~~~a + 1) m) (-word a h) := by
  have ha : a.toNat < 256 := a.toNat_lt
  have hOne : (1 : UInt8).toNat = 1 := rfl
  simp only [Cong, word, UInt8.toNat_add, toNat_not_byte, hOne, Bool.false_eq_true, if_false]
  omega

theorem cong_neg_word (a h : UInt8) :
    Cong true (word (~~~a + 1) (~~~h + carry (~~~a) 1)) (-word a h) := by
  have ha : a.toNat < 256 := a.toNat_lt
  have hh : h.toNat < 256 := h.toNat_lt
  have hOne : (1 : UInt8).toNat = 1 := rfl
  simp only [Cong, word, UInt8.toNat_add, toNat_carry, toNat_not_byte, hOne, if_true]
  omega

/-! ### Values in registers and memory -/

namespace Machine.State

def valueAt (s : State) (a : Nat) (isWide : Bool) : Nat :=
  word (s.byte a) (if isWide then s.byte (a + 1) else 0)

def acc (s : State) (wide : Bool) : Nat :=
  word (s.reg .accLow) (if wide then s.reg .accHigh else 0)

end Machine.State

def Lowering.Mode.combine (mode : Mode) (old value : Int) : Int :=
  match mode with
  | .load => value
  | .add => old + value
  | .sub => old - value

/-- The stack is as high as before, and the bytes at the addresses in `P` are the same. -/
structure Spares (P : Nat → Prop) (s t : State) : Prop where
  stack : t.reg .stack = s.reg .stack
  ones : t.reg .ones = s.reg .ones
  byte : ∀ a, P a → t.byte a = s.byte a

abbrev Everywhere : Nat → Prop := fun _ => True

namespace Spares

variable {P Q : Nat → Prop} {s t u : State}

theorem iff : Spares P s t ↔ t.reg .stack = s.reg .stack ∧ t.reg .ones = s.reg .ones ∧
    ∀ a, P a → t.byte a = s.byte a :=
  ⟨fun h => ⟨h.stack, h.ones, h.byte⟩, fun h => ⟨h.1, h.2.1, h.2.2⟩⟩

theorem trans (h : Spares P s t) (h' : Spares P t u) : Spares P s u :=
  ⟨h'.stack.trans h.stack, h'.ones.trans h.ones,
    fun a ha => (h'.byte a ha).trans (h.byte a ha)⟩

theorem mono (h : Spares P s t) (hQ : ∀ a, Q a → P a) : Spares Q s t :=
  ⟨h.stack, h.ones, fun a ha => h.byte a (hQ a ha)⟩

theorem of_everywhere (h : Spares Everywhere s t) : Spares P s t := h.mono fun _ _ => trivial

end Spares

section

variable (addr : Label → UInt16) (mode : Mode) (wide : Bool) {s : State}

/-- Reading a variable takes the accumulator on by its value. A short one is widened with zero. -/
theorem run_readVar (isWide : Bool) (h : s.index.toNat + 1 < memorySize) :
    ∃ t, runLines addr (readVar mode wide isWide) s = some t ∧ Spares Everywhere s t ∧
      t.reg .base = s.reg .base ∧
      Cong wide (t.acc wide) (mode.combine (s.acc wide) (s.valueAt s.index.toNat isWide)) := by
  have hLow : s.index.toNat < memorySize := Nat.lt_of_succ_lt h
  cases mode <;> cases wide <;> cases isWide <;>
    simp +decide [readVar, readVarHigh, Mode.instr, runLines_load_low hLow, runLines_load_high h,
      Spares.iff, State.acc, State.valueAt, Mode.combine]
  · exact Cong.refl _ _
  · exact cong_low _ _ _
  · exact Cong.refl _ _
  · exact Cong.refl _ _
  · exact cong_add_low _ _ _ _ _
  · exact cong_add_low _ _ _ _ _
  · simpa using cong_add_word (s.reg .accLow) (s.reg .accHigh) (s.byte s.index.toNat) 0
  · exact cong_add_word _ _ _ _
  · exact cong_sub_low _ _ _ _ _
  · exact cong_sub_low _ _ _ _ _
  · simpa using cong_sub_word (s.reg .accLow) (s.reg .accHigh) (s.byte s.index.toNat) 0
  · exact cong_sub_word _ _ _ _

theorem word_halves (n : UInt16) : word n.toUInt8 (n >>> 8).toUInt8 = n.toNat := by
  have h : n.toNat < 65536 := n.toNat_lt
  simp only [word, UInt16.toNat_toUInt8, UInt16.toNat_shiftRight]
  simp [Nat.shiftRight_eq_div_pow]
  omega

theorem run_literal (n : UInt16) :
    ∃ t, runLines addr (literal mode wide n) s = some t ∧ Spares Everywhere s t ∧
      t.reg .base = s.reg .base ∧
      Cong wide (t.acc wide) (mode.combine (s.acc wide) n.toNat) := by
  rw [← word_halves n]
  cases mode <;> cases wide <;>
    simp +decide [literal, Spares.iff, State.acc, Mode.combine]
  · exact cong_low _ _ _
  · exact Cong.refl _ _
  · exact cong_add_low _ _ _ _ _
  · exact cong_add_word _ _ _ _
  · rw [← UInt8.sub_eq_add_neg]
    exact cong_sub_low _ _ _ _ _
  · rw [add_not]
    exact cong_sub_word _ _ _ _

/-- The accumulator is negated with the register that is all ones. -/
theorem run_negate (h : s.reg .ones = 0xFF) :
    ∃ t, runLines addr (negate wide) s = some t ∧ Spares Everywhere s t ∧
      t.reg .base = s.reg .base ∧ Cong wide (t.acc wide) (-s.acc wide) := by
  cases wide <;> simp +decide [negate, Spares.iff, h, xor_ones, State.acc]
  · exact cong_neg_low _ _ _
  · exact cong_neg_word _ _

end

/-! ### The stack -/

def zone (addr : Label → UInt16) : Nat := (addr .stackZone).toNat

/-- There is room for as many bytes as the stack pointer can count. -/
def HasRoom (addr : Label → UInt16) : Prop := zone addr + 256 ≤ 0xFFF

section

variable {addr : Label → UInt16} {wide : Bool} {s : State}

theorem zone_succ_lt (h : HasRoom addr) (x : UInt8) :
    zone addr + x.toNat + 1 < memorySize := by
  have hx : x.toNat < 256 := x.toNat_lt
  have hSize : memorySize = 0x1000 := rfl
  unfold HasRoom at h
  omega

theorem zone_lt (h : HasRoom addr) (x : UInt8) : zone addr + x.toNat < memorySize :=
  Nat.lt_of_succ_lt (zone_succ_lt h x)

theorem toNat_zone_add_of_lt {x : UInt8} (h : zone addr + x.toNat < memorySize) :
    (addr .stackZone + x.toUInt16).toNat = zone addr + x.toNat := by
  have hSize : memorySize = 0x1000 := rfl
  rw [UInt16.toNat_add, UInt8.toNat_toUInt16]
  exact Nat.mod_eq_of_lt (by show zone addr + x.toNat < _; omega)

/-- Addresses in the stack zone do not wrap around. -/
theorem toNat_zone_add (h : HasRoom addr) (x : UInt8) :
    (addr .stackZone + x.toUInt16).toNat = zone addr + x.toNat :=
  toNat_zone_add_of_lt (zone_lt h x)

theorem bulk_width (wide : Bool) : Reg.bulk (width wide) = if wide then .loadHigh else .loadLow := by
  cases wide <;> rfl

/-- Spilling pushes the accumulator. -/
theorem run_spill (wide : Bool) (s : State) (h : HasRoom addr) :
    ∃ t, runLines addr (spill wide) s = some t ∧
      t.reg .stack = s.reg .stack + width wide ∧ t.reg .ones = s.reg .ones ∧
      t.reg .base = s.reg .base ∧
      (∀ a, a < zone addr + (s.reg .stack).toNat ∨
        zone addr + (s.reg .stack).toNat + (width wide).toNat ≤ a → t.byte a = s.byte a) ∧
      t.valueAt (zone addr + (s.reg .stack).toNat) wide = s.acc wide := by
  have hIndex := toNat_zone_add h (s.reg .stack)
  have hLow := zone_lt h (s.reg .stack)
  have hHigh := zone_succ_lt h (s.reg .stack)
  cases wide <;>
    simp +decide [spill, bulk_width, runLines_save_low, runLines_save_high, hIndex, hLow, hHigh,
      State.byte_poke, State.valueAt, State.acc]
  · rintro a ha rfl
    rcases ha with ha | ha
    · exact absurd ha (Nat.lt_irrefl _)
    · exact absurd ha (Nat.not_succ_le_self _)
  · intro a ha
    have hTwo : (width true).toNat = 2 := rfl
    rw [if_neg (by omega), if_neg (by omega)]

/-- Reloading pops the left side and combines it with the accumulator. -/
theorem run_reload {mode : Mode} (hMode : mode ≠ .load) (h : HasRoom addr) {height : UInt8}
    (hStack : s.reg .stack = height + width wide) :
    ∃ t, runLines addr (reload mode wide) s = some t ∧
      t.reg .stack = height ∧ t.reg .ones = s.reg .ones ∧ t.reg .base = s.reg .base ∧
      (∀ a, t.byte a = s.byte a) ∧
      Cong wide (t.acc wide)
        (mode.combine (s.valueAt (zone addr + height.toNat) wide) (s.acc wide)) := by
  have hIndex := toNat_zone_add h height
  have hLow := zone_lt h height
  have hHigh := zone_succ_lt h height
  have hDown : height + width wide + -width wide = height := by
    rw [← UInt8.sub_eq_add_neg, UInt8.add_sub_cancel]
  cases mode <;> cases wide <;>
    simp +decide [reload, combine, bulk_width, runLines_load_low, runLines_load_high, hStack, hDown,
      hIndex, hLow, hHigh, State.valueAt, State.acc, Mode.combine]
  · exact absurd rfl hMode
  · exact absurd rfl hMode
  · exact cong_add_low _ _ _ _ _
  · exact cong_add_word _ _ _ _
  · exact cong_sub_low _ _ _ _ _
  · exact cong_sub_word _ _ _ _

end

/-! ### Variables -/

def Env.place (env : Env) (addr : Label → UInt16) (b : Nat) (name : String) (info : VarInfo) :
    Nat :=
  if info.isGlobal then (addr (.global name)).toNat
  else zone addr + b + (Slot.place? name env.slots).getD 0

/-- All variables lie below the height `top` of the stack, to which there is room. -/
structure Placed (env : Env) (addr : Label → UInt16) (b top : Nat) : Prop where
  room : HasRoom addr
  top_le : top ≤ stackLimit
  below : ∀ {name info}, env.look name = some (.var info) →
    env.place addr b name info + info.type.bytes ≤ zone addr + top

def HoldsStore (env : Env) (addr : Label → UInt16) (b : Nat) (store : Store) (s : State) : Prop :=
  ∀ name info, env.look name = some (.var info) →
    s.valueAt (env.place addr b name info) info.type.isWide = store name

theorem valueAt_congr {s t : State} {a : Nat} {wide : Bool}
    (h : ∀ c, a ≤ c → c < a + (width wide).toNat → t.byte c = s.byte c) :
    t.valueAt a wide = s.valueAt a wide := by
  cases wide with
  | false =>
    have hLow : t.byte a = s.byte a := h a (Nat.le_refl a) (Nat.lt_succ_self a)
    simp [State.valueAt, hLow]
  | true =>
    have hLow : t.byte a = s.byte a := h a (Nat.le_refl a) (Nat.lt_add_of_pos_right (by decide))
    have hHigh : t.byte (a + 1) = s.byte (a + 1) :=
      h (a + 1) (Nat.le_succ a) (Nat.lt_succ_self (a + 1))
    simp [State.valueAt, hLow, hHigh]

theorem ValueType.toNat_width (type : ValueType) : (width type.isWide).toNat = type.bytes := by
  cases type <;> rfl

theorem ValueType.bytes_pos (type : ValueType) : 0 < type.bytes := by
  cases type <;> decide

section

variable {env : Env} {addr : Label → UInt16} {b top : Nat} {store : Store} {s t : State}

/-- What lies at the height of the stack or above is no variable. -/
theorem HoldsStore.of_bytes (hs : HoldsStore env addr b store s) (hPlaced : Placed env addr b top)
    (h : ∀ a < zone addr + top, t.byte a = s.byte a) : HoldsStore env addr b store t := by
  intro name info hLook
  have hBelow := hPlaced.below hLook
  rw [← ValueType.toNat_width] at hBelow
  rw [valueAt_congr fun c _ hc => h c (Nat.lt_of_lt_of_le hc hBelow)]
  exact hs name info hLook

/-- Reaching the slot at `offset` displaces the base by as much. -/
theorem run_displace (hRoom : HasRoom addr) (note : String) {base last : UInt8} (offset : UInt8)
    (hBase : s.reg .base = base + last) :
    ∃ t, runLines addr ([noted (.index .stackZone) note]
        ++ (if offset - last = 0 then [] else [plain (.addByte .base (offset - last))])
        ++ [plain (.addIndex .base)]) s = some t ∧
      Spares Everywhere s t ∧ t.reg .base = base + offset ∧ (∀ wide, t.acc wide = s.acc wide) ∧
      t.index.toNat = zone addr + (base + offset).toNat := by
  have hIndex := toNat_zone_add hRoom (base + offset)
  by_cases hSame : offset - last = 0
  · obtain rfl : last = offset := by
      rw [← UInt8.sub_add_cancel offset last, hSame, UInt8.zero_add]
    simp +decide [Spares.iff, State.acc, hBase]
    simpa using hIndex
  · have hDelta : base + last + (offset - last) = base + offset := by
      rw [UInt8.add_assoc, UInt8.add_comm last, UInt8.sub_add_cancel]
    simp +decide [hSame, Spares.iff, State.acc, hBase, hDelta]
    simpa using hIndex

/-- The code for an address leaves the index register at the place of the variable. -/
theorem run_address {name note : String} {info : VarInfo} {last last' : UInt8} {lines : List Line}
    (hPlaced : Placed env addr b top) (hLook : env.look name = some (.var info))
    (h : AddressCode env.slots name note info.isGlobal last lines last')
    (hBase : s.reg .base = UInt8.ofNat b + last) :
    ∃ t, runLines addr lines s = some t ∧ Spares Everywhere s t ∧
      t.reg .base = UInt8.ofNat b + last' ∧ (∀ wide, t.acc wide = s.acc wide) ∧
      t.index.toNat = env.place addr b name info := by
  have hBelow := hPlaced.below hLook
  have hTop : top ≤ 255 := hPlaced.top_le
  have hRoom : zone addr + 256 ≤ 0xFFF := hPlaced.room
  have hBytes := info.type.bytes_pos
  unfold Env.place at hBelow ⊢
  generalize hGlobal : info.isGlobal = isGlobal at h hBelow
  cases h with
  | global last => simp +decide [Spares.iff, State.acc, hBase]
  | slot last offset hOffset =>
    obtain ⟨t, hRun, hSpares, hBase', hAcc, hIndex⟩ := run_displace hPlaced.room note last' hBase
    rw [Slot.offset?_eq] at hOffset
    obtain ⟨p, hPlace, rfl⟩ := Option.map_eq_some_iff.mp hOffset
    simp only [hPlace, Option.getD_some, Bool.false_eq_true, if_false] at hBelow ⊢
    refine ⟨t, hRun, hSpares, hBase', hAcc, hIndex.trans ?_⟩
    rw [UInt8.toNat_add, UInt8.toNat_ofNat', UInt8.toNat_ofNat']
    omega

/-- The machine is about to run code of a body whose frame starts `b` bytes up the stack, with the
base displaced by `last`. -/
structure Ready (env : Env) (addr : Label → UInt16) (b top : Nat) (store : Store) (last : UInt8)
    (s : State) : Prop where
  holdsStore : HoldsStore env addr b store s
  ones : s.reg .ones = 0xFF
  base : s.reg .base = UInt8.ofNat b + last
  top_le : top ≤ (s.reg .stack).toNat

abbrev Below (addr : Label → UInt16) (s : State) : Nat → Prop :=
  fun a => a < zone addr + (s.reg .stack).toNat

theorem Ready.of_bytes {last last' : UInt8} (hs : Ready env addr b top store last s)
    (hPlaced : Placed env addr b top) (hByte : ∀ a, Below addr s a → t.byte a = s.byte a)
    (hOnes : t.reg .ones = s.reg .ones) (hBase : t.reg .base = UInt8.ofNat b + last')
    (hStack : (s.reg .stack).toNat ≤ (t.reg .stack).toNat) :
    Ready env addr b top store last' t := by
  have hTop := hs.top_le
  refine ⟨?_, hOnes.trans hs.ones, hBase, Nat.le_trans hTop hStack⟩
  refine hs.holdsStore.of_bytes hPlaced fun a ha => hByte a ?_
  show a < _
  omega

/-- A state stays ready if the bytes below the stack and the fixed registers do. -/
theorem Ready.of_spares {last last' : UInt8} (hs : Ready env addr b top store last s)
    (hPlaced : Placed env addr b top) (h : Spares (Below addr s) s t)
    (hBase : t.reg .base = UInt8.ofNat b + last') : Ready env addr b top store last' t :=
  hs.of_bytes hPlaced h.byte h.ones hBase (Nat.le_of_eq (congrArg _ h.stack.symm))

theorem Spares.below_trans {u : State} (h : Spares (Below addr s) s t)
    (h' : Spares (Below addr t) t u) : Spares (Below addr s) s u :=
  h.trans (h'.mono fun a (ha : a < _) => by rwa [← h.stack] at ha)

theorem Cong.combine {wide : Bool} {a a' c c' : Int} (mode : Mode) (ha : Cong wide a a')
    (hc : Cong wide c c') : Cong wide (mode.combine a c) (mode.combine a' c') := by
  cases wide <;> cases mode <;>
    simp only [Cong, Mode.combine, if_true, if_false, Bool.false_eq_true] at ha hc ⊢ <;> omega

theorem Lowering.Mode.ne_load_of_ofOp? {op : BinaryOp} {mode : Mode}
    (h : Mode.ofOp? op = some mode) : mode ≠ .load := by
  cases op <;> simp only [Mode.ofOp?, Option.some.injEq, reduceCtorEq] at h <;> subst h <;> decide

theorem Lowering.Mode.value_of_ofOp? {op : BinaryOp} {mode : Mode} (h : Mode.ofOp? op = some mode)
    (left right : Expr) (span : Span) :
    (Expr.binary op left right span).value store =
      mode.combine (left.value store) (right.value store) := by
  cases op <;> simp only [Mode.ofOp?, Option.some.injEq, reduceCtorEq] at h <;> subst h <;> rfl

theorem Placed.index_lt (h : Placed env addr b top) {name : String} {info : VarInfo}
    (hLook : env.look name = some (.var info)) :
    env.place addr b name info + 1 < memorySize := by
  have hBelow := h.below hLook
  have hBytes := info.type.bytes_pos
  have hTop : top ≤ 255 := h.top_le
  have hRoom : zone addr + 256 ≤ 0xFFF := h.room
  show _ < 0x1000
  omega

theorem Expr.spilled_of_isLeaf {e : Expr} (h : e.isLeaf = true) (bytes : Nat) :
    e.spilled bytes = 0 := by
  cases e <;> first | rfl | simp [Expr.isLeaf] at h

/-- The code of an expression brings its value to the accumulator and leaves what is on the stack
as it is. -/
theorem run_expr (hPlaced : Placed env addr b top) {mode : Mode} {wide : Bool} {e : Expr}
    {last last' : UInt8} {lines : List Line} (h : ExprCode env mode wide e last lines last')
    (hMode : mode = .load ∨ e.isLeaf = true) (hs : Ready env addr b top store last s)
    (hFits : (s.reg .stack).toNat + e.spilled (width wide).toNat ≤ 255) :
    ∃ t, runLines addr lines s = some t ∧ Spares (Below addr s) s t ∧
      t.reg .base = UInt8.ofNat b + last' ∧
      Cong wide (t.acc wide) (mode.combine (s.acc wide) (e.value store)) := by
  induction h generalizing s with
  | @ref mode wide name info last lines last' hInfo hAddress =>
    obtain ⟨t, hRun, hSpares, hBase, hAcc, hIndex⟩ := run_address hPlaced hInfo hAddress hs.base
    have hBound : t.index.toNat + 1 < memorySize := hIndex ▸ hPlaced.index_lt hInfo
    have hHolds : HoldsStore env addr b store t :=
      hs.holdsStore.of_bytes hPlaced fun a _ => hSpares.byte a trivial
    obtain ⟨u, hRun', hSpares', hBase', hCong⟩ :=
      run_readVar addr mode wide info.type.isWide hBound
    refine ⟨u, (runLines_append hRun).trans hRun', (hSpares.trans hSpares').of_everywhere,
      hBase'.trans hBase, ?_⟩
    rw [hAcc, hIndex, hHolds _ _ hInfo] at hCong
    exact hCong
  | @int mode wide text span last n hRead =>
    obtain ⟨hValue, hLe⟩ := Numeral.read_eq hRead
    obtain ⟨t, hRun, hSpares, hBase, hCong⟩ := run_literal addr mode wide (UInt16.ofNat n)
    refine ⟨t, hRun, hSpares.of_everywhere, hBase.trans hs.base, ?_⟩
    rw [UInt16.toNat_ofNat_of_lt' (Nat.lt_succ_of_le hLe), hValue] at hCong
    exact hCong
  | @unary mode wide op operand span last lines last' hOperand ih =>
    obtain rfl : mode = .load := hMode.resolve_right (by simp [Expr.isLeaf])
    obtain ⟨t, hRun, hSpares, hBase, hCong⟩ := ih (.inl rfl) hs hFits
    cases op with
    | pos => exact ⟨t, (runLines_append hRun).trans rfl, hSpares, hBase, hCong⟩
    | neg =>
      obtain ⟨u, hRun', hSpares', hBase', hNeg⟩ :=
        run_negate addr wide (hSpares.ones.trans hs.ones)
      exact ⟨u, (runLines_append hRun).trans hRun', hSpares.trans hSpares'.of_everywhere,
        hBase'.trans hBase, hNeg.trans hCong.neg⟩
  | @fused mode wide op opMode left right span last first last₁ second last₂ hOp hLeaf hLeft hRight
      ihLeft ihRight =>
    obtain rfl : mode = .load := hMode.resolve_right (by simp [Expr.isLeaf])
    have hSpilled : (s.reg .stack).toNat + left.spilled (width wide).toNat ≤ 255 := by
      simpa [Expr.spilled, hLeaf] using hFits
    obtain ⟨t, hRun, hSpares, hBase, hCong⟩ := ihLeft (.inl rfl) hs hSpilled
    have hStack : (t.reg .stack).toNat < 256 := (t.reg .stack).toNat_lt
    have hRightFits : (t.reg .stack).toNat + right.spilled (width wide).toNat ≤ 255 := by
      rw [Expr.spilled_of_isLeaf hLeaf]
      omega
    obtain ⟨u, hRun', hSpares', hBase', hCong'⟩ :=
      ihRight (.inr hLeaf) (hs.of_spares hPlaced hSpares hBase) hRightFits
    refine ⟨u, (runLines_append hRun).trans hRun', hSpares.below_trans hSpares', hBase', ?_⟩
    rw [Mode.value_of_ofOp? hOp]
    exact hCong'.trans (hCong.combine opMode (Cong.refl _ _))
  | @spilled mode wide op opMode left right span last first last₁ second last₂ hOp hLeaf hLeft
      hRight ihLeft ihRight =>
    obtain rfl : mode = .load := hMode.resolve_right (by simp [Expr.isLeaf])
    simp only [Expr.spilled, hLeaf, Bool.false_eq_true, if_false] at hFits
    obtain ⟨t, hRun, hSpares, hBase, hCong⟩ := ihLeft (.inl rfl) hs (by omega)
    have hStack : (t.reg .stack).toNat = (s.reg .stack).toNat := congrArg _ hSpares.stack
    obtain ⟨u, hSpill, hUp, hOnes, hBase', hByte, hValue⟩ :=
      run_spill wide t hPlaced.room
    have hHeight : (u.reg .stack).toNat = (t.reg .stack).toNat + (width wide).toNat := by
      rw [hUp, UInt8.toNat_add]
      omega
    have hReady := (hs.of_spares hPlaced hSpares hBase).of_bytes hPlaced
      (fun a ha => hByte a (.inl ha)) hOnes (hBase'.trans hBase) (by omega)
    obtain ⟨v, hRun', hSpares', hBase'', hCong'⟩ := ihRight (.inl rfl) hReady (by omega)
    obtain ⟨w, hReload, hDown, hOnes', hBase₃, hByte', hCombined⟩ :=
      run_reload (Mode.ne_load_of_ofOp? hOp) hPlaced.room (hSpares'.stack.trans hUp)
    refine ⟨w, ?_, ⟨?_, ?_, ?_⟩, hBase₃.trans hBase'', ?_⟩
    · rw [runLines_append hRun, runLines_append hSpill, runLines_append hRun', hReload]
    · exact hDown.trans hSpares.stack
    · exact hOnes'.trans (hSpares'.ones.trans (hOnes.trans hSpares.ones))
    · intro a (ha : a < _)
      rw [hByte', hSpares'.byte a (show a < _ by omega), hByte a (.inl (by omega)),
        hSpares.byte a ha]
    · have hLeftValue : v.valueAt (zone addr + (t.reg .stack).toNat) wide = t.acc wide := by
        rw [valueAt_congr fun c _ hc => hSpares'.byte c (show c < _ by omega), hValue]
      rw [hLeftValue] at hCombined
      rw [Mode.value_of_ofOp? hOp]
      exact hCombined.trans (hCong.combine opMode hCong')

end

end ChipPascal
