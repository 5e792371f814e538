import ChipPascal.Proofs.Loading
import ChipPascal.Proofs.LoweringReport
import Mathlib.Data.List.Infix

/-!
# Expressions in every state of lowering

Whatever has been lowered before, an expression without unsupported parts is lowered to code that
brings its value to the accumulator. The code touches no memory but the bytes above the stack
pointer in which left operands wait, and leaves the base displaced as the frames say.
-/

namespace ChipPascal

open Machine Line
open Lowering hiding State
open Lower (Gives gives_bind gives_emit gives_lift gives_pure gives_state_bind gives_update_bind)

/-! ### Displaced frames -/

namespace Frames

variable {f : Frames} {i : Nat}

theorem getElem?_setLast {block : FrameBlock} (h : f.table[i]? = some block) (k : Nat)
    (last : UInt8) :
    ∃ last', (f.setLast k last).table[i]? = some { block with last := last' } := by
  by_cases hi : k = i
  · exact ⟨last, by simp [setLast, Array.getElem?_modify, hi, h]⟩
  · exact ⟨block.last, by simp [setLast, Array.getElem?_modify, hi, h]⟩

theorem getElem?_setLast_eq_none (h : f.table[i]? = none) (k : Nat) (last : UInt8) :
    (f.setLast k last).table[i]? = none := by
  simp [setLast, Array.getElem?_modify, h]

/-- Displacing the base moves no slot. -/
theorem offsetFrom?_setLast (name : String) (k : Nat) (last : UInt8) :
    (f.setLast k last).offsetFrom? name i = f.offsetFrom? name i := by
  induction i using Nat.strongRecOn with
  | ind i ih =>
    rw [offsetFrom?, offsetFrom?]
    cases h : f.table[i]? with
    | none => rw [getElem?_setLast_eq_none h]
    | some block =>
      obtain ⟨last', hBlock⟩ := getElem?_setLast h k last
      rw [hBlock]
      dsimp only
      cases Slot.offset? name block.slots with
      | some offset => rfl
      | none =>
        cases block.enclosing with
        | none => rfl
        | some j =>
          dsimp only
          by_cases hj : j < i
          · rw [if_pos hj, if_pos hj, ih j hj, slotsAt_setLast]
          · rw [if_neg hj, if_neg hj]

theorem offset?_setLast (f : Frames) (k : Nat) (last : UInt8) :
    (f.setLast k last).offset? = f.offset? :=
  funext fun name => offsetFrom?_setLast name k last

theorem last_setLast {name : String} {offset : UInt8} (h : f.offset? name = some offset)
    (last : UInt8) : (f.setLast f.active last).last = last := by
  cases hBlock : f.table[f.active]? with
  | none =>
    rw [offset?, offsetFrom?, hBlock] at h
    cases h
  | some block => simp [Frames.last, setLast, Array.getElem?_modify, hBlock]

end Frames

/-! ### Variables -/

namespace Lowering.State

def place (σ : Lowering.State) (addr : Label → UInt16) (base : UInt8) (name : String)
    (info : VarInfo) : Nat :=
  if info.isGlobal then (addr (.global name)).toNat
  else zone addr + (base + (σ.frames.offset? name).getD 0).toNat

def values (σ : Lowering.State) (addr : Label → UInt16) (base : UInt8)
    (s : Machine.State) : Store :=
  fun name =>
    match σ.symbols.get? name with
    | some (.var info) => s.valueAt (σ.place addr base name info) info.type.isWide
    | _ => 0

/-- The name stands for a global that has its data word, or for a local that lies below `height`. -/
inductive Reaches (σ : Lowering.State) (names : List String) (base : UInt8) (height : Nat)
    (name : String) : Prop
  | global {type : ValueType} {isConst : Bool}
    (hInfo : σ.symbols.get? name = some (.var (.declared type true isConst)))
    (hName : name ∈ names)
  | slot {type : ValueType} {isConst : Bool} {offset : UInt8}
    (hInfo : σ.symbols.get? name = some (.var (.declared type false isConst)))
    (hOffset : σ.frames.offset? name = some offset)
    (hBelow : (base + offset).toNat + type.bytes ≤ height)

def SameNames (σ σ' : Lowering.State) : Prop :=
  σ'.symbols = σ.symbols ∧ σ'.frames.offset? = σ.frames.offset?

end Lowering.State

section

open Lowering.State

variable {σ σ' σ'' : Lowering.State} {addr : Label → UInt16} {names : List String} {base : UInt8}
  {height : Nat} {name : String} {info : VarInfo} {s t : State}

theorem Lowering.State.SameNames.refl (σ : Lowering.State) : SameNames σ σ := ⟨rfl, rfl⟩

theorem Lowering.State.SameNames.trans (h : SameNames σ σ') (h' : SameNames σ' σ'') :
    SameNames σ σ'' :=
  ⟨h'.1.trans h.1, h'.2.trans h.2⟩

/-- Lowering on does not change where variables lie. -/
theorem Lowering.State.SameNames.values_eq (h : SameNames σ σ') (s : Machine.State) :
    σ'.values addr base s = σ.values addr base s := by
  unfold Lowering.State.values Lowering.State.place
  rw [h.1, h.2]

theorem Lowering.State.SameNames.reaches (h : SameNames σ σ')
    (hName : σ.Reaches names base height name) : σ'.Reaches names base height name := by
  cases hName with
  | global hInfo hName => exact .global (h.1 ▸ hInfo) hName
  | slot hInfo hOffset hBelow => exact .slot (h.1 ▸ hInfo) (h.2 ▸ hOffset) hBelow

theorem Lowering.State.Reaches.mono {height' : Nat} (h : σ.Reaches names base height name)
    (hHeight : height ≤ height') : σ.Reaches names base height' name := by
  cases h with
  | global hInfo hName => exact .global hInfo hName
  | slot hInfo hOffset hBelow => exact .slot hInfo hOffset (Nat.le_trans hBelow hHeight)

/-- A reachable name is a variable that lies below the top of the stack. -/
theorem Lowering.State.Reaches.exists_info (h : σ.Reaches names base height name)
    (hData : DataMap addr names) :
    ∃ info, σ.symbols.get? name = some (.var info) ∧
      σ.place addr base name info + info.type.bytes ≤ zone addr + height := by
  cases h with
  | @global type _ hInfo hName =>
    refine ⟨_, hInfo, ?_⟩
    have hBytes : type.bytes ≤ 2 := by cases type <;> decide
    have hBefore := hData.global name hName
    have hHigh := hData.bcdHigh
    have hZone := hData.stackZone
    simp only [Lowering.State.place, VarInfo.declared, if_true]
    omega
  | slot hInfo hOffset hBelow =>
    refine ⟨_, hInfo, ?_⟩
    simp only [Lowering.State.place, VarInfo.declared, hOffset, Bool.false_eq_true, if_false,
      Option.getD_some]
    omega

/-- What lies at the height of the stack or above is no variable. -/
theorem values_congr (hData : DataMap addr names) {e : Expr}
    (hReads : e.Reads (σ.Reaches names base height))
    (hByte : ∀ a < zone addr + height, t.byte a = s.byte a) :
    e.value (σ.values addr base t) = e.value (σ.values addr base s) := by
  induction e with
  | ref name =>
    obtain ⟨info, hInfo, hBelow⟩ := Reaches.exists_info hReads hData
    rw [← ValueType.toNat_width] at hBelow
    simp only [Expr.value, Lowering.State.values, hInfo]
    rw [valueAt_congr fun c _ hc => hByte c (Nat.lt_of_lt_of_le hc hBelow)]
  | int text span => rfl
  | unary op operand span ih => cases op <;> simp only [Expr.value, ih hReads]
  | binary op left right span ihLeft ihRight =>
    cases op <;> simp only [Expr.value, ihLeft hReads.1, ihRight hReads.2]

/-! ### What the code of an expression does -/

/-- The registers that the code of an expression relies on. -/
structure Poised (σ : Lowering.State) (base : UInt8) (height : Nat) (s : State) : Prop where
  ones : s.reg .ones = 0xFF
  base : s.reg .base = base + σ.frames.last
  stack : s.reg .stack = UInt8.ofNat height

/-- The step is lowered to lines that bring `value`, cut to one or two bytes, to the accumulator
when they are run. The stack pointer is as before, the base is displaced as lowering tells, and
only the `need` bytes from `height` up the stack change. -/
def Evaluates (run : List Line → State → State → Prop) (addr : Label → UInt16) (base : UInt8)
    (height : Nat) (wide : Bool) (need : Nat) (value : State → Int) (x : Lower Stop Unit)
    (σ : Lowering.State) : Prop :=
  ∃ lines σ', Gives x σ lines σ' () ∧ SameNames σ σ' ∧
    ∀ s, Poised σ base height s → ∃ t, run lines s t ∧ Poised σ' base height t ∧
      (t.acc wide : Int) = value s % (if wide then 0x10000 else 0x100) ∧
      ∀ a, a < zone addr + height ∨ zone addr + height + need ≤ a → t.byte a = s.byte a

def RunsTo (addr : Label → UInt16) (lines : List Line) (s t : State) : Prop :=
  runLines addr lines s = some t

/-- The machine goes from `s` to `t` by the lines, if it stands before them in the listing. -/
def StepsTo (listing : List Line) (image : Image) (lines : List Line) (s t : State) : Prop :=
  ∀ rest, At listing (lines ++ rest) s.pc →
    Path image s.calls.length 0 s t ∧ At listing rest t.pc ∧ t.calls = s.calls

variable {wide : Bool} {need need' : Nat} {mode : Mode} {x y : Lower Stop Unit}
  {value left right : State → Int} {listing : List Line} {image : Image}

/-- What code does line by line it does on the machine. -/
theorem Evaluates.steps (hImage : Assembled listing image)
    (h : Evaluates (RunsTo image.addr) addr base height wide need value x σ) :
    Evaluates (StepsTo listing image) addr base height wide need value x σ := by
  obtain ⟨lines, σ', hLower, hSame, hRun⟩ := h
  refine ⟨lines, σ', hLower, hSame, fun s hs => ?_⟩
  obtain ⟨t, hLines, ht⟩ := hRun s hs
  exact ⟨t, fun rest hAt => runLines_path hImage hAt hLines, ht⟩

theorem acc_eq_iff {v : Int} :
    (s.acc wide : Int) = v % (if wide then 0x10000 else 0x100) ↔ Cong wide (s.acc wide) v := by
  have hLow : (s.reg .accLow).toNat < 256 := (s.reg .accLow).toNat_lt
  have hHigh : (s.reg .accHigh).toNat < 256 := (s.reg .accHigh).toNat_lt
  have hZero : (0 : UInt8).toNat = 0 := rfl
  cases wide <;> simp only [State.acc, word, Cong, if_true, if_false, Bool.false_eq_true, hZero] <;>
    omega

theorem Poised.of_spares {P : Nat → Prop} (h : Poised σ base height s) (hSpares : Spares P s t)
    (hBase : t.reg .base = base + σ'.frames.last) : Poised σ' base height t :=
  ⟨hSpares.ones.trans h.ones, hBase, hSpares.stack.trans h.stack⟩

/-! ### Leaves -/

/-- A reachable name can be pointed at, and the index register is then at its place. -/
theorem exists_address (hRoom : HasRoom addr) (h : σ.Reaches names base height name)
    (hInfo : σ.symbols.get? name = some (.var info)) (note : String) :
    ∃ lines σ', Gives (address name info note) σ lines σ' () ∧ SameNames σ σ' ∧
      ∀ s, s.reg .base = base + σ.frames.last → ∃ t, runLines addr lines s = some t ∧
        Spares Everywhere s t ∧ t.reg .base = base + σ'.frames.last ∧
        (∀ wide, t.acc wide = s.acc wide) ∧ t.index.toNat = σ.place addr base name info := by
  cases h with
  | global hInfo' hName =>
    obtain rfl : _ = info := by simpa [hInfo'] using hInfo
    refine ⟨[noted (.index (.global name)) note], σ, ?_, .refl σ, fun s hBase => ?_⟩
    · exact gives_emit.mpr ⟨rfl, rfl⟩
    · simp +decide [Spares.iff, State.acc, hBase, Lowering.State.place, VarInfo.declared]
  | @slot _ _ offset hInfo' hOffset hBelow =>
    obtain rfl : _ = info := by simpa [hInfo'] using hInfo
    have hLast := Frames.last_setLast hOffset offset
    refine ⟨[noted (.index .stackZone) note] ++ (if offset - σ.frames.last = 0 then []
        else [plain (.addByte .base (offset - σ.frames.last))]) ++ [plain (.addIndex .base)],
      { σ with frames := σ.frames.setLast σ.frames.active offset }, ?_,
      ⟨rfl, Frames.offset?_setLast _ _ _⟩, fun s hBase => ?_⟩
    · show Gives (pointAt name false note) _ _ _ _
      rw [pointAt, if_neg Bool.false_ne_true, gives_state_bind, Frames.offsetFromLast?, hOffset,
        Option.map_some, gives_update_bind]
      exact gives_emit.mpr ⟨rfl, rfl⟩
    · obtain ⟨t, hRun, hSpares, hBase', hAcc, hIndex⟩ := run_displace hRoom note offset hBase
      refine ⟨t, hRun, hSpares, by rw [hLast]; exact hBase', hAcc, ?_⟩
      rw [hIndex, Lowering.State.place, hOffset]
      rfl

theorem gives_ref {name : Ident} {lines : List Line}
    (hInfo : σ.symbols.get? name.name = some (.var info))
    (hAddress : Gives (address name.name info (mode.mnemonic ++ " " ++ name.name)) σ lines σ' ()) :
    Gives (lowerExpr mode wide (.ref name)) σ (lines ++ readVar mode wide info.type.isWide) σ'
      () := by
  have hVariable : Gives (variableInfo name) σ [] σ info := by
    rw [variableInfo, gives_state_bind, varInfo, hInfo]
    exact gives_pure.mpr ⟨rfl, rfl, rfl⟩
  refine gives_bind.mpr ⟨info, [], σ, _, gives_lift.mpr hVariable, ?_, rfl⟩
  exact gives_bind.mpr ⟨(), lines, σ', _, gives_lift.mpr hAddress, gives_emit.mpr ⟨rfl, rfl⟩, rfl⟩

theorem gives_int {text : String} (hFits : fitsWord text = true) (span : Span) :
    Gives (lowerExpr mode wide (.int text span)) σ
      (literal mode wide (UInt16.ofNat (Nat.ofDigitChars 10 text.toList 0))) σ () := by
  rw [lowerExpr, literalValue_eq, if_pos hFits]
  exact gives_emit.mpr ⟨rfl, rfl⟩

theorem evaluates_leaf (hRoom : HasRoom addr) (hData : DataMap addr names) {e : Expr}
    (hLeaf : e.isLeaf = true) (hSupported : e.Supported)
    (hReads : e.Reads (σ.Reaches names base height)) (hHeight : height ≤ 256) (mode : Mode) :
    Evaluates (RunsTo addr) addr base height wide 0
      (fun s => mode.combine (s.acc wide) (e.value (σ.values addr base s)))
      (lowerExpr mode wide e) σ := by
  cases e with
  | ref name =>
    obtain ⟨info, hInfo, hBelow⟩ := Reaches.exists_info hReads hData
    obtain ⟨lines, σ', hAddress, hSame, hRun⟩ :=
      exists_address hRoom hReads hInfo (mode.mnemonic ++ " " ++ name.name)
    refine ⟨_, σ', gives_ref hInfo hAddress, hSame, fun s hs => ?_⟩
    obtain ⟨t, hRun, hSpares, hBase, hAcc, hIndex⟩ := hRun s hs.base
    have hBytes := info.type.bytes_pos
    have hBound : t.index.toNat + 1 < memorySize := by
      unfold HasRoom at hRoom
      show _ < 0x1000
      omega
    obtain ⟨u, hRun', hSpares', hBase', hCong⟩ :=
      run_readVar addr mode wide info.type.isWide hBound
    have hKept := hSpares.trans hSpares'
    refine ⟨u, (runLines_append hRun).trans hRun', hs.of_spares hKept (hBase'.trans hBase),
      acc_eq_iff.mpr ?_, fun a _ => hKept.byte a trivial⟩
    have hValue : t.valueAt t.index.toNat info.type.isWide = σ.values addr base s name.name := by
      simp only [Lowering.State.values, hInfo, hIndex]
      exact valueAt_congr fun c _ _ => hSpares.byte c trivial
    rw [hAcc, hValue] at hCong
    exact hCong
  | int text span =>
    have hRead := Numeral.read_eq_ok_iff.mpr ⟨hSupported, rfl⟩
    obtain ⟨-, hLe⟩ := Numeral.read_eq hRead
    refine ⟨_, σ, gives_int hSupported span, .refl σ, fun s hs => ?_⟩
    obtain ⟨t, hRun, hSpares, hBase, hCong⟩ :=
      run_literal addr mode wide (UInt16.ofNat (Nat.ofDigitChars 10 text.toList 0))
    refine ⟨t, hRun, hs.of_spares hSpares (hBase.trans hs.base), acc_eq_iff.mpr ?_,
      fun a _ => hSpares.byte a trivial⟩
    rw [UInt16.toNat_ofNat_of_lt' (Nat.lt_succ_of_le hLe)] at hCong
    exact hCong
  | unary op operand span => cases hLeaf
  | binary op left right span => cases hLeaf

/-! ### Operators -/

theorem Evaluates.neg (hx : Evaluates (RunsTo addr) addr base height wide need value x σ) :
    Evaluates (RunsTo addr) addr base height wide need (fun s => -value s)
      (do x; Lower.emit (negate wide)) σ := by
  obtain ⟨lines, σ', hLines, hSame, hRuns⟩ := hx
  refine ⟨lines ++ negate wide, σ', gives_bind.mpr
    ⟨(), lines, σ', _, hLines, gives_emit.mpr ⟨rfl, rfl⟩, rfl⟩, hSame, fun s hs => ?_⟩
  obtain ⟨t, hRun, ht, hAcc, hByte⟩ := hRuns s hs
  obtain ⟨u, hRun', hSpares, hBase, hNeg⟩ := run_negate addr wide ht.ones
  refine ⟨u, (runLines_append hRun).trans hRun', ht.of_spares hSpares (hBase.trans ht.base),
    acc_eq_iff.mpr (hNeg.trans (acc_eq_iff.mp hAcc).neg), fun a ha => ?_⟩
  rw [hSpares.byte a trivial, hByte a ha]

theorem Evaluates.pos (hx : Evaluates (RunsTo addr) addr base height wide need value x σ) :
    Evaluates (RunsTo addr) addr base height wide need value (do x; Lower.emit []) σ := by
  obtain ⟨lines, σ', hLines, hSame, hRuns⟩ := hx
  exact ⟨lines, σ', gives_bind.mpr ⟨(), lines, σ', [], hLines, gives_emit.mpr ⟨rfl, rfl⟩,
    (List.append_nil lines).symm⟩, hSame, hRuns⟩

/-- The right operand meets the left one in the accumulator. -/
theorem Evaluates.fused (hx : Evaluates (RunsTo addr) addr base height wide need left x σ)
    (hy : ∀ σ', SameNames σ σ' → Evaluates (RunsTo addr) addr base height wide 0
      (fun s => mode.combine (s.acc wide) (right s)) y σ')
    (hRight : ∀ s t, (∀ a < zone addr + height, t.byte a = s.byte a) → right t = right s) :
    Evaluates (RunsTo addr) addr base height wide need
      (fun s => mode.combine (left s) (right s)) (do x; y) σ := by
  obtain ⟨lines, σ', hLines, hSame, hRuns⟩ := hx
  obtain ⟨lines', σ'', hLines', hSame', hRuns'⟩ := hy σ' hSame
  refine ⟨lines ++ lines', σ'', gives_bind.mpr ⟨(), lines, σ', lines', hLines, hLines', rfl⟩,
    hSame.trans hSame', fun s hs => ?_⟩
  obtain ⟨t, hRun, ht, hAcc, hByte⟩ := hRuns s hs
  obtain ⟨u, hRun', hu, hAcc', hByte'⟩ := hRuns' t ht
  refine ⟨u, (runLines_append hRun).trans hRun', hu, acc_eq_iff.mpr ?_, fun a ha => ?_⟩
  · have hCong : Cong wide (u.acc wide) (mode.combine (t.acc wide) (right t)) :=
      acc_eq_iff.mp hAcc'
    rw [hRight s t fun a ha => hByte a (.inl ha)] at hCong
    exact hCong.trans ((acc_eq_iff.mp hAcc).combine mode (Cong.refl _ _))
  · rw [hByte' a (by omega), hByte a ha]

/-- The left operand waits on the stack. The height may be all of 256 then, where the stack pointer
is back at zero. -/
theorem Evaluates.spilled (hRoom : HasRoom addr) (hMode : mode ≠ .load)
    (hx : Evaluates (RunsTo addr) addr base height wide need left x σ)
    (hy : ∀ σ', SameNames σ σ' → Evaluates (RunsTo addr) addr base
      (height + (width wide).toNat) wide need' right y σ')
    (hRight : ∀ s t, (∀ a < zone addr + height, t.byte a = s.byte a) → right t = right s)
    (hFits : height + (width wide).toNat ≤ 256) :
    Evaluates (RunsTo addr) addr base height wide (max need ((width wide).toNat + need'))
      (fun s => mode.combine (left s) (right s))
      (do x; Lower.emit (spill wide); y; Lower.emit (reload mode wide)) σ := by
  obtain ⟨lines, σ', hLines, hSame, hRuns⟩ := hx
  obtain ⟨lines', σ'', hLines', hSame', hRuns'⟩ := hy σ' hSame
  refine ⟨lines ++ (spill wide ++ (lines' ++ reload mode wide)), σ'', ?_, hSame.trans hSame',
    fun s hs => ?_⟩
  · refine gives_bind.mpr ⟨(), lines, σ', _, hLines, ?_, rfl⟩
    refine gives_bind.mpr ⟨(), spill wide, σ', _, gives_emit.mpr ⟨rfl, rfl⟩, ?_, rfl⟩
    exact gives_bind.mpr ⟨(), lines', σ'', _, hLines', gives_emit.mpr ⟨rfl, rfl⟩, rfl⟩
  have hWidth : 0 < (width wide).toNat := by cases wide <;> decide
  have hHeight : (UInt8.ofNat height).toNat = height :=
    UInt8.toNat_ofNat_of_lt' (by show height < 256; omega)
  obtain ⟨t, hRun, ht, hAcc, hByte⟩ := hRuns s hs
  obtain ⟨u, hSpill, hUp, hOnes, hBase, hByte₁, hLeft⟩ := run_spill wide t hRoom
  rw [ht.stack] at hUp hByte₁ hLeft
  rw [hHeight] at hByte₁ hLeft
  have hTop : UInt8.ofNat (height + (width wide).toNat) = UInt8.ofNat height + width wide := by
    rw [UInt8.ofNat_add, UInt8.ofNat_toNat]
  have hu : Poised σ' base (height + (width wide).toNat) u :=
    ⟨hOnes.trans ht.ones, hBase.trans ht.base, hUp.trans hTop.symm⟩
  obtain ⟨v, hRun', hv, hAcc', hByte₂⟩ := hRuns' u hu
  obtain ⟨w, hReload, hDown, hOnes', hBase', hByte₃, hCong⟩ :=
    run_reload hMode hRoom (hv.stack.trans hTop)
  rw [hHeight] at hCong
  refine ⟨w, ?_, ⟨hOnes'.trans hv.ones, hBase'.trans hv.base, hDown⟩, acc_eq_iff.mpr ?_,
    fun a ha => ?_⟩
  · show runLines addr _ s = some w
    rw [runLines_append hRun, runLines_append hSpill, runLines_append hRun', hReload]
  · have hWaiting : v.valueAt (zone addr + height) wide = t.acc wide := by
      rw [valueAt_congr fun c _ hc => hByte₂ c (by omega), hLeft]
    have hSame : right u = right s := hRight s u fun a ha => by
      rw [hByte₁ a (by omega), hByte a (by omega)]
    have hRightCong := acc_eq_iff.mp hAcc'
    rw [hSame] at hRightCong
    rw [hWaiting] at hCong
    exact hCong.trans ((acc_eq_iff.mp hAcc).combine mode hRightCong)
  · rw [hByte₃, hByte₂ a (by omega), hByte₁ a (by omega), hByte a (by omega)]

/-! ### Expressions -/

theorem Expr.Reads.same {e : Expr} (h : e.Reads (σ.Reaches names base height))
    (hSame : SameNames σ σ') {height' : Nat} (hHeight : height ≤ height') :
    e.Reads (σ'.Reaches names base height') :=
  Expr.Reads.mono (fun _ hName => (hSame.reaches hName).mono hHeight) h

/-- An operand that is not a leaf is evaluated above the spilled left side. -/
theorem evaluates_spilled (hRoom : HasRoom addr) (hData : DataMap addr names) {op : BinaryOp}
    {left right : Expr} (hOp : Mode.ofOp? op = some mode)
    (hReads : right.Reads (σ.Reaches names base height))
    (hLeft : Evaluates (RunsTo addr) addr base height wide (left.spilled (width wide).toNat)
      (fun s => left.value (σ.values addr base s)) (lowerExpr .load wide left) σ)
    (hRight : ∀ σ', SameNames σ σ' → Evaluates (RunsTo addr) addr base
      (height + (width wide).toNat) wide (right.spilled (width wide).toNat)
      (fun s => right.value (σ'.values addr base s)) (lowerExpr .load wide right) σ')
    (hFits : height + (width wide).toNat ≤ 256) (span : Span) :
    Evaluates (RunsTo addr) addr base height wide
      (max (left.spilled (width wide).toNat)
        ((width wide).toNat + right.spilled (width wide).toNat))
      (fun s => (Expr.binary op left right span).value (σ.values addr base s))
      (do
        lowerExpr .load wide left
        Lower.emit (spill wide)
        lowerExpr .load wide right
        Lower.emit (reload mode wide)) σ := by
  simp only [Mode.value_of_ofOp? hOp]
  refine hLeft.spilled hRoom (Mode.ne_load_of_ofOp? hOp) (fun σ' hSame => ?_)
    (fun s t => values_congr hData hReads) hFits
  simpa only [hSame.values_eq] using hRight σ' hSame

/-- Lowering an expression gives code that computes its value, by induction on the expression. -/
theorem evaluates_lowerExpr (hRoom : HasRoom addr) (hData : DataMap addr names) {e : Expr}
    (hSupported : e.Supported) (hReads : e.Reads (σ.Reaches names base height))
    (hFits : height + e.spilled (width wide).toNat ≤ 256) :
    Evaluates (RunsTo addr) addr base height wide (e.spilled (width wide).toNat)
      (fun s => e.value (σ.values addr base s)) (lowerExpr .load wide e) σ := by
  induction e generalizing σ height with
  | ref name => exact evaluates_leaf hRoom hData rfl hSupported hReads hFits .load
  | int text span => exact evaluates_leaf hRoom hData rfl hSupported hReads hFits .load
  | unary op operand span ih =>
    have hOperand := ih hSupported hReads hFits
    cases op with
    | neg => exact hOperand.neg
    | pos => exact hOperand.pos
  | binary op left right span ihLeft ihRight =>
    obtain ⟨hOpSupported, hLeftSupported, hRightSupported⟩ := hSupported
    obtain ⟨hLeftReads, hRightReads⟩ := hReads
    rw [BinaryOp.isSupported_eq] at hOpSupported
    obtain ⟨mode, hOp⟩ := Option.isSome_iff_exists.mp hOpSupported
    simp only [lowerExpr, hOp]
    by_cases hLeaf : right.isLeaf = true
    · simp only [Expr.spilled, hLeaf, if_true] at hFits ⊢
      simp only [Mode.value_of_ofOp? hOp]
      refine (ihLeft hLeftSupported hLeftReads hFits).fused (fun σ' hSame => ?_)
        fun s t => values_congr hData hRightReads
      simpa only [hSame.values_eq] using evaluates_leaf hRoom hData hLeaf hRightSupported
        (hRightReads.same hSame (Nat.le_refl height)) (by omega) mode
    · simp only [Expr.spilled, hLeaf, Bool.false_eq_true, if_false] at hFits ⊢
      refine evaluates_spilled hRoom hData hOp hRightReads
        (ihLeft hLeftSupported hLeftReads (by omega)) (fun σ' hSame => ?_) (by omega) span
      exact ihRight hRightSupported (hRightReads.same hSame (Nat.le_add_right _ _)) (by omega)

/-- Lowering an expression gives code for which three things hold wherever it stands in a listing.
In load mode it leaves the value of the expression in the accumulator. In any mode, a variable or a
literal meets what was in the accumulator. And an operator comes to the same, whether the right
operand meets the left one in the accumulator or the left one waits on the stack. -/
theorem lowerExpr_evaluates {code : List Line} {stackWords : Nat} {e : Expr}
    (hImage : Assembled listing image) (hData : listing = code ++ dataSection names stackWords)
    (hRoom : HasRoom image.addr) (hSupported : e.Supported)
    (hReads : e.Reads (σ.Reaches names base height))
    (hFits : height + e.spilled (width wide).toNat ≤ 256) :
    Evaluates (StepsTo listing image) image.addr base height wide (e.spilled (width wide).toNat)
        (fun s => e.value (σ.values image.addr base s)) (lowerExpr .load wide e) σ ∧
      (e.isLeaf = true → ∀ mode, Evaluates (StepsTo listing image) image.addr base height wide 0
        (fun s => mode.combine (s.acc wide) (e.value (σ.values image.addr base s)))
        (lowerExpr mode wide e) σ) ∧
      ∀ op mode left right span, e = .binary op left right span → Mode.ofOp? op = some mode →
        height + max (left.spilled (width wide).toNat)
          ((width wide).toNat + right.spilled (width wide).toNat) ≤ 256 →
        Evaluates (StepsTo listing image) image.addr base height wide
          (max (left.spilled (width wide).toNat)
            ((width wide).toNat + right.spilled (width wide).toNat))
          (fun s => e.value (σ.values image.addr base s))
          (do
            lowerExpr .load wide left
            Lower.emit (spill wide)
            lowerExpr .load wide right
            Lower.emit (reload mode wide)) σ := by
  have hMap := hImage.dataMap hData
  refine ⟨(evaluates_lowerExpr hRoom hMap hSupported hReads hFits).steps hImage, ?_, ?_⟩
  · intro hLeaf mode
    exact (evaluates_leaf hRoom hMap hLeaf hSupported hReads (by omega) mode).steps hImage
  · rintro op mode left right span rfl hOp hBoth
    obtain ⟨-, hLeft, hRight⟩ := hSupported
    refine (evaluates_spilled hRoom hMap hOp hReads.2
      (evaluates_lowerExpr hRoom hMap hLeft hReads.1 (by omega)) (fun σ' hSame => ?_) (by omega)
      span).steps hImage
    exact evaluates_lowerExpr hRoom hMap hRight (hReads.2.same hSame (Nat.le_add_right _ _))
      (by omega)

end

/-! ### Two operands on the stack -/

def nested : Expr :=
  let name := fun text => Expr.ref ⟨text, .nowhere⟩
  .binary .sub (.int "300" .nowhere)
    (.binary .sub (name "g") (.binary .add (name "k") (name "g") .nowhere) .nowhere) .nowhere

/-- Inside a procedure with the variables `j`, a `long`, and `k`, an `integer`. -/
def amidLocals : Lowering.State :=
  { Lowering.State.initial with
    symbols := (Symbols.ofBuiltins.define "g" (.var (.declared .long true false))).openLocal.define "k"
      (.var (.declared .integer false false))
    frames := (Frames.empty.openLocal.push "j" 2).push "k" 1 }

def nestedText : String :=
  "var g: long; procedure p(j: long; k: integer); begin g := 300 - (g - (k + g)) end;
   begin p(1, 2) end."

theorem nested_evaluates : ∃ c listing image lines σ rest s t,
    compile nestedText ⟨0, false⟩ = .ok c ∧ c.listing = some listing ∧
    assemble? (listingText listing) = some image ∧ HasRoom image.addr ∧
    nested.spilled (width true).toNat = 4 ∧
    Gives (lowerExpr .load true nested) amidLocals lines σ () ∧
    At listing (lines ++ rest) s.pc ∧ Poised amidLocals 249 252 s ∧
    s.valueAt (zone image.addr + 251) false = 200 ∧
    Path image s.calls.length 0 s t ∧ At listing rest t.pc ∧ t.acc true = 500 ∧
    Poised σ 249 252 t := by
  obtain ⟨c, listing, hCompile, hListing, hTest⟩ := exists_listing
    (p := fun listing => decide (cellAddress (cellCount listing) + 256 ≤ 0xFFF) &&
      decide ((lowerExpr .load true nested amidLocals).lines <:+: listing))
    (by
      rw [show compile nestedText _ = _ from compile_ofList _ _]
      decide +kernel :
        ((compile nestedText ⟨0, false⟩).toOption.bind (·.listing)).any _ = true)
  simp only [Bool.and_eq_true, decide_eq_true_eq] at hTest
  obtain ⟨hSmall, pre, rest, hPlace⟩ := hTest
  have h := compile_listing hCompile hListing
  obtain ⟨image, z, hImage, hZone, hTop⟩ := h.exists_image hSmall
  obtain ⟨code, hData⟩ := h.code.split
  have hNames : (parse nestedText).1.globals.map (·.name.name) = ["g"] := by
    rw [show parse nestedText = _ from parse_ofList _]
    decide +kernel
  rw [hNames] at hData
  have hRoom := hasRoom_of_get? hZone hTop
  have hSupported : nested.Supported := by
    simp only [nested, Expr.Supported]
    decide +kernel
  have hOuter : amidLocals.symbols.get? "g" = some (.var (.declared .long true false)) := by
    decide +kernel
  have hGlobal : amidLocals.Reaches ["g"] 249 252 "g" := .global hOuter (by decide)
  have hOffset : amidLocals.frames.offset? "k" = some 2 := by decide +kernel
  have hInfo : amidLocals.symbols.get? "k" = some (.var (.declared .integer false false)) := by
    decide +kernel
  have hReads : nested.Reads (amidLocals.Reaches ["g"] 249 252) :=
    ⟨trivial, hGlobal, .slot hInfo hOffset (by decide), hGlobal⟩
  have hNeed : nested.spilled (width true).toNat = 4 := by decide
  obtain ⟨⟨lines, σ, hLower, -, hRuns⟩, -⟩ := lowerExpr_evaluates
    (h.wellFormed.assembled hImage) hData hRoom hSupported hReads
    (by rw [hNeed] : 252 + nested.spilled (width true).toNat ≤ 256)
  obtain rfl : (lowerExpr .load true nested amidLocals).lines = lines := by rw [hLower]
  let s := ((({ initial with pc := place pre }.setReg .ones 0xFF).setReg .base 249).setReg
    .stack 252).poke (zone image.addr + 251) 200
  have hAt : At listing ((lowerExpr .load true nested amidLocals).lines ++ rest) s.pc :=
    ⟨pre, by rw [← hPlace, List.append_assoc], rfl⟩
  have hs : Poised amidLocals 249 252 s := by
    refine ⟨?_, ?_, ?_⟩ <;> simp +decide [s]
  have hByte : s.byte (zone image.addr + 251) = 200 := by
    have hIn : zone image.addr + 251 < memorySize := by
      unfold HasRoom at hRoom
      show _ < 0x1000
      omega
    rw [State.byte_poke _ _ _ _ hIn, if_pos rfl]
  have hk : s.valueAt (zone image.addr + 251) false = 200 := by
    simp [State.valueAt, hByte, word]
  obtain ⟨t, hSteps, ht, hAcc, -⟩ := hRuns s hs
  obtain ⟨hPath, hAfter, -⟩ := hSteps rest hAt
  refine ⟨c, listing, image, _, σ, rest, s, t, hCompile, hListing, hImage, hRoom, hNeed, hLower,
    hAt, hs, hk, hPath, hAfter, ?_, ht⟩
  have hLocal : amidLocals.values image.addr 249 s "k" = 200 := by
    simp only [Lowering.State.values, Lowering.State.place, hInfo, hOffset]
    exact hk
  have hLiteral : Nat.ofDigitChars 10 "300".toList 0 = 300 := by decide +kernel
  have hValue : nested.value (amidLocals.values image.addr 249 s) = 500 := by
    simp only [nested, Expr.value, hLocal, hLiteral]
    omega
  simp only [hValue] at hAcc
  exact Int.ofNat.inj hAcc

end ChipPascal
