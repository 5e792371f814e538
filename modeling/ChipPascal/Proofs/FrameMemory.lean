import ChipPascal.Proofs.DataLayout

/-!
# What memory holds

While a body runs, memory holds the globals and the recorded digits below the stack zone, and the
variables of the body in its frame. The straight-line parts of statements are carried out here:
stores, staged arguments, decimal digits, and the making and dropping of frames.
-/

namespace ChipPascal

open Machine Line
open Lowering hiding State

def Machine.State.digitsAt (s : State) (a : Nat) : List Nat :=
  [(s.byte a).toNat, (s.byte (a + 1)).toNat, (s.byte (a + 2)).toNat]

/-- The globals and the digits are those of the world. -/
structure HoldsWorld (program : Program) (addr : Label → UInt16) (w : World) (s : State) :
    Prop where
  global : ∀ name decl, findVar program.globals name = some decl →
    s.valueAt (addr (.global name)).toNat decl.typeOf.isWide = w.globals name
  bcdLow : s.digitsAt (addr .bcdLow).toNat = w.bcdLow
  bcdHigh : s.digitsAt (addr .bcdHigh).toNat = w.bcdHigh

def HoldsLocals (addr : Label → UInt16) (vars : List VarDecl) (b : Nat) (locals : Store)
    (s : State) : Prop :=
  ∀ name decl, findVar vars name = some decl →
    s.valueAt (zone addr + b + varOffset vars name) decl.typeOf.isWide = locals name

/-- A body with the local variables `vars` has its frame `b` bytes up a stack that is `live`
bytes high. -/
structure Framed (program : Program) (addr : Label → UInt16) (vars : List VarDecl)
    (b live : Nat) : Prop where
  named : program.WellNamed
  vars_named : NamedVars [] vars
  data : DataMap addr (program.globals.map (·.name.name))
  room : HasRoom addr
  size : b + varBytes vars ≤ live
  live_le : live ≤ stackLimit

theorem name_of_findVar {vars : List VarDecl} {name : String} {decl : VarDecl}
    (h : findVar vars name = some decl) : decl ∈ vars ∧ decl.name.name = name :=
  ⟨List.mem_of_find?_eq_some h, by simpa using List.find?_some h⟩

theorem findVar_of_mem {vars : List VarDecl} (hNodup : (vars.map (·.name.name)).Nodup)
    {decl : VarDecl} (h : decl ∈ vars) : findVar vars decl.name.name = some decl := by
  induction vars with
  | nil => simp at h
  | cons first vars ih =>
    rw [List.map_cons, List.nodup_cons] at hNodup
    rcases List.mem_cons.mp h with rfl | hRest
    · simp [findVar]
    · have hNe : first.name.name ≠ decl.name.name := by
        intro hEq
        exact hNodup.1 (hEq ▸ List.mem_map_of_mem hRest)
      simpa [findVar, hNe] using ih hNodup.2 hRest

theorem mem_names_of_findVar {vars : List VarDecl} {name : String} {decl : VarDecl}
    (h : findVar vars name = some decl) : name ∈ vars.map (·.name.name) := by
  obtain ⟨hMem, rfl⟩ := name_of_findVar h
  exact List.mem_map_of_mem hMem

section

variable {program : Program} {addr : Label → UInt16} {vars : List VarDecl} {b live : Nat}
  {w : World} {locals : Store} {s t : State}

theorem ValueType.bytes_le (type : ValueType) : type.bytes ≤ 2 := by
  cases type <;> decide

/-- A global lies below the digits. -/
theorem DataMap.global_le (h : DataMap addr (program.globals.map (·.name.name))) {name : String}
    {decl : VarDecl} (hFind : findVar program.globals name = some decl) (type : ValueType) :
    (addr (.global name)).toNat + type.bytes ≤ (addr .bcdLow).toNat := by
  have hLe := h.global name (mem_names_of_findVar hFind)
  have hBytes := type.bytes_le
  omega

theorem Env.place_global {env : Env} {name : String} {info : VarInfo}
    (h : info.isGlobal = true) : env.place addr b name info = (addr (.global name)).toNat := by
  simp [Env.place, h]

theorem Env.place_local {name : String} {info : VarInfo} {decl : VarDecl}
    (h : info.isGlobal = false) (hFind : findVar vars name = some decl) :
    (program.env vars).place addr b name info = zone addr + b + varOffset vars name := by
  have hPlace : Slot.place? name (program.env vars).slots = some (varOffset vars name) :=
    place?_slot hFind
  simp [Env.place, h, hPlace]

/-- All that a body can name lies below the top of the stack. -/
theorem Framed.placed (h : Framed program addr vars b live) :
    Placed (program.env vars) addr b live := by
  have hSize := h.size
  refine ⟨h.room, h.live_le, ?_⟩
  intro name info hLook
  cases hGlobal : info.isGlobal with
  | true =>
    obtain ⟨-, decl, hFind, -⟩ := look_global h.named h.vars_named hLook hGlobal
    have hLe := h.data.global_le hFind info.type
    have hHigh := h.data.bcdHigh
    have hZone := h.data.stackZone
    rw [Env.place_global hGlobal]
    omega
  | false =>
    obtain ⟨decl, hFind, hType⟩ := look_local h.named h.vars_named hLook hGlobal
    have hLe := varOffset_add_le hFind
    rw [Env.place_local hGlobal hFind, hType]
    omega

/-- Memory that holds the world and the locals holds the store of the body. -/
theorem Framed.holdsStore (h : Framed program addr vars b live) (hw : HoldsWorld program addr w s)
    (hLocals : HoldsLocals addr vars b locals s) :
    HoldsStore (program.env vars) addr b (storeIn vars w.globals locals) s := by
  intro name info hLook
  cases hGlobal : info.isGlobal with
  | true =>
    obtain ⟨hNone, decl, hFind, hType⟩ := look_global h.named h.vars_named hLook hGlobal
    rw [Env.place_global hGlobal, hType, hw.global name decl hFind]
    simp [storeIn, hNone]
  | false =>
    obtain ⟨decl, hFind, hType⟩ := look_local h.named h.vars_named hLook hGlobal
    rw [Env.place_local hGlobal hFind, hType, hLocals name decl hFind]
    simp [storeIn, hFind]

theorem digitsAt_congr {a : Nat} (h : ∀ c, a ≤ c → c < a + 3 → t.byte c = s.byte c) :
    t.digitsAt a = s.digitsAt a := by
  have h₀ := h a (by omega) (by omega)
  have h₁ := h (a + 1) (by omega) (by omega)
  have h₂ := h (a + 2) (by omega) (by omega)
  simp only [State.digitsAt, h₀, h₁, h₂]

theorem valueAt_type_congr {a : Nat} {type : ValueType}
    (h : ∀ c, a ≤ c → c < a + type.bytes → t.byte c = s.byte c) :
    t.valueAt a type.isWide = s.valueAt a type.isWide :=
  valueAt_congr fun c hc hc' => h c hc (type.toNat_width ▸ hc')

/-- The world lies below the stack. -/
theorem HoldsWorld.of_bytes (hw : HoldsWorld program addr w s)
    (hData : DataMap addr (program.globals.map (·.name.name)))
    (h : ∀ a < zone addr, t.byte a = s.byte a) : HoldsWorld program addr w t := by
  have hHigh := hData.bcdHigh
  have hZone := hData.stackZone
  refine ⟨?_, ?_, ?_⟩
  · intro name decl hFind
    have hLe := hData.global_le hFind decl.typeOf
    rw [valueAt_type_congr fun c _ hc => h c (by omega)]
    exact hw.global name decl hFind
  · rw [digitsAt_congr fun c _ hc => h c (by omega), hw.bcdLow]
  · rw [digitsAt_congr fun c _ hc => h c (by omega), hw.bcdHigh]

/-- The variables of a frame lie within its bytes. -/
theorem HoldsLocals.of_bytes (hLocals : HoldsLocals addr vars b locals s)
    (h : ∀ a, zone addr + b ≤ a → a < zone addr + b + varBytes vars → t.byte a = s.byte a) :
    HoldsLocals addr vars b locals t := by
  intro name decl hFind
  have hLe := varOffset_add_le hFind
  rw [valueAt_type_congr fun c hc hc' => h c (by omega) (by omega)]
  exact hLocals name decl hFind

end

/-! ### Bodies -/

/-- The machine is in a body with the local variables `vars`, between statements. -/
structure Matches (program : Program) (addr : Label → UInt16) (vars : List VarDecl) (b live : Nat)
    (w : World) (locals : Store) (last : UInt8) (s : State) : Prop where
  ones : s.reg .ones = 0xFF
  base : s.reg .base = UInt8.ofNat b + last
  stack : s.reg .stack = UInt8.ofNat live
  world : HoldsWorld program addr w s
  held : HoldsLocals addr vars b locals s

def SameStack (addr : Label → UInt16) (n : Nat) (s t : State) : Prop :=
  ∀ a, zone addr ≤ a → a < zone addr + n → t.byte a = s.byte a

theorem SameStack.trans {addr : Label → UInt16} {n : Nat} {s t u : State}
    (h : SameStack addr n s t) (h' : SameStack addr n t u) : SameStack addr n s u :=
  fun a ha ha' => (h' a ha ha').trans (h a ha ha')

theorem SameStack.mono {addr : Label → UInt16} {m n : Nat} {s t : State}
    (h : SameStack addr n s t) (hLe : m ≤ n) : SameStack addr m s t :=
  fun a ha ha' => h a ha (by omega)

section

variable {program : Program} {addr : Label → UInt16} {vars : List VarDecl} {b live : Nat}
  {w : World} {locals : Store} {last last' : UInt8} {s t : State}

theorem Framed.toNat_live (h : Framed program addr vars b live) :
    (UInt8.ofNat live).toNat = live := by
  have hLe : live ≤ 255 := h.live_le
  exact UInt8.toNat_ofNat_of_lt' (Nat.lt_succ_of_le hLe)

/-- A state that matches is ready to evaluate expressions. -/
theorem Matches.ready (hs : Matches program addr vars b live w locals last s)
    (h : Framed program addr vars b live) :
    Ready (program.env vars) addr b live (storeIn vars w.globals locals) last s := by
  have hLive : (s.reg .stack).toNat = live := by rw [hs.stack, h.toNat_live]
  exact ⟨h.holdsStore hs.world hs.held, hs.ones, hs.base, Nat.le_of_eq hLive.symm⟩

/-- What changes only bytes above the stack leaves the body where it is. -/
theorem Matches.of_spares (hs : Matches program addr vars b live w locals last s)
    (h : Framed program addr vars b live) (hSpares : Spares (Below addr s) s t)
    (hBase : t.reg .base = UInt8.ofNat b + last') :
    Matches program addr vars b live w locals last' t ∧ SameStack addr live s t := by
  have hSize := h.size
  have hByte : ∀ a < zone addr + live, t.byte a = s.byte a := by
    intro a ha
    refine hSpares.byte a ?_
    show a < _
    rw [hs.stack, h.toNat_live]
    exact ha
  refine ⟨⟨hSpares.ones.trans hs.ones, hBase, hSpares.stack.trans hs.stack, ?_, ?_⟩, ?_⟩
  · exact hs.world.of_bytes h.data fun a ha => hByte a (by omega)
  · exact hs.held.of_bytes fun a _ ha => hByte a (by omega)
  · exact fun a _ ha => hByte a ha

theorem acc_eq_valueAs {store : Store} {type : ValueType} {e : Expr}
    (h : Cong type.isWide (s.acc type.isWide) (e.value store)) :
    s.acc type.isWide = e.valueAs store type := by
  have hLow : (s.reg .accLow).toNat < 256 := (s.reg .accLow).toNat_lt
  have hHigh : (s.reg .accHigh).toNat < 256 := (s.reg .accHigh).toNat_lt
  have hZero : (0 : UInt8).toNat = 0 := rfl
  cases type <;>
    simp only [Cong, State.acc, word, ValueType.isWide, Expr.valueAs, ValueType.modulus, if_true,
      if_false, Bool.false_eq_true, hZero] at h ⊢ <;>
    omega

/-- The code of an expression brings its value, cut to the type it is needed in, to the
accumulator. -/
theorem Framed.run_value (h : Framed program addr vars b live)
    (hs : Matches program addr vars b live w locals last s) {type : ValueType} {e : Expr}
    {lines : List Line} (hCode : ExprCode (program.env vars) .load type.isWide e last lines last')
    (hFits : live + e.spilled type.bytes ≤ stackLimit) :
    ∃ t, runLines addr lines s = some t ∧ Matches program addr vars b live w locals last' t ∧
      SameStack addr live s t ∧
      t.acc type.isWide = e.valueAs (storeIn vars w.globals locals) type := by
  have hFits' : (s.reg .stack).toNat + e.spilled (width type.isWide).toNat ≤ 255 := by
    rw [hs.stack, h.toNat_live, type.toNat_width]
    exact hFits
  obtain ⟨t, hRun, hSpares, hBase, hCong⟩ :=
    run_expr h.placed hCode (.inl rfl) (hs.ready h) hFits'
  obtain ⟨ht, hSame⟩ := hs.of_spares h hSpares hBase
  exact ⟨t, hRun, ht, hSame, acc_eq_valueAs hCong⟩

/-! ### Assignments -/

theorem bulk_size (type : ValueType) :
    Reg.bulk type.size = if type.isWide then .loadHigh else .loadLow := by
  cases type <;> rfl

/-- A store writes the bytes of the type and no others. -/
theorem run_store (addr : Label → UInt16) (type : ValueType)
    (h : s.index.toNat + 1 < memorySize) :
    ∃ t, runLines addr (storeAccumulator type) s = some t ∧
      Spares (fun a => a < s.index.toNat ∨ s.index.toNat + type.bytes ≤ a) s t ∧
      t.reg .base = s.reg .base ∧
      t.valueAt s.index.toNat type.isWide = s.acc type.isWide := by
  have hLow : s.index.toNat < memorySize := Nat.lt_of_succ_lt h
  cases type <;>
    simp +decide [storeAccumulator, bulk_size, ValueType.bytes, Spares.iff, 
      runLines_save_low, runLines_save_high, hLow, h, State.byte_poke, State.valueAt, State.acc]
  · intro a ha hEq
    omega
  · intro a ha
    rw [if_neg (by omega), if_neg (by omega)]

/-- Only the bytes of the variable `name` have changed, to its new value. -/
theorem HoldsLocals.set {name : String} {decl : VarDecl} {value : Nat}
    (hLocals : HoldsLocals addr vars b locals s) (hFind : findVar vars name = some decl)
    (hByte : ∀ a, a < zone addr + b + varOffset vars name ∨
      zone addr + b + varOffset vars name + decl.typeOf.bytes ≤ a → t.byte a = s.byte a)
    (hValue : t.valueAt (zone addr + b + varOffset vars name) decl.typeOf.isWide = value) :
    HoldsLocals addr vars b (locals.set name value) t := by
  intro other decl' hFind'
  by_cases hName : other = name
  · subst hName
    rw [hFind] at hFind'
    cases hFind'
    rw [hValue]
    simp [Store.set]
  · have hApart := varOffset_apart hName hFind' hFind
    rw [valueAt_type_congr fun c hc hc' => hByte c (by omega), hLocals other decl' hFind']
    simp [Store.set, hName]

/-- Storing at a global changes it, and no other part of the world. -/
theorem HoldsWorld.set {name : String} {decl : VarDecl} {value : Nat}
    (hw : HoldsWorld program addr w s)
    (hData : DataMap addr (program.globals.map (·.name.name)))
    (hFind : findVar program.globals name = some decl)
    (hByte : ∀ a, a < (addr (.global name)).toNat ∨
      (addr (.global name)).toNat + decl.typeOf.bytes ≤ a → t.byte a = s.byte a)
    (hValue : t.valueAt (addr (.global name)).toNat decl.typeOf.isWide = value) :
    HoldsWorld program addr { w with globals := w.globals.set name value } t := by
  have hLe := hData.global_le hFind decl.typeOf
  have hHigh := hData.bcdHigh
  refine ⟨?_, ?_, ?_⟩
  · intro other decl' hFind'
    by_cases hName : other = name
    · subst hName
      rw [hFind] at hFind'
      cases hFind'
      rw [hValue]
      simp [Store.set]
    · have hApart := hData.apart other (mem_names_of_findVar hFind') name
        (mem_names_of_findVar hFind) hName
      have hBytes := decl.typeOf.bytes_le
      have hBytes' := decl'.typeOf.bytes_le
      rw [valueAt_type_congr fun c hc hc' => hByte c (by omega), hw.global other decl' hFind']
      simp [Store.set, hName]
  · rw [digitsAt_congr fun c hc _ => hByte c (by omega), hw.bcdLow]
  · rw [digitsAt_congr fun c hc _ => hByte c (by omega), hw.bcdHigh]

theorem Framed.run_assign (h : Framed program addr vars b live)
    (hs : Matches program addr vars b live w locals last s) {name note : String} {info : VarInfo}
    {value : Expr} {first second : List Line} {last₁ last₂ : UInt8}
    (hInfo : (program.env vars).look name = some (.var info))
    (hValue : ExprCode (program.env vars) .load info.type.isWide value last first last₁)
    (hAddress : AddressCode (program.env vars).slots name note info.isGlobal last₁ second last₂)
    (hFits : live + value.spilled info.type.bytes ≤ stackLimit) :
    ∃ t, runLines addr (first ++ (second ++ (storeAccumulator info.type ++ [blank]))) s = some t ∧
      Matches program addr vars b live
        (assignVar vars name (value.valueAs (storeIn vars w.globals locals) info.type) w locals).1
        (assignVar vars name (value.valueAs (storeIn vars w.globals locals) info.type) w locals).2
        last₂ t ∧
      SameStack addr b s t := by
  have hSize := h.size
  obtain ⟨t, hRun, ht, hSame, hAcc⟩ := h.run_value hs hValue hFits
  obtain ⟨u, hRun', hSpares, hBase, hAcc', hIndex⟩ := run_address h.placed hInfo hAddress ht.base
  obtain ⟨hu, hSame'⟩ := ht.of_spares h hSpares.of_everywhere hBase
  obtain ⟨v, hRun'', hSpares', hBase', hStored⟩ :=
    run_store addr info.type (hIndex ▸ h.placed.index_lt hInfo)
  rw [hAcc', hAcc, hIndex] at hStored
  have hByte : ∀ a, a < (program.env vars).place addr b name info ∨
      (program.env vars).place addr b name info + info.type.bytes ≤ a → v.byte a = u.byte a :=
    fun a ha => hSpares'.byte a (hIndex ▸ ha)
  have hLines : runLines addr (first ++ (second ++ (storeAccumulator info.type ++ [blank]))) s =
      some v := by
    rw [runLines_append hRun, runLines_append hRun', runLines_append hRun'']
    rfl
  have hOnes := hSpares'.ones.trans hu.ones
  have hStack := hSpares'.stack.trans hu.stack
  have hBelow : SameStack addr b s u := (hSame.trans hSame').mono (by omega)
  refine ⟨v, hLines, ?_⟩
  cases hGlobal : info.isGlobal with
  | true =>
    obtain ⟨hNone, decl, hFind, hType⟩ := look_global h.named h.vars_named hInfo hGlobal
    have hLe := h.data.global_le hFind decl.typeOf
    have hHigh := h.data.bcdHigh
    have hZone := h.data.stackZone
    rw [Env.place_global hGlobal, hType] at hByte hStored
    simp only [assignVar, hNone, hType, Option.isSome_none, Bool.false_eq_true, if_false]
    refine ⟨⟨hOnes, hBase'.trans hBase, hStack, ?_, ?_⟩, ?_⟩
    · exact hu.world.set h.data hFind hByte hStored
    · exact hu.held.of_bytes fun a ha _ => hByte a (by omega)
    · exact hBelow.trans fun a ha _ => hByte a (by omega)
  | false =>
    obtain ⟨decl, hFind, hType⟩ := look_local h.named h.vars_named hInfo hGlobal
    rw [Env.place_local hGlobal hFind, hType] at hByte hStored
    simp only [assignVar, hFind, hType, Option.isSome_some, if_true]
    refine ⟨⟨hOnes, hBase'.trans hBase, hStack, ?_, ?_⟩, ?_⟩
    · exact hu.world.of_bytes h.data fun a ha => hByte a (by omega)
    · exact hu.held.set hFind hByte hStored
    · exact hBelow.trans fun a _ ha => hByte a (by omega)

/-! ### Decimal digits -/

/-- The three digits that the machine writes are the decimal ones. -/
theorem toNat_digits (x : UInt8) :
    [(x / 100).toNat, (x / 10 % 10).toNat, (x % 10).toNat] = decimalDigits x.toNat := by
  simp [decimalDigits]

theorem run_decimal (addr : Label → UInt16) (l : Label) (x : Reg) (note : Option String)
    (s : State) (h : (addr l).toNat + 2 < memorySize) :
    ∃ t, runLines addr [.instr (.index l) note, plain (.decimal x)] s = some t ∧
      (∀ y, t.reg y = s.reg y) ∧
      (∀ a, a < (addr l).toNat ∨ (addr l).toNat + 3 ≤ a → t.byte a = s.byte a) ∧
      t.digitsAt (addr l).toNat = decimalDigits (s.reg x).toNat := by
  have h₁ : (addr l).toNat + 1 < memorySize := by omega
  have h₀ : (addr l).toNat < memorySize := by omega
  simp [runLines_decimal, h, h₁, h₀, State.byte_poke, State.digitsAt, ← toNat_digits]
  intro a ha
  rw [if_neg (by omega), if_neg (by omega), if_neg (by omega)]

theorem DataMap.digits_lt (h : DataMap addr (program.globals.map (·.name.name)))
    (hRoom : HasRoom addr) : (addr .bcdHigh).toNat + 2 < memorySize := by
  have hZone := h.stackZone
  unfold HasRoom at hRoom
  show _ < 0x1000
  omega

/-- The digits of the accumulator are written to the digit zones, which belong to the world. -/
theorem Framed.run_bcd (h : Framed program addr vars b live)
    (hs : Matches program addr vars b live w locals last s) {value : Nat}
    (hAcc : s.acc true = value) :
    ∃ t, runLines addr (bcdCode ++ [blank]) s = some t ∧
      Matches program addr vars b live (w.recordBcd value) locals last t ∧
      SameStack addr live s t := by
  have hHigh := h.data.bcdHigh
  have hZone := h.data.stackZone
  have hLt := h.data.digits_lt h.room
  obtain ⟨t, hRun, hReg, hByte, hDigits⟩ :=
    run_decimal addr .bcdLow .accLow (some "make_bcd") s (by omega)
  obtain ⟨u, hRun', hReg', hByte', hDigits'⟩ := run_decimal addr .bcdHigh .accHigh none t hLt
  have hLines : runLines addr (bcdCode ++ [blank]) s = some u :=
    (runLines_append hRun).trans ((runLines_append hRun').trans rfl)
  have hAbove : ∀ a, (addr .bcdHigh).toNat + 3 ≤ a → u.byte a = s.byte a :=
    fun a ha => (hByte' a (.inr ha)).trans (hByte a (by omega))
  have hLowByte : (s.reg .accLow).toNat < 256 := (s.reg .accLow).toNat_lt
  simp only [State.acc, if_true, word] at hAcc
  refine ⟨u, hLines, ⟨?_, ?_, ?_, ⟨?_, ?_, ?_⟩, ?_⟩, ?_⟩
  · rw [hReg', hReg, hs.ones]
  · rw [hReg', hReg, hs.base]
  · rw [hReg', hReg, hs.stack]
  · intro name decl hFind
    have hLe := h.data.global_le hFind decl.typeOf
    rw [valueAt_type_congr fun c _ hc =>
      (hByte' c (by omega)).trans (hByte c (by omega))]
    exact hs.world.global name decl hFind
  · rw [digitsAt_congr fun c _ hc => hByte' c (by omega), hDigits]
    show _ = decimalDigits (value % 256)
    congr 1
    omega
  · rw [hDigits', hReg]
    show _ = decimalDigits (value / 256)
    congr 1
    omega
  · exact hs.held.of_bytes fun a ha _ => hAbove a (by omega)
  · exact fun a ha _ => hAbove a (by omega)

theorem run_printBcd (l : Label) (h : (addr l).toNat + 2 < memorySize) (hOnes : s.reg .ones = 0xFF) :
    ∃ t, runLines addr (printBcd l) s = some t ∧ Spares Everywhere s t ∧
      t.reg .base = s.reg .base := by
  simp +decide [printBcd, runLines_load_three, h, Spares.iff, hOnes]

/-- An intrinsic without an argument changes nothing that matters. -/
theorem Framed.run_intrinsic (h : Framed program addr vars b live)
    (hs : Matches program addr vars b live w locals last s) (intrinsic : Intrinsic) :
    ∃ t, runLines addr (intrinsicCode intrinsic ++ [blank]) s = some t ∧
      Matches program addr vars b live w locals last t ∧ SameStack addr live s t := by
  have hLt := h.data.digits_lt h.room
  have hHigh := h.data.bcdHigh
  have hSpares : ∃ t, runLines addr (intrinsicCode intrinsic) s = some t ∧ Spares Everywhere s t ∧
      t.reg .base = s.reg .base := by
    cases intrinsic with
    | cls | breakpoint | makeBcd => simp [intrinsicCode, Spares.iff]
    | printBcd => exact run_printBcd .bcdLow (by omega) hs.ones
    | printBcdHigh => exact run_printBcd .bcdHigh hLt hs.ones
  obtain ⟨t, hRun, hSpares, hBase⟩ := hSpares
  obtain ⟨ht, hSame⟩ := hs.of_spares h hSpares.of_everywhere (hBase.trans hs.base)
  exact ⟨t, (runLines_append hRun).trans rfl, ht, hSame⟩

end

/-! ### Staged arguments -/

/-- The values lie one after the other from an address on. -/
def Laid (s : State) : Nat → List ValueType → List Nat → Prop
  | _, [], [] => True
  | a, type :: types, value :: values =>
    s.valueAt a type.isWide = value ∧ Laid s (a + type.bytes) types values
  | _, _, _ => False

def typeBytes : List ValueType → Nat
  | [] => 0
  | type :: types => type.bytes + typeBytes types

theorem Laid.of_bytes {s t : State} {a : Nat} {types : List ValueType} {values : List Nat}
    (h : Laid s a types values)
    (hByte : ∀ c, a ≤ c → c < a + typeBytes types → t.byte c = s.byte c) :
    Laid t a types values := by
  induction types generalizing a values with
  | nil =>
    cases values with
    | nil => trivial
    | cons value values => exact h.elim
  | cons type types ih =>
    cases values with
    | nil => exact h.elim
    | cons value values =>
      simp only [typeBytes] at hByte
      refine ⟨?_, ih h.2 fun c hc hc' => hByte c (by omega) (by omega)⟩
      rw [valueAt_type_congr fun c hc hc' => hByte c hc (by omega)]
      exact h.1

theorem eq_ok_of_fits {n : Nat} {α : Type} {x : Except Halt α} {a : α}
    (h : (fits n >>= fun _ => x) = .ok a) : n ≤ stackLimit ∧ x = .ok a := by
  unfold fits at h
  split at h
  · next hFits => exact ⟨hFits, h⟩
  · cases h

theorem exists_of_bind_pure {α β : Type} {x : Except Halt α} {f : α → β} {y : β}
    (h : (x >>= fun a => pure (f a)) = .ok y) : ∃ a, x = .ok a ∧ f a = y := by
  cases x with
  | error e => cases h
  | ok a => exact ⟨a, rfl, Except.ok.inj h⟩

section

variable {env : Env} {addr : Label → UInt16} {b top : Nat} {store : Store} {s : State}

theorem run_stage (h : HasRoom addr) (type : ValueType) (s : State) :
    ∃ t, runLines addr ([plain (.index .stackZone), plain (.addIndex .stack)]
        ++ storeAccumulator type ++ [plain (.addByte .stack type.size)]) s = some t ∧
      t.reg .stack = s.reg .stack + type.size ∧ t.reg .ones = s.reg .ones ∧
      t.reg .base = s.reg .base ∧
      (∀ a < zone addr + (s.reg .stack).toNat, t.byte a = s.byte a) ∧
      t.valueAt (zone addr + (s.reg .stack).toNat) type.isWide = s.acc type.isWide := by
  have hIndex := toNat_zone_add h (s.reg .stack)
  have hLow := zone_lt h (s.reg .stack)
  have hHigh := zone_succ_lt h (s.reg .stack)
  cases type <;>
    simp +decide [storeAccumulator, bulk_size, runLines_save_low, runLines_save_high, hIndex, hLow,
      hHigh, State.byte_poke, State.valueAt, State.acc]
  · intro a ha hEq
    omega
  · intro a ha
    rw [if_neg (by omega), if_neg (by omega)]

/-- The values of the arguments are laid on the stack in order. -/
theorem run_args (hPlaced : Placed env addr b top) {args : List (Expr × ValueType)}
    {last last' : UInt8} {lines : List Line} {values : List Nat}
    (h : ArgsCode env args last lines last') (hs : Ready env addr b top store last s)
    (hValues : stageArgs store (s.reg .stack).toNat args = .ok values) :
    ∃ t, runLines addr lines s = some t ∧
      (t.reg .stack).toNat = (s.reg .stack).toNat + typeBytes (args.map (·.2)) ∧
      t.reg .ones = s.reg .ones ∧ t.reg .base = UInt8.ofNat b + last' ∧
      (∀ a < zone addr + (s.reg .stack).toNat, t.byte a = s.byte a) ∧
      Laid t (zone addr + (s.reg .stack).toNat) (args.map (·.2)) values := by
  induction h generalizing s values with
  | nil last =>
    cases hValues
    exact ⟨s, rfl, rfl, rfl, hs.base, fun _ _ => rfl, trivial⟩
  | @cons arg type rest last first last₁ second last₂ hArg hRest ih =>
    obtain ⟨hSpilled, hStage⟩ := eq_ok_of_fits hValues
    obtain ⟨hBytes, hStage⟩ := eq_ok_of_fits hStage
    obtain ⟨values', hValues', rfl⟩ := exists_of_bind_pure hStage
    have hSpilled' : (s.reg .stack).toNat + arg.spilled (width type.isWide).toNat ≤ 255 := by
      rw [type.toNat_width]
      exact hSpilled
    obtain ⟨t, hRun, hSpares, hBase, hCong⟩ := run_expr hPlaced hArg (.inl rfl) hs hSpilled'
    have ht := hs.of_spares hPlaced hSpares hBase
    obtain ⟨u, hRun', hUp, hOnes, hBase', hByte, hValue⟩ := run_stage hPlaced.room type t
    rw [hSpares.stack] at hUp hByte hValue
    have hHeight : (u.reg .stack).toNat = (s.reg .stack).toNat + type.bytes := by
      rw [hUp, UInt8.toNat_add, type.toNat_size]
      have hLimit : (s.reg .stack).toNat + type.bytes ≤ 255 := hBytes
      omega
    have hu : Ready env addr b top store last₁ u := by
      refine ht.of_bytes hPlaced ?_ hOnes (hBase'.trans hBase) ?_
      · intro a (ha : a < _)
        rw [hSpares.stack] at ha
        exact hByte a ha
      · rw [hSpares.stack, hHeight]
        exact Nat.le_add_right _ _
    rw [← hHeight] at hValues'
    obtain ⟨v, hRun'', hUp', hOnes', hBase'', hByte', hLaid⟩ := ih hu hValues'
    rw [hHeight] at hByte' hLaid hUp'
    refine ⟨v, ?_, ?_, ?_, hBase'', ?_, ?_, ?_⟩
    · rw [runLines_append hRun, runLines_append hRun', hRun'']
    · rw [hUp', Nat.add_assoc]
      rfl
    · exact hOnes'.trans (hOnes.trans hSpares.ones)
    · intro a ha
      rw [hByte' a (by omega), hByte a ha, hSpares.byte a ha]
    · show v.valueAt _ type.isWide = _
      rw [valueAt_type_congr fun c _ hc => hByte' c (by omega), hValue]
      exact acc_eq_valueAs hCong
    · rw [← Nat.add_assoc] at hLaid
      exact hLaid

end

/-! ### Frames -/

section

variable {program : Program} {addr : Label → UInt16} {vars : List VarDecl} {b live : Nat}
  {w : World} {locals : Store} {last : UInt8} {s : State}

theorem Framed.run_settle (h : Framed program addr vars b live)
    (hs : Matches program addr vars b live w locals last s) :
    ∃ t, runLines addr (settleCode last) s = some t ∧
      Matches program addr vars b live w locals 0 t ∧ SameStack addr live s t ∧
      ∀ wide, t.acc wide = s.acc wide := by
  have hBack : UInt8.ofNat b + last + -last = UInt8.ofNat b + 0 := by
    rw [← UInt8.sub_eq_add_neg, UInt8.add_sub_cancel, UInt8.add_zero]
  have hRun : ∃ t, runLines addr (settleCode last) s = some t ∧ Spares Everywhere s t ∧
      t.reg .base = UInt8.ofNat b + 0 ∧ ∀ wide, t.acc wide = s.acc wide := by
    by_cases hLast : last = 0
    · subst hLast
      exact ⟨s, rfl, Spares.iff.mpr (by simp), hs.base, fun _ => rfl⟩
    · simp +decide [settleCode, hLast, Spares.iff, hs.base, hBack, State.acc]
  obtain ⟨t, hLines, hSpares, hBase, hAcc⟩ := hRun
  obtain ⟨ht, hSame⟩ := hs.of_spares h hSpares.of_everywhere hBase
  exact ⟨t, hLines, ht, hSame, hAcc⟩

/-- A frame is made above the byte that takes the base of the caller. -/
theorem run_enterFrame {s : State} (hLow : zone addr + (s.reg .stack).toNat < memorySize)
    (size : UInt8) :
    ∃ t, runLines addr (enterFrame size) s = some t ∧
      t.reg .stack = s.reg .stack + 1 + size ∧ t.reg .ones = s.reg .ones ∧
      t.reg .base = s.reg .stack + 1 ∧
      t.byte (zone addr + (s.reg .stack).toNat) = s.reg .base ∧
      ∀ a, a ≠ zone addr + (s.reg .stack).toNat → t.byte a = s.byte a := by
  have hIndex := toNat_zone_add_of_lt hLow
  by_cases hSize : size = 0
  · simp +decide [enterFrame, hSize, runLines_save_low, hIndex, hLow, State.byte_poke]
    exact fun a ha hEq => absurd hEq ha
  · simp +decide [enterFrame, hSize, runLines_save_low, hIndex, hLow, State.byte_poke]
    exact fun a ha hEq => absurd hEq ha

/-- Leaving a frame restores the base and the top of the caller. -/
theorem run_leaveFrame (h : HasRoom addr) {height : UInt8} (hBase : s.reg .base + 0xFF = height) :
    ∃ t, runLines addr leaveFrame s = some t ∧
      t.reg .stack = height ∧ t.reg .ones = s.reg .ones ∧
      t.reg .base = s.byte (zone addr + height.toNat) ∧ ∀ a, t.byte a = s.byte a := by
  have hIndex := toNat_zone_add h height
  have hLow := zone_lt h height
  simp +decide [leaveFrame, runLines_load_low, hBase, hIndex, hLow]

theorem varOffset_cons_self {decl : VarDecl} {name : String} (h : decl.name.name = name) :
    varOffset (decl :: vars) name = 0 := by
  have hSlot : decl.slot.name = name := h
  simp [varOffset, Slot.place?, hSlot]

theorem varOffset_cons_ne {decl found : VarDecl} {name : String} (h : decl.name.name ≠ name)
    (hFind : findVar vars name = some found) :
    varOffset (decl :: vars) name = decl.typeOf.bytes + varOffset vars name := by
  have hSlot : decl.slot.name ≠ name := h
  show (Slot.place? name (decl.slot :: vars.map (·.slot))).getD 0 = _
  rw [Slot.place?, if_neg hSlot, place?_slot hFind]
  simp [toNat_slot_size]

/-- The places where a caller lays arguments are those where the callee has its parameters. -/
theorem Laid.find {params rest : List VarDecl} {a : Nat} {values : List Nat} {name : String}
    {decl : VarDecl} (h : Laid s a (params.map (·.typeOf)) values)
    (hFind : findVar (params ++ rest) name = some decl) :
    (∃ value, ((params.zip values).find? fun p => p.1.name.name = name) = some (decl, value) ∧
        s.valueAt (a + varOffset (params ++ rest) name) decl.typeOf.isWide = value) ∨
      (((params.zip values).find? fun p => p.1.name.name = name) = none ∧
        findVar rest name = some decl) := by
  induction params generalizing a values with
  | nil => exact .inr ⟨rfl, hFind⟩
  | cons param params ih =>
    cases values with
    | nil => exact h.elim
    | cons value values =>
      by_cases hName : param.name.name = name
      · obtain rfl : param = decl := by simpa [findVar, hName] using hFind
        refine .inl ⟨value, by simp [hName], ?_⟩
        rw [List.cons_append, varOffset_cons_self hName]
        exact h.1
      · have hRest : findVar (params ++ rest) name = some decl := by
          simpa [findVar, hName] using hFind
        have hOffset : a + varOffset (param :: params ++ rest) name =
            a + param.typeOf.bytes + varOffset (params ++ rest) name := by
          rw [List.cons_append, varOffset_cons_ne hName hRest, Nat.add_assoc]
        rw [hOffset]
        simpa [hName] using ih h.2 hRest

/-- An argument that was staged is the value of its parameter. -/
theorem Laid.param {params rest : List VarDecl} {a i : Nat} {values : List Nat} {value : Nat}
    {param : VarDecl} (h : Laid s a (params.map (·.typeOf)) values)
    (hNodup : ((params ++ rest).map (·.name.name)).Nodup) (hParam : params[i]? = some param)
    (hValue : values[i]? = some value) :
    s.valueAt (a + varOffset (params ++ rest) param.name.name) param.typeOf.isWide = value := by
  induction params generalizing a i values with
  | nil => simp at hParam
  | cons first params ih =>
    cases values with
    | nil => exact h.elim
    | cons head values =>
      rw [List.cons_append, List.map_cons, List.nodup_cons] at hNodup
      cases i with
      | zero =>
        obtain rfl := Option.some.inj hParam
        obtain rfl := Option.some.inj hValue
        rw [List.cons_append, varOffset_cons_self rfl]
        exact h.1
      | succ i =>
        rw [List.getElem?_cons_succ] at hParam hValue
        have hMem : param ∈ params ++ rest :=
          List.mem_append_left rest (List.mem_of_getElem? hParam)
        have hNe : first.name.name ≠ param.name.name := by
          intro hEq
          exact hNodup.1 (hEq ▸ List.mem_map_of_mem hMem)
        rw [List.cons_append, varOffset_cons_ne hNe (findVar_of_mem hNodup.2 hMem), ← Nat.add_assoc]
        exact ih h.2 hNodup.2 hParam hValue

end

end ChipPascal
