import ChipPascal.Proofs.FlowCheck
import ChipPascal.Proofs.Loading

/-!
# Compiled code does not go wrong

A state is on course if what the flow check tells of its place is true of it. Every step from there
either halts or leads to a state that is on course again, and it writes nowhere but to the data of
the listing and the bytes of the stack. Nothing is asked of the values that the program computes:
the stack pointer may wrap around, and calls may be nested without end.
-/

namespace ChipPascal

open Machine Line
open Lowering hiding State

/-! ### Writing -/

namespace Machine

def Op.Writes (op : Op) (s : State) (a : Nat) : Prop :=
  match op with
  | .save x => s.index.toNat ≤ a ∧ a ≤ s.index.toNat + x.val
  | .decimal _ => s.index.toNat ≤ a ∧ a ≤ s.index.toNat + 2
  | _ => False

def Writes (image : Image) (s : State) (a : Nat) : Prop :=
  ∃ statement op, image.fetch? s.pc = some (.code statement (.ok op)) ∧ op.Writes s a

theorem getElem?_writeRegisters {v : Registers} {start n a : Nat} {memory : Memory}
    (h : a < start ∨ start + n ≤ a) : (writeRegisters v start n memory)[a]? = memory[a]? := by
  induction n with
  | zero => rfl
  | succ n ih =>
    have hNe : start + n ≠ a := by omega
    simp [writeRegisters, hNe, ih (by omega)]

/-- Other bytes stay as they are. -/
theorem byte_of_not_writes {op : Op} {s t : State} {a : Nat}
    (h : execute op s = .ok (.running t)) (ha : ¬ op.Writes s a) : t.byte a = s.byte a := by
  cases op with
  | save x =>
    simp only [execute] at h
    split at h
    · cases h
      have hOutside : a < s.index.toNat ∨ s.index.toNat + (x.val + 1) ≤ a := by
        simp only [Op.Writes] at ha
        omega
      simp [State.byte, getElem?_writeRegisters hOutside]
    · cases h
  | decimal x =>
    simp only [execute] at h
    split at h
    · cases h
      simp only [Op.Writes] at ha
      have h₀ : s.index.toNat ≠ a := by omega
      have h₁ : s.index.toNat + 1 ≠ a := by omega
      have h₂ : s.index.toNat + 2 ≠ a := by omega
      simp [State.byte, writeDecimal, h₀, h₁, h₂]
    · cases h
  | load x =>
    simp only [execute] at h
    split at h
    · cases h
      rfl
    · cases h
  | skipNe x y | skipNeByte x k =>
    simp only [execute, State.skip] at h
    split at h
    · split at h
      · cases h
        rfl
      · cases h
    · cases h
      rfl
  | jump address =>
    simp only [execute] at h
    split at h
    · cases h
    · cases h
      rfl
  | ret =>
    simp only [execute] at h
    split at h
    · cases h
    · cases h
      rfl
  | _ =>
    cases h
    rfl

end Machine

/-! ### Where the index register points -/

def Aim.Holds (addr : Label → UInt16) (names : List String) (i : UInt16) : Aim → Prop
  | anywhere => True
  | word => ∃ name ∈ names, i = addr (.global name)
  | digits => i = addr .bcdLow ∨ i = addr .bcdHigh
  | zone => i = addr .stackZone
  | stack => ChipPascal.zone addr ≤ i.toNat ∧ i.toNat ≤ ChipPascal.zone addr + 255

def dataLabels (names : List String) : List Label :=
  names.map .global ++ [.bcdLow, .bcdHigh, .stackZone]

section

variable {addr : Label → UInt16} {names : List String} {aim aim' : Aim} {i : UInt16}

/-- Two bytes from a word on are within the data. -/
theorem Aim.Holds.of_isWord (h : aim.Holds addr names i) (hWord : aim.isWord = true)
    (hData : DataMap addr names) :
    (∃ l ∈ dataLabels names, (addr l).toNat ≤ i.toNat) ∧ i.toNat ≤ ChipPascal.zone addr + 255 := by
  cases aim with
  | anywhere | digits | zone => simp [Aim.isWord] at hWord
  | word =>
    obtain ⟨name, hName, rfl⟩ := h
    have hLow := hData.global name hName
    have hHigh := hData.bcdHigh
    have hZone := hData.stackZone
    exact ⟨⟨.global name, by simpa [dataLabels] using hName, Nat.le_refl _⟩, by omega⟩
  | stack => exact ⟨⟨.stackZone, by simp [dataLabels], h.1⟩, h.2⟩

theorem Aim.Holds.of_digits (h : Aim.digits.Holds addr names i) (hData : DataMap addr names) :
    (∃ l ∈ dataLabels names, (addr l).toNat ≤ i.toNat) ∧ i.toNat + 2 < ChipPascal.zone addr := by
  have hHigh := hData.bcdHigh
  have hZone := hData.stackZone
  rcases h with rfl | rfl
  · exact ⟨⟨.bcdLow, by simp [dataLabels], Nat.le_refl _⟩, by omega⟩
  · exact ⟨⟨.bcdHigh, by simp [dataLabels], Nat.le_refl _⟩, by omega⟩

theorem Aim.Holds.addIndex (h : Aim.zone.Holds addr names i) (hRoom : HasRoom addr) (k : UInt8) :
    Aim.stack.Holds addr names (i + k.toUInt16) := by
  have hByte : k.toNat < 256 := k.toNat_lt
  have hNat : (i + k.toUInt16).toNat = ChipPascal.zone addr + k.toNat := by
    rw [show i = addr .stackZone from h]
    exact toNat_zone_add hRoom k
  exact ⟨by omega, by omega⟩

def MayWrite (addr : Label → UInt16) (names : List String) (a : Nat) : Prop :=
  (∃ l ∈ dataLabels names, (addr l).toNat ≤ a) ∧ a < ChipPascal.zone addr + 257

variable {instr : Instr} {s : State}

/-- What an instruction that has passed the check writes may be written. -/
theorem Instr.mayWrite_of_aim? (hAim : instr.aim? names aim = some aim')
    (h : aim.Holds addr names s.index) (hData : DataMap addr names) {a : Nat}
    (ha : (instr.op addr).Writes s a) : MayWrite addr names a := by
  cases instr with
  | save x =>
    simp only [Instr.aim?, Option.ite_none_right_eq_some] at hAim
    obtain ⟨⟨hWord, hx⟩, -⟩ := hAim
    obtain ⟨hFrom, hTo⟩ := ha
    obtain ⟨⟨l, hl, hLe⟩, hTop⟩ := h.of_isWord hWord hData
    exact ⟨⟨l, hl, by omega⟩, by omega⟩
  | decimal x =>
    simp only [Instr.aim?, Option.ite_none_right_eq_some] at hAim
    obtain ⟨rfl, -⟩ := hAim
    obtain ⟨hFrom, hTo⟩ := ha
    obtain ⟨⟨l, hl, hLe⟩, hTop⟩ := h.of_digits hData
    exact ⟨⟨l, hl, by omega⟩, by omega⟩
  | _ => exact ha.elim

/-- An instruction that has passed the check is carried out, and what is then known of the index
register is true. -/
theorem Instr.execute_of_aim? (hStraight : instr.isStraight = true)
    (hAim : instr.aim? names aim = some aim') (h : aim.Holds addr names s.index)
    (hData : DataMap addr names) (hRoom : HasRoom addr) :
    ∃ t, execute (instr.op addr) s = .ok (.running t) ∧ aim'.Holds addr names t.index := by
  have hTop : ChipPascal.zone addr + 256 < memorySize := Nat.lt_succ_of_le hRoom
  cases instr with
  | skipNe x k | jump l | call l | ret => cases hStraight
  | index l =>
    refine ⟨_, rfl, ?_⟩
    cases l with
    | global name =>
      simp only [Instr.aim?, Option.ite_none_right_eq_some, Option.some.injEq] at hAim
      obtain ⟨hName, rfl⟩ := hAim
      exact ⟨name, hName, rfl⟩
    | bcdLow =>
      cases hAim
      exact .inl rfl
    | bcdHigh =>
      cases hAim
      exact .inr rfl
    | stackZone =>
      cases hAim
      rfl
    | _ => cases hAim
  | indexByte k | glyph x =>
    cases hAim
    exact ⟨_, rfl, trivial⟩
  | addIndex x =>
    refine ⟨_, rfl, ?_⟩
    simp only [Instr.aim?, Option.some.injEq] at hAim
    split at hAim
    · next hZone =>
      subst hZone hAim
      exact h.addIndex hRoom _
    · subst hAim
      exact trivial
  | save x =>
    simp only [Instr.aim?, Option.ite_none_right_eq_some, Option.some.injEq] at hAim
    obtain ⟨⟨hWord, hx⟩, rfl⟩ := hAim
    have hBound : s.index.toNat + x.val < memorySize := by
      have := (h.of_isWord hWord hData).2
      omega
    exact ⟨_, if_pos hBound, h⟩
  | load x =>
    simp only [Instr.aim?, Option.ite_none_right_eq_some, Option.some.injEq] at hAim
    obtain ⟨hAccess, rfl⟩ := hAim
    have hBound : s.index.toNat + x.val < memorySize := by
      rcases hAccess with ⟨hWord, hx⟩ | ⟨rfl, hx⟩
      · have := (h.of_isWord hWord hData).2
        omega
      · have := (h.of_digits hData).2
        omega
    exact ⟨_, if_pos hBound, h⟩
  | decimal x =>
    simp only [Instr.aim?, Option.ite_none_right_eq_some, Option.some.injEq] at hAim
    obtain ⟨rfl, rfl⟩ := hAim
    have hBound : s.index.toNat + 2 < memorySize := by
      have := (h.of_digits hData).2
      omega
    exact ⟨_, if_pos hBound, h⟩
  | _ =>
    cases hAim
    exact ⟨_, rfl, h⟩

end

/-! ### States on course -/

section

variable (addr : Label → UInt16) (names : List String) (branches : Nat) (lines : List Line)

/-- Each call in progress returns to a place from where control goes on. -/
inductive Returns : Bool → List UInt16 → Prop
  | main : Returns false []
  | proc {rest : List Line} {back : UInt16} {calls : List UInt16} {inProc : Bool}
      (place : At lines rest back)
      (flow : flow? names branches (.live inProc .anywhere) rest = some .dead)
      (returns : Returns inProc calls) : Returns true (back :: calls)

def Flow.Holds (s : State) : Flow → Prop
  | dead => False
  | live inProc aim | skipping inProc aim =>
    aim.Holds addr names s.index ∧ Returns names branches lines inProc s.calls

def OnCourse (s : State) : Prop :=
  ∃ f rest, At lines rest s.pc ∧ flow? names branches f rest = some .dead ∧
    f.Holds addr names branches lines s

end

/-- A listing that passes the check, in memory. -/
structure Checked (names : List String) (branches : Nat) (lines : List Line) (image : Image) :
    Prop where
  assembled : Assembled lines image
  closed : ∀ l ∈ targetsOf lines, l ∈ labelsOf lines
  data : DataMap image.addr names
  room : HasRoom image.addr
  flow : flow? names branches (.live false .anywhere) lines = some .dead

section

variable {names : List String} {branches : Nat} {lines rest : List Line} {image : Image}
  {inProc : Bool} {aim : Aim} {f g : Flow} {s t : State} {i : Instr} {note : Option String}

theorem flow?_cons_eq_some {line : Line}
    (h : flow? names branches f (line :: rest) = some g) :
    ∃ f', line.flow? names branches f = some f' ∧ flow? names branches f' rest = some g :=
  Option.bind_eq_some_iff.mp h

theorem Line.flow?_label {l : Label} (h : (Line.label l).flow? names branches f = some g)
    (hl : l.inProc? branches = some inProc) : g = .live inProc .anywhere := by
  cases f with
  | dead =>
    simp only [Line.flow?, hl, Option.some.injEq] at h
    exact h.symm
  | live inProc' aim =>
    simp only [Line.flow?, Option.ite_none_right_eq_some, Option.some.injEq] at h
    obtain ⟨hSame, rfl⟩ := h
    rw [Option.some.inj (hl.symm.trans hSame)]
  | skipping inProc' aim => cases h

theorem Checked.exists_label (h : Checked names branches lines image) {l : Label}
    (hMem : .instr i note ∈ lines) (hTarget : i.target? = some l) :
    ∃ before after, lines = before ++ .label l :: after :=
  mem_labelsOf.mp (h.closed l (List.mem_filterMap.mpr ⟨.instr i note, hMem, hTarget⟩))

/-- Control goes on from every label in the code that an instruction refers to. -/
theorem Checked.at_target (h : Checked names branches lines image) {l : Label}
    (hs : At lines (.instr i note :: rest) s.pc) (hTarget : i.target? = some l)
    (hl : l.inProc? branches = some inProc) :
    ∃ rest', At lines rest' (image.addr l) ∧
      flow? names branches (.live inProc .anywhere) rest' = some .dead := by
  obtain ⟨pre, hPre, -⟩ := hs
  have hMem : .instr i note ∈ lines := by simp [hPre]
  obtain ⟨before, rest', hLines⟩ := h.exists_label hMem hTarget
  have hFlow := h.flow
  rw [hLines, flow?_append] at hFlow
  obtain ⟨f, -, hFlow⟩ := Option.bind_eq_some_iff.mp hFlow
  obtain ⟨g, hLabel, hFlow⟩ := flow?_cons_eq_some hFlow
  rw [Line.flow?_label hLabel hl] at hFlow
  exact ⟨rest', h.assembled.at_label ⟨before, hLines.symm⟩, hFlow⟩

/-- Past labels and remarks there is an instruction. -/
theorem OnCourse.at_instr (h : OnCourse image.addr names branches lines s) :
    ∃ i note rest f, At lines (.instr i note :: rest) s.pc ∧
      flow? names branches f (.instr i note :: rest) = some .dead ∧
      f.Holds image.addr names branches lines s := by
  obtain ⟨f, rest, hAt, hFlow, hHolds⟩ := h
  induction rest generalizing f with
  | nil =>
    obtain rfl := Option.some.inj hFlow
    exact hHolds.elim
  | cons line rest ih =>
    obtain ⟨g, hLine, hRest⟩ := flow?_cons_eq_some hFlow
    cases line with
    | instr i note => exact ⟨i, note, rest, f, hAt, hFlow, hHolds⟩
    | blank | remark _ =>
      have hSame : g = f := by
        cases f <;> cases hLine <;> rfl
      exact ih g (At.pass rfl hAt) hRest (hSame ▸ hHolds)
    | word => cases f <;> first | exact hHolds.elim | cases hLine
    | label l =>
      cases f with
      | dead => exact hHolds.elim
      | skipping inProc aim => cases hLine
      | live inProc aim =>
        simp only [Line.flow?, Option.ite_none_right_eq_some, Option.some.injEq] at hLine
        obtain ⟨-, rfl⟩ := hLine
        exact ih _ (At.pass rfl hAt) hRest ⟨trivial, hHolds.2⟩

/-! ### Steps -/

def GoesOn (names : List String) (branches : Nat) (lines : List Line) (image : Image) (s : State) :
    Prop :=
  step image s = .ok (.halted s) ∨
    ∃ t, step image s = .ok (.running t) ∧ OnCourse image.addr names branches lines t

theorem Checked.goesOn_jump (h : Checked names branches lines image) {l : Label}
    (hs : At lines (.instr (.jump l) note :: rest) s.pc) (hl : l.inProc? branches = some inProc)
    (hReturns : Returns names branches lines inProc s.calls) :
    GoesOn names branches lines image s := by
  by_cases hSelf : image.addr l = s.pc
  · exact .inl (h.assembled.step_halted hs hSelf)
  · obtain ⟨rest', hAt, hFlow⟩ := h.at_target hs rfl hl
    exact .inr ⟨_, h.assembled.step_jump hs hSelf, _, rest', hAt, hFlow, trivial, hReturns⟩

/-- A call leads to a procedure, and records a place to return to that is in order. -/
theorem Checked.goesOn_call (h : Checked names branches lines image) {l : Label}
    (hs : At lines (.instr (.call l) note :: rest) s.pc) (hl : l.inProc? branches = some true)
    (hRest : flow? names branches (.live inProc .anywhere) rest = some .dead)
    (hReturns : Returns names branches lines inProc s.calls) :
    GoesOn names branches lines image s := by
  obtain ⟨rest', hAt, hFlow⟩ := h.at_target hs rfl hl
  refine .inr ⟨_, h.assembled.step_call hs, _, rest', hAt, hFlow, trivial, ?_⟩
  exact .proc (At.next rfl hs) hRest hReturns

/-- There is a place to return to wherever a return can be reached. -/
theorem Checked.goesOn_ret (h : Checked names branches lines image)
    (hs : At lines (.instr .ret note :: rest) s.pc)
    (hReturns : Returns names branches lines true s.calls) :
    GoesOn names branches lines image s := by
  generalize hCalls : s.calls = calls at hReturns
  cases hReturns with
  | proc hAt hFlow hReturns =>
    exact .inr ⟨_, h.assembled.step_ret hs hCalls, _, _, hAt, hFlow, trivial, hReturns⟩

/-- A test is followed by a jump, which may be skipped. -/
theorem jump_of_skipping
    (h : flow? names branches (.skipping inProc aim) rest = some .dead) :
    ∃ l note rest', rest = .instr (.jump l) note :: rest' ∧
      flow? names branches (.live inProc aim) rest' = some .dead := by
  cases rest with
  | nil => cases h
  | cons line rest' =>
    obtain ⟨g, hLine, hRest⟩ := flow?_cons_eq_some h
    cases line with
    | instr i note =>
      cases i with
      | jump l =>
        simp only [Line.flow?, Option.ite_none_right_eq_some, Option.some.injEq] at hLine
        obtain ⟨-, rfl⟩ := hLine
        exact ⟨l, note, rest', rfl, hRest⟩
      | _ => cases hLine
    | _ => cases hLine

/-- Both ways out of a test lead to instructions. -/
theorem Checked.goesOn_skipNe (h : Checked names branches lines image) {x : Reg} {k : UInt8}
    (hs : At lines (.instr (.skipNe x k) note :: rest) s.pc)
    (hRest : flow? names branches (.skipping inProc aim) rest = some .dead)
    (hAim : aim.Holds image.addr names s.index)
    (hReturns : Returns names branches lines inProc s.calls) :
    GoesOn names branches lines image s := by
  by_cases hReg : s.reg x = k
  · exact .inr ⟨_, h.assembled.step_noSkip hs hReg, _, rest, At.next rfl hs, hRest, hAim, hReturns⟩
  · obtain ⟨l, note', rest', rfl, hFlow⟩ := jump_of_skipping hRest
    obtain ⟨hStep, hAt⟩ := h.assembled.step_skip hs hReg
    exact .inr ⟨_, hStep, _, rest', hAt, hFlow, hAim, hReturns⟩

theorem Checked.goesOn_straight (h : Checked names branches lines image) {aim' : Aim}
    (hs : At lines (.instr i note :: rest) s.pc) (hStraight : i.isStraight = true)
    (hNext : i.aim? names aim = some aim')
    (hRest : flow? names branches (.live inProc aim') rest = some .dead)
    (hAim : aim.Holds image.addr names s.index)
    (hReturns : Returns names branches lines inProc s.calls) :
    GoesOn names branches lines image s := by
  obtain ⟨t, hRun, hAim'⟩ := i.execute_of_aim? hStraight hNext hAim h.data h.room
  obtain ⟨hPc, hCalls⟩ := execute_straight hStraight hRun
  refine .inr ⟨t, h.assembled.step_running hs hRun, _, rest, ?_, hRest, hAim', ?_⟩
  · rw [hPc]
    exact At.next rfl hs
  · rw [hCalls]
    exact hReturns

theorem Instr.flow?_straight (hStraight : i.isStraight = true) :
    i.flow? names branches inProc aim = (i.aim? names aim).map (.live inProc) := by
  cases i <;> first | rfl | cases hStraight

theorem Checked.goesOn_live (h : Checked names branches lines image)
    (hs : At lines (.instr i note :: rest) s.pc)
    (hFlow : flow? names branches (.live inProc aim) (.instr i note :: rest) = some .dead)
    (hAim : aim.Holds image.addr names s.index)
    (hReturns : Returns names branches lines inProc s.calls) :
    GoesOn names branches lines image s := by
  obtain ⟨g, hLine, hRest⟩ := flow?_cons_eq_some hFlow
  change i.flow? names branches inProc aim = some g at hLine
  cases hStraight : i.isStraight with
  | true =>
    rw [Instr.flow?_straight hStraight] at hLine
    obtain ⟨aim', hNext, rfl⟩ := Option.map_eq_some_iff.mp hLine
    exact h.goesOn_straight hs hStraight hNext hRest hAim hReturns
  | false =>
    cases i with
    | jump l =>
      simp only [Instr.flow?, Option.ite_none_right_eq_some] at hLine
      exact h.goesOn_jump hs hLine.1 hReturns
    | call l =>
      simp only [Instr.flow?, Option.ite_none_right_eq_some, Option.some.injEq] at hLine
      obtain ⟨hl, rfl⟩ := hLine
      exact h.goesOn_call hs hl hRest hReturns
    | ret =>
      simp only [Instr.flow?, Option.ite_none_right_eq_some] at hLine
      obtain ⟨rfl, -⟩ := hLine
      exact h.goesOn_ret hs hReturns
    | skipNe x k =>
      cases hLine
      exact h.goesOn_skipNe hs hRest hAim hReturns
    | _ => cases hStraight

/-- A step from a state on course. -/
theorem Checked.goesOn (h : Checked names branches lines image)
    (hs : OnCourse image.addr names branches lines s) : GoesOn names branches lines image s := by
  obtain ⟨i, note, rest, f, hAt, hFlow, hHolds⟩ := hs.at_instr
  cases f with
  | dead => exact hHolds.elim
  | live inProc aim => exact h.goesOn_live hAt hFlow hHolds.1 hHolds.2
  | skipping inProc aim =>
    obtain ⟨g, hLine, -⟩ := flow?_cons_eq_some hFlow
    cases i with
    | jump l =>
      simp only [Line.flow?, Option.ite_none_right_eq_some] at hLine
      exact h.goesOn_jump hAt hLine.1 hHolds.2
    | _ => cases hLine

theorem Checked.mayWrite (h : Checked names branches lines image)
    (hs : OnCourse image.addr names branches lines s) {a : Nat} (ha : Writes image s a) :
    MayWrite image.addr names a := by
  obtain ⟨i, note, rest, f, hAt, hFlow, hHolds⟩ := hs.at_instr
  obtain ⟨pre, hLines, hPc⟩ := hAt
  obtain ⟨statement, hFetch⟩ := h.assembled.instr hLines
  obtain ⟨statement', op, hFetch', hOp⟩ := ha
  rw [hPc, hFetch] at hFetch'
  cases hFetch'
  obtain ⟨g, hLine, -⟩ := flow?_cons_eq_some hFlow
  cases f with
  | dead => exact hHolds.elim
  | skipping inProc aim =>
    cases i with
    | jump l => exact hOp.elim
    | _ => cases hLine
  | live inProc aim =>
    cases hStraight : i.isStraight with
    | true =>
      change i.flow? names branches inProc aim = some g at hLine
      rw [Instr.flow?_straight hStraight] at hLine
      obtain ⟨aim', hNext, -⟩ := Option.map_eq_some_iff.mp hLine
      exact i.mayWrite_of_aim? hNext hHolds.1 h.data hOp
    | false =>
      cases i <;> first | exact hOp.elim | cases hStraight

/-! ### Runs -/

theorem Checked.onCourse_initial (h : Checked names branches lines image) :
    OnCourse image.addr names branches lines initial :=
  ⟨_, lines, ⟨[], rfl, rfl⟩, h.flow, trivial, .main⟩

theorem Checked.onCourse_step (h : Checked names branches lines image)
    (hs : OnCourse image.addr names branches lines s) (hStep : step image s = .ok (.running t)) :
    OnCourse image.addr names branches lines t := by
  rcases h.goesOn hs with hHalts | ⟨t', hStep', ht⟩
  · rw [hHalts] at hStep
    cases hStep
  · rw [hStep] at hStep'
    cases hStep'
    exact ht

/-- A run stays on course, by induction on its steps. -/
theorem Checked.onCourse_after (h : Checked names branches lines image) {n : Nat}
    (hs : OnCourse image.addr names branches lines s) (hAfter : after image n s = some t) :
    OnCourse image.addr names branches lines t :=
  invariant_after (fun _ _ hs => h.onCourse_step hs) hs hAfter

/-- A run ends in a state or at the limit of steps, and in no other way. -/
theorem Checked.runFor (h : Checked names branches lines image) (limit : Nat)
    (hs : OnCourse image.addr names branches lines s) :
    (∃ t, Machine.runFor image limit s = .ok t) ∨
      Machine.runFor image limit s = .error .stepLimit := by
  induction limit generalizing s with
  | zero => exact .inr rfl
  | succ limit ih =>
    rcases h.goesOn hs with hHalts | ⟨t, hStep, ht⟩
    · exact .inl ⟨s, by simp only [Machine.runFor, hHalts]⟩
    · simpa only [Machine.runFor, hStep] using ih ht

end

/-! ### Addresses in a listing -/

/-- The address of the first of certain labels; where there is none, that of the end. -/
def firstLabel (p : Label → Bool) (lines : List Line) : Nat :=
  cellAddress (cellCount (lines.takeWhile fun line => !line.label?.any p))

def Label.isData : Label → Bool
  | global _ | bcdLow | bcdHigh | stackZone => true
  | entry | finish | procedure _ | elseBranch _ | endBranch _ => false

def dataStart (lines : List Line) : Nat := firstLabel Label.isData lines

def zoneStart (lines : List Line) : Nat := firstLabel (· = .stackZone) lines

section

variable {names : List String} {stackWords : Nat} {lines code pre rest : List Line} {image : Image}
  {l : Label} {p : Label → Bool}

theorem firstLabel_le (hl : p l = true) :
    firstLabel p (pre ++ .label l :: rest) ≤ cellAddress (cellCount pre) := by
  simp only [firstLabel, cellAddress]
  suffices cellCount ((pre ++ .label l :: rest).takeWhile fun line => !line.label?.any p) ≤
      cellCount pre by omega
  induction pre with
  | nil => simp [Line.label?, hl]
  | cons line pre ih =>
    rw [List.cons_append, List.takeWhile_cons]
    split
    · simpa using ih
    · exact Nat.zero_le _

/-- A label that comes only once is where it is found first. -/
theorem firstLabel_eq (h : l ∉ labelsOf pre) :
    firstLabel (· = l) (pre ++ .label l :: rest) = cellAddress (cellCount pre) := by
  have hBefore : ∀ line ∈ pre, (!line.label?.any (· = l)) = true := by
    intro line hLine
    cases hLabel : line.label? with
    | none => rfl
    | some m =>
      have hMem : m ∈ labelsOf pre := List.mem_filterMap.mpr ⟨line, hLine, hLabel⟩
      have hNe : m ≠ l := fun hEq => h (hEq ▸ hMem)
      simp [hNe]
  rw [firstLabel, List.takeWhile_append_of_pos hBefore]
  simp [Line.label?]

theorem WellFormed.not_mem_pre (h : WellFormed lines) (hLines : lines = pre ++ .label l :: rest) :
    l ∉ labelsOf pre := by
  have hNodup := h.nodup
  rw [hLines, labelsOf_append] at hNodup
  intro hMem
  exact (List.nodup_append.mp hNodup).2.2 l hMem l List.mem_cons_self rfl

theorem isData_of_mem (hl : l ∈ dataLabels names) : l.isData = true := by
  rcases List.mem_append.mp hl with hl | hl
  · obtain ⟨name, -, rfl⟩ := List.mem_map.mp hl
    rfl
  · simp only [List.mem_cons, List.not_mem_nil, or_false] at hl
    rcases hl with rfl | rfl | rfl <;> rfl

/-- Data labels stand after the code, and the first of them is where the data starts. -/
theorem Assembled.le_addr (h : Assembled lines image)
    (hLines : lines = code ++ dataSection names stackWords) (hl : l ∈ dataLabels names) :
    dataStart lines ≤ (image.addr l).toNat ∧
      cellAddress (cellCount code) ≤ (image.addr l).toNat := by
  have hMem : l ∈ labelsOf (dataSection names stackWords) := by
    rw [labelsOf_dataSection]
    exact hl
  obtain ⟨pre, rest, hSplit⟩ := mem_labelsOf.mp hMem
  have hWhole : lines = (code ++ pre) ++ .label l :: rest := by
    rw [hLines, hSplit, List.append_assoc]
  rw [h.toNat_addr hWhole]
  refine ⟨?_, ?_⟩
  · rw [hWhole]
    exact firstLabel_le (isData_of_mem hl)
  · simp only [cellAddress, cellCount_append]
    omega

/-- Instructions end before the data. -/
theorem Assembled.code_before (h : Assembled lines image)
    (hLines : lines = code ++ dataSection names stackWords) {pc : UInt16} {statement : Statement}
    {op : Except OperandFault Op} (hFetch : image.fetch? pc = some (.code statement op)) :
    pc.toNat + 2 ≤ cellAddress (cellCount code) := by
  obtain ⟨pre, i, note, rest, hSplit, rfl⟩ := h.code hFetch
  have hCode : ∃ mid, code = pre ++ .instr i note :: mid := by
    rcases List.append_eq_append_iff.mp (hLines.symm.trans hSplit) with
      ⟨mid, -, hData⟩ | ⟨mid, hCode, hRest⟩
    · have hMem : .instr i note ∈ dataSection names stackWords := by simp [hData]
      exact absurd hMem (instr_not_mem_dataSection i note)
    · cases mid with
      | nil =>
        have hMem : .instr i note ∈ dataSection names stackWords := by
          rw [List.nil_append] at hRest
          simp [← hRest]
        exact absurd hMem (instr_not_mem_dataSection i note)
      | cons line mid =>
        obtain ⟨rfl, -⟩ := List.cons.inj hRest
        exact ⟨mid, hCode⟩
  obtain ⟨mid, rfl⟩ := hCode
  have hFits := h.fits
  rw [hLines] at hFits
  simp only [cellAddress, cellCount_append, cellCount_cons, Line.cells] at hFits ⊢
  rw [toNat_place] <;> simp only [cellAddress] <;> omega

end

/-! ### Compiled programs -/

/-- The machine can go on or halts, and what it writes is data or stack and never code. -/
structure Safe (lines : List Line) (image : Image) (s : State) : Prop where
  goesOn : step image s = .ok (.halted s) ∨ ∃ t, step image s = .ok (.running t)
  /-- No byte changes that is not written. -/
  writes : ∀ t a, step image s = .ok (.running t) → t.byte a ≠ s.byte a → Writes image s a
  data : ∀ a, Writes image s a → dataStart lines ≤ a ∧ a < zoneStart lines + 257
  code : ∀ a, Writes image s a → ∀ pc statement op,
    image.fetch? pc = some (.code statement op) → pc.toNat + 2 ≤ a

section

variable {program : Program} {stackWords : Nat} {lines : List Line} {image : Image} {s t : State}

/-- A byte that changed was written. -/
theorem writes_of_byte_ne {a : Nat} (hStep : step image s = .ok (.running t))
    (hByte : t.byte a ≠ s.byte a) : Writes image s a := by
  unfold step at hStep
  split at hStep
  · next statement op hFetch =>
    refine ⟨statement, op, hFetch, ?_⟩
    by_contra hWrites
    cases hRun : execute op s with
    | error trap =>
      rw [hRun] at hStep
      cases hStep
    | ok status =>
      rw [hRun] at hStep
      cases hStep
      exact hByte (byte_of_not_writes hRun hWrites)
  · cases hStep
  · cases hStep
  · cases hStep

theorem Compiled.checked (h : Compiled program stackWords lines)
    (hImage : assemble? (listingText lines) = some image) (hRoom : HasRoom image.addr) :
    ∃ branches, Checked (program.globals.map (·.name.name)) branches lines image := by
  have hAssembled := h.wellFormed.assembled hImage
  obtain ⟨code, hSplit⟩ := h.code.split
  obtain ⟨branches, hFlow⟩ := h.code.flow? h.named
  exact ⟨branches, hAssembled, h.wellFormed.closed, hAssembled.dataMap hSplit, hRoom, hFlow⟩

/-- The zone of the stack is where the listing has its label, and `stackWords` words follow. -/
theorem Compiled.zoneStart_eq (h : Compiled program stackWords lines) :
    ∃ pre, lines = pre ++ .label .stackZone :: List.replicate stackWords .word ∧
      zoneStart lines = cellAddress (cellCount pre) ∧
      cellAddress (cellCount lines) = zoneStart lines + 2 * stackWords := by
  obtain ⟨code, hSplit⟩ := h.code.split
  obtain ⟨pre, hZone, -⟩ := exists_zone code (program.globals.map (·.name.name)) stackWords
  have hLines := hSplit.trans hZone
  have hStart : zoneStart lines = cellAddress (cellCount pre) := by
    have hNotMem := h.wellFormed.not_mem_pre hLines
    rw [hLines]
    exact firstLabel_eq hNotMem
  refine ⟨pre, hLines, hStart, ?_⟩
  rw [hStart, hLines]
  simp only [cellAddress, cellCount_append, cellCount_cons, Line.cells, cellCount_words]
  omega

theorem Compiled.zone_eq_zoneStart (h : Compiled program stackWords lines)
    (hAssembled : Assembled lines image) : zone image.addr = zoneStart lines := by
  obtain ⟨pre, hLines, hStart, -⟩ := h.zoneStart_eq
  rw [zone, hAssembled.toNat_addr hLines, hStart]

theorem Compiled.hasRoom (h : Compiled program stackWords lines)
    (hImage : assemble? (listingText lines) = some image)
    (hRoom : zoneStart lines + 256 ≤ 0xFFF) : HasRoom image.addr := by
  unfold HasRoom
  rw [h.zone_eq_zoneStart (h.wellFormed.assembled hImage)]
  exact hRoom

/-- A listing that leaves room for the stack is assembled and passes the check. -/
theorem Compiled.exists_checked (h : Compiled program stackWords lines)
    (hRoom : zoneStart lines + 256 ≤ 0xFFF) (hEnd : zoneStart lines + 2 * stackWords ≤ 0xFFFF) :
    ∃ image branches, assemble? (listingText lines) = some image ∧ HasRoom image.addr ∧
      Checked (program.globals.map (·.name.name)) branches lines image := by
  obtain ⟨-, -, -, hLast⟩ := h.zoneStart_eq
  obtain ⟨image, hImage⟩ := h.wellFormed.assemble?_isSome (by omega)
  have hHasRoom := h.hasRoom hImage hRoom
  obtain ⟨branches, hChecked⟩ := h.checked hImage hHasRoom
  exact ⟨image, branches, hImage, hHasRoom, hChecked⟩

/-- All that is promised of a state follows from its being on course. -/
theorem Compiled.safe (h : Compiled program stackWords lines) {branches : Nat}
    (hChecked : Checked (program.globals.map (·.name.name)) branches lines image)
    (hs : OnCourse image.addr (program.globals.map (·.name.name)) branches lines s) :
    Safe lines image s := by
  obtain ⟨code, hSplit⟩ := h.code.split
  refine ⟨?_, fun t a => writes_of_byte_ne, ?_, ?_⟩
  · exact (hChecked.goesOn hs).imp_right fun ⟨t, hStep, _⟩ => ⟨t, hStep⟩
  · intro a ha
    obtain ⟨⟨l, hl, hLe⟩, hTop⟩ := hChecked.mayWrite hs ha
    have hData := (hChecked.assembled.le_addr hSplit hl).1
    rw [h.zone_eq_zoneStart hChecked.assembled] at hTop
    exact ⟨Nat.le_trans hData hLe, hTop⟩
  · intro a ha pc statement op hFetch
    obtain ⟨⟨l, hl, hLe⟩, -⟩ := hChecked.mayWrite hs ha
    have hCode := (hChecked.assembled.le_addr hSplit hl).2
    exact Nat.le_trans (hChecked.assembled.code_before hSplit hFetch) (Nat.le_trans hCode hLe)

end

/-- Whatever the program computes, the machine that runs its listing never goes wrong, if there is
room for the stack. -/
theorem compile_never_goes_wrong {source : String} {options : CompileOptions} {c : Compilation}
    {lines : List Line} (hCompile : compile source options = .ok c)
    (hLines : c.listing = some lines) (hRoom : zoneStart lines + 256 ≤ 0xFFF)
    (hEnd : zoneStart lines + 2 * options.stackWords ≤ 0xFFFF) :
    ∃ image, assemble? (listingText lines) = some image ∧
      (image.labels.get? Label.stackZone.text).map (·.toNat) = some (zoneStart lines) ∧
      (∀ n s, after image n initial = some s → Safe lines image s) ∧
      ((∃ s, run (listingText lines) = .ok (image, s)) ∨
        run (listingText lines) = .error .stepLimit) := by
  have h := compile_listing hCompile hLines
  obtain ⟨pre, hSplit, hStart, hLast⟩ := h.zoneStart_eq
  obtain ⟨image, hImage⟩ := h.wellFormed.assemble?_isSome (by omega)
  have hAssembled := h.wellFormed.assembled hImage
  obtain ⟨branches, hChecked⟩ := h.checked hImage (h.hasRoom hImage hRoom)
  refine ⟨image, hImage, ?_, ?_, ?_⟩
  · rw [hAssembled.label hSplit, Option.map_some, toNat_place (by omega), hStart]
  · intro n s hAfter
    exact h.safe hChecked (hChecked.onCourse_after hChecked.onCourse_initial hAfter)
  · rcases hChecked.runFor stepLimit hChecked.onCourse_initial with ⟨s, hRun⟩ | hRun
    · exact .inl ⟨s, by simp only [run, hImage, hRun, Except.map]⟩
    · exact .inr (by simp only [run, hImage, hRun, Except.map])

/-- A procedure that calls itself without end, so that the stack pointer wraps around. -/
def endless : String :=
  "program p; var x: long; procedure f(n: integer); var k: long; begin k := n; x := k + 1; f(k) end;
   begin f(1) end."

theorem endless_never_goes_wrong : ∃ c lines image, compile endless ⟨0, false⟩ = .ok c ∧
    c.listing = some lines ∧ zoneStart lines + 256 ≤ 0xFFF ∧
    assemble? (listingText lines) = some image ∧
    ∀ n s, after image n initial = some s → Safe lines image s := by
  obtain ⟨c, lines, hCompile, hLines, hTest⟩ :=
    exists_listing (p := fun lines => zoneStart lines + 256 ≤ 0xFFF)
      (by decide +kernel : ((compile endless ⟨0, false⟩).toOption.bind (·.listing)).any _ = true)
  have hRoom := of_decide_eq_true hTest
  obtain ⟨image, hImage, -, hSafe, -⟩ :=
    compile_never_goes_wrong hCompile hLines hRoom (by dsimp only; omega)
  exact ⟨c, lines, image, hCompile, hLines, hRoom, hImage, hSafe⟩

end ChipPascal
