import ChipPascal.Proofs.StmtSimulation
import Mathlib.Data.List.Nodup

/-!
# Compiled programs in the machine

A compiled listing that fits the memory is loaded: the code of every procedure is there, and the
data comes after it. From the initial state the machine sets the registers up and gets to the main
body. What the variables of a procedure find in memory when it is called is a function of the
number of the call.
-/

namespace ChipPascal

open Machine Line
open Lowering hiding State

section

variable {program : Program} {stackWords : Nat} {lines : List Line} {image : Image}

/-! ### Procedures in a listing -/

theorem DeclsCode.proc_suffix {decls : List Decl} {n n' : Nat} {code : List Line}
    (h : DeclsCode program decls n code n') {proc : ProcDecl} (hProc : .proc proc ∈ decls) :
    ∃ m body m' rest, ProcCode program proc m body m' ∧ (body ++ rest) <:+ code := by
  induction h with
  | nil n => simp at hProc
  | var h ih => exact ih (by simpa using hProc)
  | @proc first decls n lines n₁ others n₂ hFirst hDecls ih =>
    rcases List.mem_cons.mp hProc with hEq | hMem
    · cases hEq
      exact ⟨n, lines, n₁, others, hFirst, List.suffix_refl _⟩
    · obtain ⟨m, body, m', rest, hCode, hSuffix⟩ := ih hMem
      exact ⟨m, body, m', rest, hCode, hSuffix.trans (List.suffix_append lines others)⟩

/-- The data comes last. -/
theorem ProgramCode.split (h : ProgramCode program stackWords lines) :
    ∃ code, lines = code ++ dataSection (program.globals.map (·.name.name)) stackWords := by
  cases h with
  | @mk decls n main last n' hDecls hMain =>
  exact ⟨preamble program.name.name ++ (decls ++ (.label .entry :: (main ++ (settleCode last ++
    finishCode)))), by simp⟩

theorem Compiled.proc_suffix (h : Compiled program stackWords lines) {proc : ProcDecl}
    (hProc : proc ∈ program.procs) : NamedVars [] proc.vars ∧
      ∃ n code n' rest, ProcCode program proc n code n' ∧ (code ++ rest) <:+ lines := by
  obtain ⟨hNamed, -, hCode⟩ := h
  cases hCode with
  | @mk decls n main last n' hDecls hMain =>
  refine ⟨hNamed.namedVars (.inr ⟨proc, Program.mem_procs.mp hProc, rfl⟩), ?_⟩
  obtain ⟨m, body, m', rest, hBody, pre, rfl⟩ :=
    hDecls.proc_suffix (Program.mem_procs.mp hProc)
  generalize hTail : Line.label .entry :: _ = tail
  refine ⟨m, body, m', rest ++ tail, hBody, preamble program.name.name ++ pre, ?_⟩
  simp only [List.append_assoc]

/-- A listing that is assembled with room for the stack is loaded. -/
theorem Compiled.loaded (h : Compiled program stackWords lines)
    (hImage : assemble? (listingText lines) = some image) (hRoom : HasRoom image.addr) :
    Loaded program lines image := by
  have hAssembled := h.wellFormed.assembled hImage
  obtain ⟨_, hSplit⟩ := h.code.split
  exact ⟨hAssembled, h.named, hAssembled.dataMap hSplit, hRoom, fun _ => h.proc_suffix⟩

theorem hasRoom_of_get? {z : UInt16} (hZone : image.labels.get? Label.stackZone.text = some z)
    (hRoom : z.toNat + 256 ≤ 0xFFF) : HasRoom image.addr := by
  have hAddr : image.addr .stackZone = z := by simp [Image.addr, hZone]
  unfold HasRoom zone
  rw [hAddr]
  exact hRoom

/-- A listing that is short enough is assembled and leaves room for the stack. -/
theorem Compiled.exists_image (h : Compiled program stackWords lines)
    (hSmall : cellAddress (cellCount lines) + 256 ≤ 0xFFF) :
    ∃ image z, assemble? (listingText lines) = some image ∧
      image.labels.get? Label.stackZone.text = some z ∧ z.toNat + 256 ≤ 0xFFF := by
  obtain ⟨image, hImage⟩ := h.wellFormed.assemble?_isSome (by omega)
  have hAssembled := h.wellFormed.assembled hImage
  obtain ⟨code, hSplit⟩ := h.code.split
  obtain ⟨pre, hZone, -⟩ := exists_zone code (program.globals.map (·.name.name)) stackWords
  have hLines := hSplit.trans hZone
  refine ⟨image, place pre, hImage, hAssembled.label hLines, ?_⟩
  rw [hLines, cellCount_append] at hSmall
  simp only [cellAddress] at hSmall
  rw [toNat_place] <;> simp only [cellAddress] <;> omega

/-! ### What calls find in memory -/

/-- The call with a certain number is made in one state only. -/
theorem Reached.call_unique {o s s' t t' : State} {k : Nat} (h : Reached image o k s)
    (h' : Reached image o k s') (hStep : step image s = .ok (.running t))
    (hStep' : step image s' = .ok (.running t')) (hCall : t.calls.length = s.calls.length + 1)
    (hCall' : t'.calls.length = s'.calls.length + 1) : s = s' := by
  -- a later state has made the call of the earlier one as well
  have hLater : ∀ {n n' : Nat} {s s' t : State}, after image n o = some s →
      callsMade image n o = k → after image n' o = some s' → callsMade image n' o = k →
      step image s = .ok (.running t) → t.calls.length = s.calls.length + 1 → n' ≤ n := by
    intro n n' s s' t hn hk hn' hk' hStep hCall
    refine Nat.le_of_not_lt fun hlt => ?_
    obtain ⟨d, rfl⟩ := Nat.exists_eq_add_of_le hlt
    have hAfter : after image (n + 1) o = some t := by
      rw [after_add hn, after_succ hStep]
      rfl
    have hMade : callsMade image (n + 1) o = k + 1 := by
      rw [callsMade_add hn, callsMade_succ hStep, hk, hCall]
      simp [callsMade]
    rw [callsMade_add hAfter, hMade] at hk'
    omega
  obtain ⟨n, hn, hk⟩ := h
  obtain ⟨n', hn', hk'⟩ := h'
  obtain rfl : n = n' := Nat.le_antisymm (hLater hn' hk' hn hk hStep' hCall')
    (hLater hn hk hn' hk' hStep hCall)
  exact Option.some.inj (hn.symm.trans hn')

/-- Two places with as many cells before them are the same, if there is a cell at both. -/
theorem append_cells_inj {a b r r' : List Line} {x y : Line} (h : a ++ x :: r = b ++ y :: r')
    (hx : x.cells = 1) (hy : y.cells = 1) (hCount : cellCount a = cellCount b) : a = b := by
  rcases List.append_eq_append_iff.mp h with ⟨c, rfl, hc⟩ | ⟨c, rfl, hc⟩
  · cases c with
    | nil => simp
    | cons z c =>
      obtain ⟨rfl, -⟩ := List.cons.inj hc
      simp only [cellCount_append, cellCount_cons] at hCount
      omega
  · cases c with
    | nil => simp
    | cons z c =>
      obtain ⟨rfl, -⟩ := List.cons.inj hc
      simp only [cellCount_append, cellCount_cons] at hCount
      omega

theorem Assembled.procedure_inj (h : Assembled lines image) {name name' : String} {i i' : Instr}
    {note note' : Option String} {rest rest' : List Line}
    (hLines : (.label (.procedure name) :: .instr i note :: rest) <:+ lines)
    (hLines' : (.label (.procedure name') :: .instr i' note' :: rest') <:+ lines)
    (hAddr : image.addr (.procedure name) = image.addr (.procedure name')) : name = name' := by
  obtain ⟨pre, rfl⟩ := hLines
  obtain ⟨pre', hPre'⟩ := hLines'
  have hNat := congrArg UInt16.toNat hAddr
  rw [h.toNat_addr rfl, h.toNat_addr hPre'.symm] at hNat
  have hCount : cellCount (pre ++ [.label (.procedure name)]) =
      cellCount (pre' ++ [.label (.procedure name')]) := by
    simp only [cellAddress, cellCount_append, cellCount_cons, cellCount_nil, Line.cells] at hNat ⊢
    omega
  have hSame := append_cells_inj (x := .instr i note) (y := .instr i' note')
    (by simpa using hPre'.symm) rfl rfl hCount
  have hBoth : pre = pre' ∧ name = name' := by simpa using hSame
  exact hBoth.2

/-- The address of a procedure tells which one it is. -/
theorem Loaded.proc_eq (h : Loaded program lines image) {proc proc' : ProcDecl}
    (hProc : proc ∈ program.procs) (hProc' : proc' ∈ program.procs)
    (hAddr : image.addr (.procedure proc.name.name) = image.addr (.procedure proc'.name.name)) :
    proc = proc' := by
  obtain ⟨-, n, code, n', rest, hCode, hSuffix⟩ := h.proc proc hProc
  obtain ⟨-, m, code', m', rest', hCode', hSuffix'⟩ := h.proc proc' hProc'
  cases hCode
  cases hCode'
  have hName := h.assembled.procedure_inj hSuffix hSuffix' hAddr
  have hDecl := List.inj_on_of_nodup_map h.named.decls.nodup.1 (Program.mem_procs.mp hProc)
    (Program.mem_procs.mp hProc') hName
  cases hDecl
  rfl

theorem valueAt_lt (s : State) (a : Nat) (type : ValueType) :
    s.valueAt a type.isWide < type.modulus := by
  have hLow : (s.byte a).toNat < 256 := (s.byte a).toNat_lt
  have hHigh : (s.byte (a + 1)).toNat < 256 := (s.byte (a + 1)).toNat_lt
  have hZero : (0 : UInt8).toNat = 0 := rfl
  cases type <;>
    simp only [State.valueAt, word, ValueType.isWide, ValueType.modulus, if_true, if_false,
      Bool.false_eq_true, hZero] <;>
    omega

/-- The value that the variable called `name` finds in memory when the `k`-th call is made. -/
def FindsAt (program : Program) (image : Image) (o : State) (k : Nat) (name : String)
    (value : Nat) : Prop :=
  ∃ s t proc decl, Reached image o k s ∧ step image s = .ok (.running t) ∧
    t.calls.length = s.calls.length + 1 ∧ proc ∈ program.procs ∧
    t.pc = image.addr (.procedure proc.name.name) ∧ decl ∈ proc.locals ∧ decl.name.name = name ∧
    value = t.valueAt (zone image.addr + (t.reg .stack).toNat + 1 + varOffset proc.vars name)
      decl.typeOf.isWide

/-- A local starts with one value, since a run makes one call at a time. -/
theorem Loaded.findsAt_unique (h : Loaded program lines image) {o : State} {k : Nat}
    {name : String} {value value' : Nat} (hFinds : FindsAt program image o k name value)
    (hFinds' : FindsAt program image o k name value') : value = value' := by
  obtain ⟨s, t, proc, decl, hReached, hStep, hCall, hProc, hPc, hDecl, hName, rfl⟩ := hFinds
  obtain ⟨s', t', proc', decl', hReached', hStep', hCall', hProc', hPc', hDecl', hName', rfl⟩ :=
    hFinds'
  obtain rfl := Reached.call_unique hReached hReached' hStep hStep' hCall hCall'
  rw [hStep] at hStep'
  cases hStep'
  obtain rfl := h.proc_eq hProc hProc' (hPc.symm.trans hPc')
  have hVars := (h.proc proc hProc).1.nodup.1
  have hSame : decl = decl' := List.inj_on_of_nodup_map hVars (List.mem_append_right _ hDecl)
    (List.mem_append_right _ hDecl') (hName.trans hName'.symm)
  rw [hSame]

/-- Whatever memory holds, there are values that the locals start with. -/
theorem Loaded.exists_startsFrom (h : Loaded program lines image) (o : State) :
    ∃ start, StartsFrom program image o start := by
  classical
  refine ⟨fun k name => if hEx : ∃ value, FindsAt program image o k name value then hEx.choose
    else 0, ?_⟩
  intro k s t hReached hStep hCall proc hProc hPc decl hDecl
  have hFinds : FindsAt program image o k decl.name.name _ :=
    ⟨s, t, proc, decl, hReached, hStep, hCall, hProc, hPc, hDecl, rfl, rfl⟩
  have hEx : ∃ value, FindsAt program image o k decl.name.name value := ⟨_, hFinds⟩
  simp only [dif_pos hEx]
  rw [h.findsAt_unique hEx.choose_spec hFinds]
  exact Nat.mod_eq_of_lt (valueAt_lt _ _ _)

/-- Where procedures have no variables but their parameters, nothing is left in memory for them. -/
theorem startsFrom_of_no_locals {o : State} {start : Nat → Store}
    (h : ∀ proc ∈ program.procs, proc.locals = []) : StartsFrom program image o start := by
  intro k s t _ _ _ proc hProc _ decl hDecl
  simp [h proc hProc] at hDecl

end

/-! ### From the initial state to the main body -/

theorem run_remarks (addr : Label → UInt16) (xs : List Reg) (s : State) :
    runLines addr (xs.map fun x => .remark x.explained) s = some s := by
  induction xs with
  | nil => rfl
  | cons x xs ih => exact ih

theorem run_setup (addr : Label → UInt16) (xs : List Reg) (s : State) :
    ∃ t, runLines addr (xs.map fun x => plain (.set x x.initial)) s = some t ∧
      (∀ x ∈ xs, t.reg x = x.initial) ∧ (∀ x ∉ xs, t.reg x = s.reg x) ∧
      ∀ a, t.byte a = s.byte a := by
  induction xs generalizing s with
  | nil => exact ⟨s, rfl, by simp, fun _ _ => rfl, fun _ => rfl⟩
  | cons y xs ih =>
    obtain ⟨t, hRun, hSet, hKept, hByte⟩ := ih (s.next.setReg y y.initial)
    refine ⟨t, hRun, ?_, ?_, fun a => (hByte a).trans rfl⟩
    · intro x hMem
      by_cases hLater : x ∈ xs
      · exact hSet x hLater
      · obtain rfl : x = y := (List.mem_cons.mp hMem).resolve_right hLater
        rw [hKept x hLater]
        simp
    · intro x hMem
      rw [List.mem_cons, not_or] at hMem
      rw [hKept x hMem.2]
      simp [hMem.1]

theorem initial_byte (a : Nat) : initial.byte a = 0 := by
  by_cases h : a < memorySize
  · simp [State.byte, initial, h]
  · simp [State.byte, initial, h]

theorem holdsWorld_initial (program : Program) (addr : Label → UInt16) {s : State}
    (h : ∀ a, s.byte a = 0) : HoldsWorld program addr World.initial s := by
  refine ⟨?_, ?_, ?_⟩
  · intro name decl _
    simp [State.valueAt, h, word, World.initial]
  · simp [State.digitsAt, h, World.initial]
  · simp [State.digitsAt, h, World.initial]

section

variable {program : Program} {stackWords : Nat} {lines rest : List Line} {image : Image}

/-- The head of a listing sets the registers up and leads to the main body. -/
theorem Loaded.path_setup (h : Loaded program lines image) {decls : List Line} {name : String}
    (hLines : lines = preamble name ++ (decls ++ (.label .entry :: rest))) :
    ∃ s, Path image 0 0 initial s ∧ At lines rest s.pc ∧ s.calls = [] ∧
      Matches program image.addr [] 0 0 World.initial (fun _ => 0) 0 s := by
  obtain ⟨s, hRun, hSet, -, hByte⟩ := run_setup image.addr Reg.all initial
  have hAll : ∀ x, s.reg x = x.initial := fun x => hSet x (List.mem_finRange x)
  have hRemarks : runLines image.addr ([.remark name, .remark "CHIP-8 listing"] ++
      (Reg.all.map (fun x => .remark x.explained) ++ [blank])) initial = some initial :=
    (runLines_append rfl).trans ((runLines_append (run_remarks _ _ _)).trans rfl)
  have hHead := (runLines_append (b := (Reg.all.map fun x => plain (.set x x.initial)) ++
    [plain (.indexByte 0)]) hRemarks).trans ((runLines_append hRun).trans rfl)
  have hAt : At lines ((([.remark name, .remark "CHIP-8 listing"] ++
      (Reg.all.map (fun x => .remark x.explained) ++ [blank])) ++
        ((Reg.all.map fun x => plain (.set x x.initial)) ++ [plain (.indexByte 0)])) ++
          (plain (.jump .entry) :: ((blank :: decls) ++ .label .entry :: rest))) initial.pc := by
    refine ⟨[], ?_, rfl⟩
    rw [hLines]
    simp [preamble]
  obtain ⟨hPath, hJump, hCalls⟩ := runLines_path h.assembled hAt hHead
  obtain ⟨hPath', hMain⟩ := h.assembled.path_jump hJump
  have hBytes : ∀ a, s.byte a = 0 := fun a => (hByte a).trans (initial_byte a)
  have hWorld := holdsWorld_initial program image.addr hBytes
  refine ⟨_, hPath.trans (hPath'.mono (Nat.zero_le _)), hMain, hCalls, ?_, ?_, ?_, ?_, ?_⟩
  · exact hAll .ones
  · exact hAll .base
  · exact hAll .stack
  · exact ⟨hWorld.global, hWorld.bcdLow, hWorld.bcdHigh⟩
  · intro name decl hFind
    simp [findVar] at hFind

end

end ChipPascal
