import ChipPascal.Proofs.Preservation
import ChipPascal.Proofs.Stages
import ChipPascal.Proofs.StoreTargets

/-!
# Only assignments change global variables

Along every run of a compiled listing, what the lines above the counter tell about the index
register is true. A store is therefore made where the listing says, and the word of a global
variable changes in no step but the store of an assignment to it. There is none to a constant, which
keeps the zeros that it starts with.
-/

namespace ChipPascal

open Machine Line
open Lowering hiding State

/-! ### Keeping track of the index register -/

def Pointer.Holds (addr : Label → UInt16) (i : UInt16) : Pointer → Prop
  | anywhere => True
  | label l => i = addr l
  | stack => zone addr ≤ i.toNat

def pointerAfter (lines : List Line) : Pointer := lines.foldl Line.pointer .anywhere

/-- The counter stands at a place of the listing, and the lines above it tell the truth about the
index register. -/
def Standing (lines : List Line) (addr : Label → UInt16) (pc i : UInt16) : Prop :=
  ∃ pre rest, lines = pre ++ rest ∧ pc = place pre ∧ (pointerAfter pre).Holds addr i

/-- A call may come back with the index register pointing anywhere. -/
structure Guided (lines : List Line) (image : Image) (s : State) : Prop where
  here : Standing lines image.addr s.pc s.index
  calls : ∀ back ∈ s.calls, ∀ i, Standing lines image.addr back i

section

variable {names : List String} {branches : Nat} {lines pre rest : List Line} {image : Image}
  {addr : Label → UInt16} {p : Pointer} {pc j : UInt16} {s t : State} {i : Instr}
  {note : Option String}

theorem place_snoc (pre : List Line) (i : Instr) (note : Option String) :
    place (pre ++ [.instr i note]) = place pre + 2 := by
  have hAddress : cellAddress (cellCount pre + 1) = cellAddress (cellCount pre) + 2 := rfl
  simp only [place, cellCount_append, cellCount_cons, cellCount_nil, Line.cells, Nat.add_zero,
    hAddress, UInt16.ofNat_add]
  rfl

/-- Lines that take no room change nothing, or make a place where nothing is known. -/
theorem Pointer.Holds.pass {mid : List Line} (hMid : cellCount mid = 0) (h : p.Holds addr j) :
    (mid.foldl Line.pointer p).Holds addr j := by
  induction mid generalizing p with
  | nil => exact h
  | cons line mid ih =>
    rw [cellCount_cons] at hMid
    have hLine : (line.pointer p).Holds addr j := by
      cases line with
      | blank | remark => exact h
      | label => trivial
      | instr | word => simp [Line.cells] at hMid
    exact ih (by omega) hLine

/-- What is known holds where the instruction itself stands, behind labels and remarks. -/
theorem Standing.at_instr (hImage : Assembled lines image) (h : Standing lines addr pc j)
    (hLines : lines = pre ++ .instr i note :: rest) (hPc : pc = place pre) :
    (pointerAfter pre).Holds addr j := by
  obtain ⟨pre', rest', hLines', hPc', hHolds⟩ := h
  have hFits := hImage.fits
  have hCount : cellCount pre = cellCount pre' := by
    have hNat := congrArg UInt16.toNat (hPc.symm.trans hPc')
    have hLe := congrArg cellCount hLines
    have hLe' := congrArg cellCount hLines'
    rw [cellCount_append] at hLe hLe'
    rw [toNat_place, toNat_place] at hNat <;> simp only [cellAddress] at hNat hFits ⊢ <;> omega
  rcases List.append_eq_append_iff.mp (hLines'.symm.trans hLines) with
    ⟨mid, rfl, -⟩ | ⟨mid, rfl, hRest⟩
  · rw [cellCount_append] at hCount
    rw [pointerAfter, List.foldl_append]
    exact hHolds.pass (by omega)
  · cases mid with
    | nil => simpa using hHolds
    | cons line mid =>
      obtain ⟨rfl, -⟩ := List.cons.inj hRest
      simp only [cellCount_append, cellCount_cons, Line.cells] at hCount
      omega

/-- Nothing is known at a label. -/
theorem Checked.standing_target (h : Checked names branches lines image)
    (hLines : lines = pre ++ .instr i note :: rest) {l : Label} (hTarget : i.target? = some l)
    (j : UInt16) : Standing lines image.addr (image.addr l) j := by
  have hMem : .instr i note ∈ lines := by simp [hLines]
  obtain ⟨before, after, hSplit⟩ := h.exists_label hMem hTarget
  refine ⟨before ++ [.label l], after, by simp [hSplit], ?_, ?_⟩
  · rw [h.assembled.addr_eq hSplit]
    simp [place, Line.cells]
  · rw [pointerAfter, List.foldl_append]
    trivial

/-- A straight instruction hands what is known of the index register on to the next line. -/
theorem standing_next (hLines : lines = pre ++ .instr i note :: rest)
    (h : (i.pointer (pointerAfter pre)).Holds addr j) :
    Standing lines addr (place pre + 2) j := by
  refine ⟨pre ++ [.instr i note], rest, by simp [hLines], (place_snoc pre i note).symm, ?_⟩
  rw [pointerAfter, List.foldl_append]
  exact h

/-- An instruction that goes on to the next one does to the index register what was said. -/
theorem Instr.pointer_holds (hRoom : HasRoom addr) (hStraight : i.isStraight = true)
    (hRun : execute (i.op addr) s = .ok (.running t)) (h : p.Holds addr s.index) :
    (i.pointer p).Holds addr t.index := by
  cases i with
  | skipNe | jump | call | ret => cases hStraight
  | index l =>
    cases hRun
    rfl
  | addIndex x =>
    cases hRun
    cases p with
    | anywhere | stack => trivial
    | label l =>
      cases l with
      | stackZone =>
        have hNat := toNat_zone_add hRoom s.v[x]
        rw [show addr .stackZone = s.index from h.symm] at hNat
        exact Nat.le_trans (Nat.le_add_right _ _) (Nat.le_of_eq hNat.symm)
      | _ => trivial
  | indexByte | glyph => trivial
  | save x | load x | decimal x =>
    simp only [Instr.op, execute] at hRun
    split at hRun
    · cases hRun
      exact h
    · cases hRun
  | _ =>
    cases hRun
    exact h

/-! ### Steps -/

theorem Guided.straight (hp : Guided lines image s) (hRoom : HasRoom image.addr)
    (hLines : lines = pre ++ .instr i note :: rest) (hPc : s.pc = place pre)
    (hHere : (pointerAfter pre).Holds image.addr s.index) (hStraight : i.isStraight = true)
    (hRun : execute (i.op image.addr) s = .ok (.running t)) : Guided lines image t := by
  obtain ⟨hNext, hCalls⟩ := execute_straight hStraight hRun
  refine ⟨?_, hCalls ▸ hp.calls⟩
  rw [hNext, hPc]
  exact standing_next hLines (i.pointer_holds hRoom hStraight hRun hHere)

theorem Checked.guided_jump (h : Checked names branches lines image) (hp : Guided lines image s)
    {l : Label} (hLines : lines = pre ++ .instr (.jump l) note :: rest) (hPc : s.pc = place pre)
    (hStep : step image s = .ok (.running t)) : Guided lines image t := by
  have hAt : At lines (.instr (.jump l) note :: rest) s.pc := ⟨pre, hLines, hPc⟩
  by_cases hSelf : image.addr l = s.pc
  · rw [h.assembled.step_halted hAt hSelf] at hStep
    cases hStep
  · rw [h.assembled.step_jump hAt hSelf] at hStep
    cases hStep
    exact ⟨h.standing_target hLines rfl _, hp.calls⟩

theorem Checked.guided_call (h : Checked names branches lines image) (hp : Guided lines image s)
    {l : Label} (hLines : lines = pre ++ .instr (.call l) note :: rest) (hPc : s.pc = place pre)
    (hStep : step image s = .ok (.running t)) : Guided lines image t := by
  rw [h.assembled.step_call ⟨pre, hLines, hPc⟩] at hStep
  cases hStep
  refine ⟨h.standing_target hLines rfl _, ?_⟩
  intro back hBack j
  rcases List.mem_cons.mp hBack with rfl | hBack
  · rw [hPc]
    exact standing_next hLines trivial
  · exact hp.calls back hBack j

/-- A return leads behind a call, where nothing is said of the index register. -/
theorem Checked.guided_ret (h : Checked names branches lines image) (hp : Guided lines image s)
    (hAt : At lines (.instr .ret note :: rest) s.pc) (hStep : step image s = .ok (.running t)) :
    Guided lines image t := by
  cases hCalls : s.calls with
  | nil =>
    obtain ⟨statement, hEq⟩ := h.assembled.step_eq hAt
    simp only [Instr.op, execute, hCalls] at hEq
    rw [hStep] at hEq
    cases hEq
  | cons back calls =>
    rw [h.assembled.step_ret hAt hCalls] at hStep
    cases hStep
    refine ⟨hp.calls back (by simp [hCalls]) _, fun back' hBack => ?_⟩
    exact hp.calls back' (by simp [hCalls, hBack])

/-- A test that may skip something stands before a jump. -/
theorem jump_of_skipNe {f : Flow} {x : Reg} {k : UInt8}
    (hFlow : flow? names branches f (.instr (.skipNe x k) note :: rest) = some .dead)
    (hHolds : f.Holds addr names branches lines s) :
    ∃ l note' rest', rest = .instr (.jump l) note' :: rest' := by
  obtain ⟨g, hLine, hRest⟩ := flow?_cons_eq_some hFlow
  cases f with
  | dead => exact hHolds.elim
  | skipping inProc aim => cases hLine
  | live inProc aim =>
    cases hLine
    obtain ⟨l, note', rest', rfl, -⟩ := jump_of_skipping hRest
    exact ⟨l, note', rest', rfl⟩

theorem Checked.guided_skipNe (h : Checked names branches lines image)
    (hp : Guided lines image s) {x : Reg} {k : UInt8} {l : Label} {note' : Option String}
    (hLines : lines = pre ++ .instr (.skipNe x k) note :: .instr (.jump l) note' :: rest)
    (hPc : s.pc = place pre) (hHere : (pointerAfter pre).Holds image.addr s.index)
    (hStep : step image s = .ok (.running t)) : Guided lines image t := by
  have hAt : At lines (.instr (.skipNe x k) note :: .instr (.jump l) note' :: rest) s.pc :=
    ⟨pre, hLines, hPc⟩
  by_cases hReg : s.reg x = k
  · rw [h.assembled.step_noSkip hAt hReg] at hStep
    cases hStep
    refine ⟨?_, hp.calls⟩
    show Standing lines image.addr (s.pc + 2) s.index
    rw [hPc]
    exact standing_next hLines hHere
  · rw [(h.assembled.step_skip hAt hReg).1] at hStep
    cases hStep
    refine ⟨?_, hp.calls⟩
    show Standing lines image.addr (s.pc + 4) s.index
    have hFar : s.pc + 4 = place (pre ++ [.instr (.skipNe x k) note]) + 2 := by
      rw [place_snoc, hPc, UInt16.add_assoc]
      rfl
    rw [hFar]
    have hSplit : lines =
        (pre ++ [.instr (.skipNe x k) note]) ++ .instr (.jump l) note' :: rest := by simp [hLines]
    exact standing_next hSplit trivial

/-- A step leads from a state with a true account of the index register to another one. -/
theorem Checked.guided_step (h : Checked names branches lines image)
    (hs : OnCourse image.addr names branches lines s) (hp : Guided lines image s)
    (hStep : step image s = .ok (.running t)) : Guided lines image t := by
  obtain ⟨i, note, rest, f, hAt, hFlow, hHolds⟩ := hs.at_instr
  obtain ⟨pre, hLines, hPc⟩ := id hAt
  have hHere := hp.here.at_instr h.assembled hLines hPc
  cases hStraight : i.isStraight with
  | true =>
    obtain ⟨statement, hEq⟩ := h.assembled.step_eq hAt
    rw [hStep] at hEq
    cases hRun : execute (i.op image.addr) s with
    | error trap =>
      rw [hRun] at hEq
      cases hEq
    | ok status =>
      rw [hRun] at hEq
      cases hEq
      exact hp.straight h.room hLines hPc hHere hStraight hRun
  | false =>
    cases i with
    | jump l => exact h.guided_jump hp hLines hPc hStep
    | call l => exact h.guided_call hp hLines hPc hStep
    | ret => exact h.guided_ret hp hAt hStep
    | skipNe x k =>
      obtain ⟨l, note', rest', rfl⟩ := jump_of_skipNe hFlow hHolds
      exact h.guided_skipNe hp hLines hPc hHere hStep
    | _ => cases hStraight

/-! ### What a step writes -/

theorem Instr.not_writes (h : i.writes = false) (a : Nat) : ¬ (i.op addr).Writes s a := by
  cases i <;> first | exact id | cases h

/-- What writes to the word of a global variable is a store for which `Q` says so. -/
theorem Checked.stores_of_writes {Q : String → List Line → List Line → Prop}
    (h : Checked names branches lines image) (hp : Guided lines image s)
    (hAimed : WellAimed Q lines) (hQ : ∀ name pre rest, Q name pre rest → name ∈ names)
    {name : String} (hName : name ∈ names) {a : Nat} (ha : Writes image s a)
    (hLow : (image.addr (.global name)).toNat ≤ a)
    (hHigh : a < (image.addr (.global name)).toNat + 2) :
    ∃ pre rest, lines = pre ++ rest ∧ s.pc = place pre ∧ Q name pre rest := by
  obtain ⟨statement, op, hFetch, hOp⟩ := ha
  obtain ⟨pre, i, note, rest, hLines, hPc⟩ := h.assembled.code hFetch
  obtain ⟨statement', hFetch'⟩ := h.assembled.instr hLines
  rw [hPc, hFetch'] at hFetch
  cases hFetch
  have hHere := hp.here.at_instr h.assembled hLines hPc
  have hWord := h.data.global name hName
  have hDigits := h.data.bcdHigh
  have hZone := h.data.stackZone
  cases hAimed pre i note rest hLines with
  | quiet hQuiet => exact absurd hOp (Instr.not_writes hQuiet a)
  | stack hx hAim =>
    rw [pointerAfter, hAim] at hHere
    have hAbove : zone image.addr ≤ s.index.toNat := hHere
    have hWrites := hOp.1
    omega
  | @global x other hx hAim hStores =>
    rw [pointerAfter, hAim] at hHere
    have hIndex : s.index = image.addr (.global other) := hHere
    obtain ⟨hFrom, hTo⟩ := hOp
    rw [hIndex] at hFrom hTo
    have hSame : other = name := by
      by_contra hNe
      have hApart := h.data.apart other (hQ _ _ _ hStores) name hName hNe
      omega
    exact ⟨pre, _, hLines, hPc, hSame ▸ hStores⟩
  | @digits x l hl hAim =>
    rw [pointerAfter, hAim] at hHere
    have hIndex : s.index = image.addr l := hHere
    have hFrom := hOp.1
    rw [hIndex] at hFrom
    rcases hl with rfl | rfl <;> omega

end

/-! ### Assignments to constants -/

section

variable {read write call : String → Prop} {target : Ident} {value : Expr}

mutual

theorem Stmt.Uses.write_of_mem (stmt : Stmt) (h : stmt.Uses read write call)
    (hMem : (target, value) ∈ stmt.assigns) : write target.name := by
  cases stmt with
  | block stmts span => exact StmtsUse.write_of_mem stmts h hMem
  | assign target' value' =>
    cases List.mem_singleton.mp hMem
    exact h.1
  | call name args => cases hMem
  | ifThen cond yes span => exact Stmt.Uses.write_of_mem yes h.2 hMem
  | ifElse cond yes no span =>
    rcases List.mem_append.mp hMem with hYes | hNo
    · exact Stmt.Uses.write_of_mem yes h.2.1 hYes
    · exact Stmt.Uses.write_of_mem no h.2.2 hNo

theorem StmtsUse.write_of_mem (stmts : List Stmt) (h : StmtsUse read write call stmts)
    (hMem : (target, value) ∈ assignsIn stmts) : write target.name := by
  cases stmts with
  | nil => cases hMem
  | cons stmt stmts =>
    rcases List.mem_append.mp hMem with hHead | hTail
    · exact Stmt.Uses.write_of_mem stmt h.1 hHead
    · exact StmtsUse.write_of_mem stmts h.2 hTail

end

end

section

variable {program : Program} {vars : List VarDecl} {stmts : List Stmt}

theorem KindedBody.mono {look look' : String → Option Symbol}
    (hLook : ∀ name symbol, look name = some symbol → look' name = some symbol)
    (h : KindedBody look stmts) : KindedBody look' stmts :=
  StmtsUse.mono (fun _ ⟨info, hInfo⟩ => ⟨info, hLook _ _ hInfo⟩)
    (fun _ ⟨info, hInfo, hConst⟩ => ⟨info, hLook _ _ hInfo, hConst⟩)
    (fun _ ⟨params, hParams⟩ => ⟨params, hLook _ _ hParams⟩) h

/-- Names that are declared after a procedure change nothing in its body. -/
theorem EveryBody.kinded {ns : List String} {decls : List Decl} {g : Bindings Symbol}
    (hg : g.Keys ns) (hNamed : NamedDecls ns decls) (h : EveryBody KindedBody g decls)
    {proc : ProcDecl} (hProc : .proc proc ∈ decls) :
    KindedBody (lookIn (bindDecls g decls) (bindVars [] proc.vars)) proc.body.stmts := by
  induction decls generalizing g ns with
  | nil => cases hProc
  | cons decl decls ih =>
    cases decl with
    | var decl =>
      have hRest := (List.mem_cons.mp hProc).resolve_left (by simp)
      exact ih (hg.set _ _) hNamed.2.2 h hRest
    | proc other =>
      rcases List.mem_cons.mp hProc with hHead | hRest
      · cases hHead
        have hKeys := hg.set proc.name.name (Decl.proc proc).symbol
        exact h.1.mono fun name symbol => lookIn_mono (bindDecls_get?_of_get? hNamed.2.2 hKeys)
      · exact ih (hg.set _ _) hNamed.2.2 h.2 hRest

theorem Program.WellKinded.kindedBody (hNamed : program.WellNamed) (h : program.WellKinded)
    (hBody : (vars, stmts) ∈ program.bodies) : KindedBody (program.env vars).look stmts := by
  rcases List.mem_cons.mp hBody with hMain | hProc
  · cases hMain
    exact h.body
  · obtain ⟨proc, hMem, hEq⟩ := List.mem_map.mp hProc
    cases hEq
    exact h.decls.kinded (keys_builtins Builtin.symbol) hNamed.decls (Program.mem_procs.mp hMem)

theorem Program.symbols_global (hNamed : program.WellNamed) {decl : VarDecl}
    (hDecl : decl ∈ program.globals) :
    program.symbols.get? decl.name.name = some (decl.symbol true) := by
  have hMem : .var decl ∈ program.decls := by
    obtain ⟨found, hFound, hEq⟩ := List.mem_filterMap.mp hDecl
    cases found with
    | var found =>
      cases hEq
      exact hFound
    | proc found => cases hEq
  rw [Program.symbols_get? hNamed]
  cases hFind : program.decls.find? fun other => other.name = decl.name.name with
  | none => exact absurd (decide_eq_true rfl) (List.find?_eq_none.mp hFind _ hMem)
  | some found =>
    have hFound := List.find?_some hFind
    have hName : found.name = (Decl.var decl).name := of_decide_eq_true hFound
    have hSame := List.inj_on_of_nodup_map hNamed.decls.nodup.1
      (List.mem_of_find?_eq_some hFind) hMem hName
    rw [hSame]
    rfl

/-- What is assigned to is a global variable, and not a constant. -/
theorem StoresFrom.exists_decl (hNamed : program.WellNamed) {name : String} {pre rest : List Line}
    (h : StoresFrom program name pre rest) :
    ∃ decl ∈ program.globals, decl.name.name = name := by
  obtain ⟨vars, stmts, _, _, _, _, _, _, _, hBody, -, -, -, _, _, info, -, -, hLook, hGlobal,
    -⟩ := h
  have hVars := hNamed.namedVars (Program.scope_of_mem_bodies hBody)
  obtain ⟨-, decl, hFind, -⟩ := look_global hNamed hVars hLook hGlobal
  exact ⟨decl, name_of_findVar hFind⟩

/-- No store is to a constant, since no assignment names one. -/
theorem StoresFrom.isConst_eq_false (hNamed : program.WellNamed) (hKinded : program.WellKinded)
    {decl : VarDecl} (hDecl : decl ∈ program.globals) {pre rest : List Line}
    (h : StoresFrom program decl.name.name pre rest) : decl.isConst = false := by
  obtain ⟨vars, stmts, _, _, _, _, _, _, _, hBody, -, -, -, target, value, info, hMem, hTarget,
    hLook, hGlobal, -⟩ := h
  have hVars := hNamed.namedVars (Program.scope_of_mem_bodies hBody)
  obtain ⟨info', hInfo, hConst⟩ := (hKinded.kindedBody hNamed hBody).write_of_mem _ hMem
  obtain ⟨hLocal, -⟩ := look_global hNamed hVars hLook hGlobal
  rw [hTarget, look_eq hVars, hLocal, Program.symbols_global hNamed hDecl] at hInfo
  cases hInfo
  exact hConst

end

/-! ### Runs -/

def globalBytes? (image : Image) (s : State) (decl : VarDecl) : Option (List UInt8) :=
  bytesAt? image s (Label.global decl.name.name).text 2

/-- At this place of the listing stands the store of an assignment to the global variable. -/
def AtStore (program : Program) (lines : List Line) (decl : VarDecl) (pc : UInt16) : Prop :=
  ∃ pre rest, lines = pre ++ rest ∧ pc = place pre ∧ StoresFrom program decl.name.name pre rest

section

variable {program : Program} {stackWords : Nat} {names : List String} {branches : Nat}
  {lines : List Line} {image : Image} {s t : State} {decl : VarDecl}

theorem guided_initial : Guided lines image initial :=
  ⟨⟨[], lines, rfl, rfl, trivial⟩, by simp [initial]⟩

theorem Compiled.globalBytes?_eq (h : Compiled program stackWords lines)
    (hChecked : Checked (program.globals.map (·.name.name)) branches lines image)
    (hDecl : decl ∈ program.globals) (s : State) :
    globalBytes? image s decl =
      some [s.byte (image.addr (.global decl.name.name)).toNat,
        s.byte ((image.addr (.global decl.name.name)).toNat + 1)] := by
  obtain ⟨code, hSplit⟩ := h.code.split
  have hLabel : .global decl.name.name ∈ labelsOf lines := by
    rw [hSplit, labelsOf_append, labelsOf_dataSection]
    simpa using Or.inr ⟨decl, hDecl, rfl⟩
  have hFits : (image.addr (.global decl.name.name)).toNat + 2 ≤ memorySize := by
    have hRoom : zone image.addr + 256 ≤ 0xFFF := hChecked.room
    have hWord := hChecked.data.global decl.name.name (List.mem_map_of_mem hDecl)
    have hDigits := hChecked.data.bcdHigh
    have hZone := hChecked.data.stackZone
    have hSize : memorySize = 0x1000 := rfl
    omega
  exact hChecked.assembled.bytesAt?_eq hLabel hFits

/-- A step that changes a global variable is the store of an assignment to it. -/
theorem Compiled.atStore_of_globalBytes?_ne (h : Compiled program stackWords lines)
    (hChecked : Checked (program.globals.map (·.name.name)) branches lines image)
    (hp : Guided lines image s) (hDecl : decl ∈ program.globals)
    (hStep : step image s = .ok (.running t))
    (hNe : globalBytes? image t decl ≠ globalBytes? image s decl) :
    AtStore program lines decl s.pc := by
  have hNames : ∀ name pre rest, StoresFrom program name pre rest →
      name ∈ program.globals.map (·.name.name) :=
    fun name pre rest hStores => List.mem_map.mpr (hStores.exists_decl h.named)
  rw [h.globalBytes?_eq hChecked hDecl, h.globalBytes?_eq hChecked hDecl] at hNe
  have hChanged : ∃ a, (image.addr (.global decl.name.name)).toNat ≤ a ∧
      a < (image.addr (.global decl.name.name)).toNat + 2 ∧ t.byte a ≠ s.byte a := by
    by_cases hFirst : t.byte (image.addr (.global decl.name.name)).toNat =
        s.byte (image.addr (.global decl.name.name)).toNat
    · refine ⟨_, Nat.le_succ _, Nat.lt_succ_self _, fun hSecond => hNe ?_⟩
      rw [hFirst, hSecond]
    · exact ⟨_, Nat.le_refl _, by omega, hFirst⟩
  obtain ⟨a, hLow, hHigh, hByte⟩ := hChanged
  exact hChecked.stores_of_writes hp h.code.wellAimed hNames (List.mem_map_of_mem hDecl)
    (writes_of_byte_ne hStep hByte) hLow hHigh

/-- Along a run the index register is accounted for, and a constant stays zero. -/
theorem Compiled.kept_after (h : Compiled program stackWords lines)
    (hChecked : Checked (program.globals.map (·.name.name)) branches lines image)
    (hKinded : program.WellKinded) (hDecl : decl ∈ program.globals) {n : Nat}
    (hAfter : after image n initial = some s) :
    Guided lines image s ∧ (decl.isConst = true → globalBytes? image s decl = some [0, 0]) := by
  have hStart : globalBytes? image initial decl = some [0, 0] := by
    rw [h.globalBytes?_eq hChecked hDecl, initial_byte, initial_byte]
  refine (invariant_after (I := fun s =>
    OnCourse image.addr (program.globals.map (·.name.name)) branches lines s ∧
      Guided lines image s ∧ (decl.isConst = true → globalBytes? image s decl = some [0, 0]))
    ?_ ⟨hChecked.onCourse_initial, guided_initial, fun _ => hStart⟩ hAfter).2
  rintro s t ⟨hs, hp, hZero⟩ hStep
  refine ⟨hChecked.onCourse_step hs hStep, hChecked.guided_step hs hp hStep, fun hConst => ?_⟩
  by_contra hNe
  have hChange : globalBytes? image t decl ≠ globalBytes? image s decl := by
    rwa [hZero hConst]
  obtain ⟨pre, rest, -, -, hStores⟩ := h.atStore_of_globalBytes?_ne hChecked hp hDecl hStep hChange
  have hVar := hStores.isConst_eq_false h.named hKinded hDecl
  simp [hConst] at hVar

end

theorem wellKinded_of_compile {source : String} {options : CompileOptions} {c : Compilation}
    {lines : List Line} (hCompile : compile source options = .ok c)
    (hLines : c.listing = some lines) : (parse source).1.WellKinded := by
  obtain ⟨c', hCompile', hEnds⟩ := compile_ends source options
  rw [hCompile] at hCompile'
  cases hCompile'
  cases hEnds with
  | lowered _ hNames hKinds _ _ =>
    exact (Program.wellNamed_of_nameErrors hNames).checkKinds.2 hKinds
  | _ => cases hLines

/-- However long the program runs and however deep its calls are nested, a constant keeps its
zeros, and a global variable changes in nothing but the store of an assignment to it. -/
theorem globals_change_by_assignment {source : String} {options : CompileOptions} {c : Compilation}
    {lines : List Line} {image : Image} (hCompile : compile source options = .ok c)
    (hLines : c.listing = some lines) (hRoom : zoneStart lines + 256 ≤ 0xFFF)
    (hImage : assemble? (listingText lines) = some image) {n : Nat} {s : State}
    (hAfter : after image n initial = some s) {decl : VarDecl}
    (hDecl : decl ∈ (parse source).1.globals) :
    (decl.isConst = true → globalBytes? image s decl = some [0, 0]) ∧
      ∀ t, step image s = .ok (.running t) →
        globalBytes? image t decl ≠ globalBytes? image s decl →
        AtStore (parse source).1 lines decl s.pc := by
  have h := compile_listing hCompile hLines
  have hHasRoom := h.hasRoom hImage hRoom
  obtain ⟨branches, hChecked⟩ := h.checked hImage hHasRoom
  obtain ⟨hp, hZero⟩ := h.kept_after hChecked (wellKinded_of_compile hCompile hLines) hDecl hAfter
  exact ⟨hZero, fun t => h.atStore_of_globalBytes?_ne hChecked hp hDecl⟩

/-- A constant whose name also stands for a parameter, of a procedure that calls itself. -/
def shadowed : String :=
  "const k: long; var x: long;
   procedure f(n: integer; k: long);
   begin k := n; make_bcd(k); x := k + 1; if n then f(n - 1, k) end;
   begin f(k + 2, k) end."

set_option maxRecDepth 1000 in
theorem shadowed_globals_change : ∃ c lines image n s k x,
    compile shadowed ⟨0, false⟩ = .ok c ∧ c.listing = some lines ∧
    zoneStart lines + 256 ≤ 0xFFF ∧ assemble? (listingText lines) = some image ∧
    after image n initial = some s ∧ k ∈ (parse shadowed).1.globals ∧ k.isConst = true ∧
    globalBytes? image s k = some [0, 0] ∧ x ∈ (parse shadowed).1.globals ∧
    globalValue? image s x = some 1 ∧
    ∀ m r t, after image m initial = some r → step image r = .ok (.running t) →
      globalBytes? image t x ≠ globalBytes? image r x →
      AtStore (parse shadowed).1 lines x r.pc := by
  obtain ⟨c, lines, hCompile, hLines, hTest⟩ :=
    exists_listing (p := fun lines => zoneStart lines + 256 ≤ 0xFFF ∧
        (parse shadowed).1.globals.any (·.isConst) ∧
        (parse shadowed).1.globals.any (·.name.name = "x"))
      (by
        rw [show compile shadowed _ = _ from compile_ofList _ _,
          show parse shadowed = _ from parse_ofList _]
        decide +kernel :
          ((compile shadowed ⟨0, false⟩).toOption.bind (·.listing)).any _ = true)
  obtain ⟨hRoom, hSome, hNamed⟩ := of_decide_eq_true hTest
  obtain ⟨k, hk, hConst⟩ := List.any_eq_true.mp hSome
  obtain ⟨x, hx, hName⟩ := List.any_eq_true.mp hNamed
  have h := compile_listing hCompile hLines
  obtain ⟨-, -, -, hEnd⟩ := h.zoneStart_eq
  obtain ⟨image, z, hImage, hZone, hTop⟩ := h.exists_image (by dsimp only at hEnd; omega)
  have hHasRoom := hasRoom_of_get? hZone hTop
  have hStart : StartsFrom (parse shadowed).1 image initial fun _ _ => 0 := by
    refine startsFrom_of_no_locals ?_
    rw [show parse shadowed = _ from parse_ofList _]
    decide +kernel
  have hValue :
      ((parse shadowed).1.run (fun _ _ => 0) 4).toOption.map (·.globals "x") = some 1 := by
    rw [show parse shadowed = _ from parse_ofList _]
    decide +kernel
  cases hRun : (parse shadowed).1.run (fun _ _ => 0) 4 with
  | error e => simp [hRun, Except.toOption] at hValue
  | ok w =>
    obtain ⟨n, s, hAfter, hHalts⟩ := h.run_halts hImage hHasRoom hStart hRun
    refine ⟨c, lines, image, n, s, k, x, hCompile, hLines, hRoom, hImage, hAfter, hk, hConst,
      (globals_change_by_assignment hCompile hLines hRoom hImage hAfter hk).1 hConst, hx, ?_, ?_⟩
    · rw [hHalts.globals x hx, of_decide_eq_true hName]
      simpa [hRun, Except.toOption] using hValue
    · intro m r t hReached
      exact (globals_change_by_assignment hCompile hLines hRoom hImage hReached hx).2 t

end ChipPascal
