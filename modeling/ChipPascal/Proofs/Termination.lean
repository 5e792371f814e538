import ChipPascal.Proofs.CallingConvention
import ChipPascal.Proofs.Safety

/-!
# Programs without recursion halt

In the code of a body every jump leads down, so that nothing but a call can keep control from
getting to the end. Names are declared before they are used: a procedure can only call itself or
one above it. Where none calls itself, every call returns, by induction over the declarations.
Nothing is asked of the data, and the stack pointer may wrap around.
-/

namespace ChipPascal

open Machine Line
open Lowering hiding State

/-! ### Code that is left at its end -/

/-- An instruction before `rest` leads into `rest`, or calls one of the procedures `callable`. -/
def Instr.Descends (callable : String → Prop) (rest : List Line) : Instr → Prop
  | jump l => l ∈ labelsOf rest
  | call l => ∃ name, l = .procedure name ∧ callable name
  | ret => False
  | skipNe _ _ => ∃ l note rest', rest = .instr (.jump l) note :: rest'
  | _ => True

def Descends (callable : String → Prop) : List Line → Prop
  | [] => True
  | .instr i _ :: rest => i.Descends callable rest ∧ Descends callable rest
  | .word :: _ => False
  | .blank :: rest | .remark _ :: rest | .label _ :: rest => Descends callable rest

def Line.isFlat : Line → Bool
  | .instr i _ => i.isStraight
  | .word => false
  | .blank | .remark _ | .label _ => true

def isFlat (lines : List Line) : Bool := lines.all Line.isFlat

section

variable {callable : String → Prop} {a b rest : List Line} {i : Instr} {env : Env}
  {last last' : UInt8}

theorem isFlat_append (ha : isFlat a = true) (hb : isFlat b = true) : isFlat (a ++ b) = true := by
  simp only [isFlat, List.all_append, Bool.and_eq_true]
  exact ⟨ha, hb⟩

theorem Instr.descends_of_isStraight (h : i.isStraight = true) : i.Descends callable rest := by
  cases i <;> trivial

theorem descends_of_isFlat (h : isFlat a = true) : Descends callable a := by
  induction a with
  | nil => trivial
  | cons line a ih =>
    simp only [isFlat, List.all_cons, Bool.and_eq_true] at h
    cases line with
    | instr i note => exact ⟨i.descends_of_isStraight h.1, ih h.2⟩
    | word => cases h.1
    | blank | remark _ | label _ => exact ih h.2

theorem Instr.Descends.append (h : i.Descends callable a) (b : List Line) :
    i.Descends callable (a ++ b) := by
  cases i with
  | jump l =>
    show l ∈ labelsOf (a ++ b)
    rw [labelsOf_append]
    exact List.mem_append_left _ h
  | skipNe x k =>
    obtain ⟨l, note, rest, rfl⟩ := h
    exact ⟨l, note, rest ++ b, rfl⟩
  | call l => exact h
  | ret => exact h
  | _ => trivial

theorem Descends.append (ha : Descends callable a) (hb : Descends callable b) :
    Descends callable (a ++ b) := by
  induction a with
  | nil => exact hb
  | cons line a ih =>
    cases line with
    | instr i note => exact ⟨ha.1.append b, ih ha.2⟩
    | word => exact ha
    | blank | remark _ | label _ => exact ih ha

theorem Descends.right (h : Descends callable (a ++ b)) : Descends callable b := by
  induction a with
  | nil => exact h
  | cons line a ih =>
    cases line with
    | instr i note => exact ih h.2
    | word => exact h.elim
    | blank | remark _ | label _ => exact ih h

/-! ### Statements -/

theorem isFlat_address {name note : String} {isGlobal : Bool}
    (h : AddressCode env.slots name note isGlobal last a last') : isFlat a = true := by
  cases h with
  | global last => rfl
  | slot last offset hOffset => split <;> rfl

theorem isFlat_readVar (mode : Mode) (wide isWide : Bool) :
    isFlat (readVar mode wide isWide) = true := by
  cases mode <;> cases wide <;> cases isWide <;> rfl

theorem isFlat_storeAccumulator (type : ValueType) : isFlat (storeAccumulator type) = true := by
  cases type <;> rfl

theorem isFlat_settleCode (last : UInt8) : isFlat (settleCode last) = true := by
  unfold settleCode
  split <;> rfl

theorem isFlat_enterFrame (size : UInt8) : isFlat (enterFrame size) = true := by
  unfold enterFrame
  split <;> rfl

theorem ExprCode.isFlat {mode : Mode} {wide : Bool} {e : Expr}
    (h : ExprCode env mode wide e last a last') : isFlat a = true := by
  induction h with
  | ref hInfo hAddress => exact isFlat_append (isFlat_address hAddress) (isFlat_readVar _ _ _)
  | @int mode wide _ _ _ n hRead => cases mode <;> cases wide <;> rfl
  | @unary mode wide op _ _ _ _ _ hOperand ih =>
    exact isFlat_append ih (by cases op <;> cases wide <;> rfl)
  | fused hOp hLeaf hLeft hRight ihLeft ihRight => exact isFlat_append ihLeft ihRight
  | @spilled mode wide op opMode _ _ _ _ _ _ _ _ hOp hLeaf hLeft hRight ihLeft ihRight =>
    have hSpill : ChipPascal.isFlat (spill wide) = true := by cases wide <;> rfl
    have hReload : ChipPascal.isFlat (reload opMode wide) = true := by
      cases opMode <;> cases wide <;> rfl
    exact isFlat_append ihLeft (isFlat_append hSpill (isFlat_append ihRight hReload))

theorem ArgsCode.isFlat {args : List (Expr × ValueType)} (h : ArgsCode env args last a last') :
    isFlat a = true := by
  induction h with
  | nil last => rfl
  | @cons arg type _ _ _ _ _ _ hArg hRest ih =>
    refine isFlat_append hArg.isFlat (isFlat_append ?_ ih)
    cases type <;> rfl

/-- The condition jumps down to where its statement ends. -/
theorem CondCode.descends {cond : Expr} {whenZero : Label}
    (h : CondCode env cond whenZero last a) (hb : Descends callable b)
    (hLabel : whenZero ∈ labelsOf b) : Descends callable (a ++ b) := by
  cases h with
  | @mk lines last₁ hCond =>
  have hTest : Descends callable (testCode (cond.isLong env.typeOf) whenZero ++ b) := by
    unfold testCode
    split
    · exact ⟨trivial, ⟨_, _, _, rfl⟩, hLabel, hb⟩
    · exact ⟨⟨_, _, _, rfl⟩, hLabel, hb⟩
  have hFlat := isFlat_append hCond.isFlat (isFlat_settleCode last₁)
  simpa using (descends_of_isFlat hFlat).append hTest

/-- Of the calls in the code, only those of declared procedures are calls of the machine. -/
theorem CallCode.descends {name : Ident} {args : List Expr}
    (h : CallCode env name last args a last')
    (hCall : ∀ params, Intrinsic.ofName? name.name = none →
      env.look name.name = some (.proc params) → callable name.name) : Descends callable a := by
  cases h with
  | bcd hName hArg => exact descends_of_isFlat (isFlat_append hArg.isFlat rfl)
  | @intrinsic intrinsic hName hOther => exact descends_of_isFlat (by cases intrinsic <;> rfl)
  | user hName hProc hCount hArgs =>
    have hJump : Descends callable [plain (.call (.procedure name.name)), blank] :=
      ⟨⟨_, rfl, hCall _ hName hProc⟩, trivial⟩
    exact ⟨trivial, (descends_of_isFlat hArgs.isFlat).append ⟨trivial, hJump⟩⟩

mutual

/-- The code of a statement leads to its end, as there are no loops to lower. -/
theorem StmtCode.descends {last last' : UInt8} {n n' : Nat} {lines : List Line} (stmt : Stmt)
    (h : StmtCode env stmt last n lines last' n')
    (hCalls : ∀ call ∈ stmt.calls, ∀ params, Intrinsic.ofName? call.1.name = none →
      env.look call.1.name = some (.proc params) → callable call.1.name) :
    Descends callable lines := by
  cases stmt with
  | block stmts span =>
    cases h with
    | block h => exact StmtsCode.descends stmts h (by simpa [Stmt.calls] using hCalls)
  | assign target value =>
    cases h with
    | @assign _ _ info _ _ _ _ _ _ hInfo hValue hAddress =>
    refine descends_of_isFlat (isFlat_append hValue.isFlat (isFlat_append (isFlat_address hAddress)
      (isFlat_append (isFlat_storeAccumulator info.type) rfl)))
  | call name args =>
    cases h with
    | call h => exact h.descends (hCalls (name, args) (by simp [Stmt.calls]))
  | ifThen cond yes span =>
    cases h with
    | @ifThen _ _ _ _ _ test body last₁ _ hCond hYes =>
    have hBody := StmtCode.descends yes hYes (by simpa [Stmt.calls] using hCalls)
    have hEnd := isFlat_append (isFlat_settleCode last₁) (b := [.label (.elseBranch n)]) rfl
    refine hCond.descends (hBody.append (descends_of_isFlat hEnd)) ?_
    simp [labelsOf, Line.label?]
  | ifElse cond yes no span =>
    cases h with
    | @ifElse _ _ _ _ _ _ test first last₁ n₁ second last₂ _ hCond hYes hNo =>
    simp only [Stmt.calls, List.mem_append] at hCalls
    have hFirst := StmtCode.descends yes hYes fun call hCall => hCalls call (.inl hCall)
    have hSecond := StmtCode.descends no hNo fun call hCall => hCalls call (.inr hCall)
    have hEnd := isFlat_append (isFlat_settleCode last₂) (b := [.label (.endBranch n)]) rfl
    have hRest := hSecond.append (descends_of_isFlat hEnd)
    refine hCond.descends (hFirst.append ((descends_of_isFlat (isFlat_settleCode last₁)).append
      ⟨?_, hRest⟩)) ?_
    · show Label.endBranch n ∈ _
      simp [labelsOf, Line.label?]
    · simp [labelsOf, Line.label?]

theorem StmtsCode.descends {last last' : UInt8} {n n' : Nat} {lines : List Line}
    (stmts : List Stmt) (h : StmtsCode env stmts last n lines last' n')
    (hCalls : ∀ call ∈ callsIn stmts, ∀ params, Intrinsic.ofName? call.1.name = none →
      env.look call.1.name = some (.proc params) → callable call.1.name) :
    Descends callable lines := by
  cases stmts with
  | nil =>
    cases h
    trivial
  | cons stmt stmts =>
    cases h with
    | cons hStmt hStmts =>
    simp only [callsIn, List.mem_append] at hCalls
    exact (StmtCode.descends stmt hStmt fun call hCall => hCalls call (.inl hCall)).append
      (StmtsCode.descends stmts hStmts fun call hCall => hCalls call (.inr hCall))

end

end

/-! ### Control gets to the end of the code -/

def Machine.Eventually (image : Image) (P : State → Prop) (s : State) : Prop :=
  ∃ n t, after image n s = some t ∧ P t

/-- Only a jump can halt the machine. -/
theorem execute_ne_halted {addr : Label → UInt16} {i : Instr} {s t : State}
    (h : i.isStraight = true) : execute (i.op addr) s ≠ .ok (.halted t) := by
  intro hRun
  cases i with
  | skipNe x k | jump l | call l | ret => cases h
  | save x | load x | decimal x =>
    simp only [Instr.op, execute] at hRun
    split at hRun <;> cases hRun
  | _ => cases hRun

section

variable {image : Image} {P Q : State → Prop} {s t : State}

theorem Machine.Eventually.step (hStep : Machine.step image s = .ok (.running t))
    (h : Eventually image P t) : Eventually image P s := by
  obtain ⟨n, u, hAfter, hu⟩ := h
  exact ⟨n + 1, u, (after_succ hStep n).trans hAfter, hu⟩

theorem Machine.Eventually.trans {n : Nat} (hAfter : after image n s = some t)
    (h : Eventually image P t) : Eventually image P s := by
  obtain ⟨m, u, hAfter', hu⟩ := h
  exact ⟨n + m, u, (after_add hAfter m).trans hAfter', hu⟩

variable {names : List String} {branches : Nat} {lines front rest : List Line}
  {callable : String → Prop} {i : Instr} {note : Option String}

theorem Checked.step_straight (h : Checked names branches lines image)
    (hs : OnCourse image.addr names branches lines s)
    (hAt : At lines (.instr i note :: rest) s.pc) (hStraight : i.isStraight = true) :
    ∃ t, step image s = .ok (.running t) ∧ At lines rest t.pc ∧ t.calls = s.calls := by
  obtain ⟨statement, hEq⟩ := h.assembled.step_eq hAt
  cases hRun : execute (i.op image.addr) s with
  | error trap =>
    rw [hRun] at hEq
    rcases h.goesOn hs with hStep | ⟨t, hStep, -⟩ <;>
    · rw [hEq] at hStep
      cases hStep
  | ok status =>
    rw [hRun] at hEq
    cases status with
    | halted t => exact absurd hRun (execute_ne_halted hStraight)
    | running t =>
      obtain ⟨hPc, hCalls⟩ := execute_straight hStraight hRun
      exact ⟨t, hEq, hPc ▸ At.next rfl hAt, hCalls⟩

/-- A call of the procedure returns, whatever is in the registers and in memory. -/
def ComesBack (names : List String) (branches : Nat) (lines : List Line) (image : Image)
    (name : String) : Prop :=
  ∀ s back calls, OnCourse image.addr names branches lines s →
    s.pc = image.addr (.procedure name) → s.calls = back :: calls →
    Eventually image (fun t => t.pc = back ∧ t.calls = calls) s

/-- Control gets to the end of lines that descend, if all that is called comes back. -/
theorem Checked.passes (h : Checked names branches lines image)
    (hBack : ∀ name, callable name → ComesBack names branches lines image name)
    (hFront : Descends callable front) (hs : OnCourse image.addr names branches lines s)
    (hAt : At lines (front ++ rest) s.pc) :
    Eventually image (fun t => At lines rest t.pc ∧ t.calls = s.calls) s := by
  -- a jump goes over the lines up to its label, so the induction is on the length
  induction hLength : front.length using Nat.strong_induction_on generalizing front s with
  | _ length ih =>
  subst hLength
  cases front with
  | nil => exact ⟨0, s, rfl, hAt, rfl⟩
  | cons line front =>
    cases line with
    | blank | remark _ | label _ =>
      have hFront : Descends callable front := hFront
      exact ih _ (Nat.lt_succ_self _) hFront hs (At.pass rfl hAt) rfl
    | word => exact hFront.elim
    | instr i note =>
    obtain ⟨hInstr, hFront⟩ := hFront
    cases hStraight : i.isStraight with
    | true =>
      obtain ⟨t, hStep, hNext, hCalls⟩ := h.step_straight hs hAt hStraight
      rw [← hCalls]
      exact .step hStep (ih _ (Nat.lt_succ_self _) hFront (h.onCourse_step hs hStep) hNext rfl)
    | false =>
      cases i with
      | jump l =>
        obtain ⟨mid, after, rfl⟩ := mem_labelsOf.mp hInstr
        have hAt' : At lines (.instr (.jump l) note :: (mid ++ .label l :: (after ++ rest))) s.pc := by
          simpa using hAt
        have hStep := h.assembled.step_jump hAt' (h.assembled.addr_ne hAt')
        have hAfter : Descends callable after := hFront.right (b := .label l :: after)
        refine .step hStep (ih _ ?_ hAfter (h.onCourse_step hs hStep)
          (h.assembled.path_jump hAt').2 rfl)
        simp only [List.length_cons, List.length_append]
        omega
      | call l =>
        obtain ⟨name, rfl, hName⟩ := hInstr
        have hStep := h.assembled.step_call hAt
        have hCallee := h.onCourse_step hs hStep
        obtain ⟨n, t, hAfter, hPc, hCalls⟩ := hBack name hName _ _ _ hCallee rfl rfl
        refine .step hStep (.trans hAfter ?_)
        rw [← hCalls]
        refine ih _ (Nat.lt_succ_self _) hFront (h.onCourse_after hCallee hAfter) ?_ rfl
        rw [hPc]
        exact At.next rfl hAt
      | skipNe x k =>
        obtain ⟨l, note', rest', rfl⟩ := hInstr
        by_cases hReg : s.reg x = k
        · have hStep := h.assembled.step_noSkip hAt hReg
          exact .step hStep (ih _ (Nat.lt_succ_self _) hFront (h.onCourse_step hs hStep)
            (At.next rfl hAt) rfl)
        · obtain ⟨hStep, hNext⟩ := h.assembled.step_skip hAt hReg
          refine .step hStep (ih _ ?_ hFront.2 (h.onCourse_step hs hStep) hNext rfl)
          simp only [List.length_cons]
          omega
      | ret => exact hInstr.elim
      | _ => cases hStraight

end

/-! ### Procedures call what is above them -/

section

variable {read write call : String → Prop}

mutual

theorem Stmt.Uses.call_of_mem (stmt : Stmt) (h : stmt.Uses read write call)
    {c : Ident × List Expr} (hMem : c ∈ stmt.calls) : call c.1.name := by
  cases stmt with
  | block stmts span => exact StmtsUse.call_of_mem stmts h (by simpa [Stmt.calls] using hMem)
  | assign target value => simp [Stmt.calls] at hMem
  | call name args =>
    simp only [Stmt.calls, List.mem_singleton] at hMem
    rw [hMem]
    exact h.1
  | ifThen cond yes span => exact Stmt.Uses.call_of_mem yes h.2 (by simpa [Stmt.calls] using hMem)
  | ifElse cond yes no span =>
    rcases List.mem_append.mp (by simpa only [Stmt.calls] using hMem) with hYes | hNo
    · exact Stmt.Uses.call_of_mem yes h.2.1 hYes
    · exact Stmt.Uses.call_of_mem no h.2.2 hNo

theorem StmtsUse.call_of_mem (stmts : List Stmt) (h : StmtsUse read write call stmts)
    {c : Ident × List Expr} (hMem : c ∈ callsIn stmts) : call c.1.name := by
  cases stmts with
  | nil => simp [callsIn] at hMem
  | cons stmt stmts =>
    rcases List.mem_append.mp (by simpa only [callsIn] using hMem) with hHead | hTail
    · exact Stmt.Uses.call_of_mem stmt h.1 hHead
    · exact StmtsUse.call_of_mem stmts h.2 hTail

end

end

section

variable {program : Program} {names : List String} {branches : Nat} {lines : List Line}
  {image : Image} {proc : ProcDecl} {ns : List String}

/-- A name that is called is that of a procedure above, or of the procedure itself. -/
theorem NamedProc.called (h : NamedProc ns proc) {call : Ident × List Expr}
    (hCall : call ∈ callsIn proc.body.stmts) {params : List ValueType}
    (hLook : (program.env proc.vars).look call.1.name = some (.proc params)) :
    call.1.name ∈ ns := by
  rcases List.mem_append.mp (StmtsUse.call_of_mem _ h.body hCall) with hVar | hName
  · obtain ⟨decl, hDecl, hEq⟩ := List.mem_map.mp (List.mem_reverse.mp hVar)
    have hFind := findVar_of_mem h.vars.nodup.1 hDecl
    rw [hEq] at hFind
    rw [look_eq h.vars, hFind] at hLook
    simp [VarDecl.symbol] at hLook
  · exact hName

/-- A procedure comes back if all that it calls does. -/
theorem Loaded.comesBack_of_calls (hLoaded : Loaded program lines image)
    (h : Checked names branches lines image) (hProc : proc ∈ program.procs)
    (hCalls : ∀ call ∈ callsIn proc.body.stmts, ∀ params, Intrinsic.ofName? call.1.name = none →
      (program.env proc.vars).look call.1.name = some (.proc params) →
      ComesBack names branches lines image call.1.name) :
    ComesBack names branches lines image proc.name.name := by
  intro s back calls hs hPc hStack
  obtain ⟨-, n, code, n', rest, hCode, hSuffix⟩ := hLoaded.proc proc hProc
  cases hCode with
  | @mk body last _ hSize hBody =>
  have hLeave := isFlat_append (isFlat_settleCode last) (b := leaveFrame) rfl
  have hFront := (descends_of_isFlat (isFlat_enterFrame (UInt8.ofNat proc.frameSize))).append
    ((StmtsCode.descends _ hBody hCalls).append (descends_of_isFlat hLeave))
  have hAt : At lines ((enterFrame (UInt8.ofNat proc.frameSize) ++ (body ++ (settleCode last ++
      leaveFrame))) ++ (plain .ret :: blank :: rest)) s.pc := by
    rw [hPc]
    refine h.assembled.at_label ?_
    simpa using hSuffix
  obtain ⟨m, t, hAfter, hRet, hSame⟩ := h.passes (fun _ => id) hFront hs hAt
  have hStep := h.assembled.step_ret hRet (hSame.trans hStack)
  exact .trans hAfter (.step hStep ⟨0, _, rfl, rfl, rfl⟩)

/-- Procedures come back if those above them do and none calls itself. -/
theorem Loaded.comesBack (hLoaded : Loaded program lines image)
    (h : Checked names branches lines image)
    (hSelf : ∀ proc ∈ program.procs, ∀ call ∈ callsIn proc.body.stmts,
      call.1.name ≠ proc.name.name) {decls : List Decl} (hNamed : NamedDecls ns decls)
    (hDecls : decls ⊆ program.decls)
    (hAbove : ∀ proc ∈ program.procs, proc.name.name ∈ ns →
      ComesBack names branches lines image proc.name.name) :
    ∀ proc, .proc proc ∈ decls → ComesBack names branches lines image proc.name.name := by
  induction decls generalizing ns with
  | nil => simp
  | cons decl decls ih =>
    obtain ⟨hDecl, hBelow⟩ := List.cons_subset.mp hDecls
    intro proc hMem
    cases decl with
    | var decl =>
      obtain ⟨-, -, hRest⟩ := hNamed
      refine ih hRest hBelow ?_ proc (by simpa using hMem)
      intro other hOther hName
      rcases List.mem_cons.mp hName with hName | hName
      · have hUnique := List.inj_on_of_nodup_map hLoaded.named.decls.nodup.1
        cases hUnique (Program.mem_procs.mp hOther) hDecl hName
      · exact hAbove other hOther hName
    | proc first =>
      obtain ⟨-, hFirst, hRest⟩ := hNamed
      have hFirstBack : ComesBack names branches lines image first.name.name := by
        have hProc := Program.mem_procs.mpr hDecl
        refine hLoaded.comesBack_of_calls h hProc ?_
        intro call hCall params hUser hLook
        rcases List.mem_cons.mp (hFirst.called hCall hLook) with hOwn | hName
        · exact absurd hOwn (hSelf first hProc call hCall)
        · obtain ⟨other, hFind, -⟩ := look_proc hLoaded.named hFirst.vars hLook hUser
          have hSame : other.name.name = call.1.name := by
            simpa using List.find?_some hFind
          rw [← hSame] at hName ⊢
          exact hAbove other (List.mem_of_find?_eq_some hFind) hName
      rcases List.mem_cons.mp hMem with hEq | hMem
      · cases hEq
        exact hFirstBack
      · refine ih hRest hBelow ?_ proc hMem
        intro other hOther hName
        rcases List.mem_cons.mp hName with hName | hName
        · rw [hName]
          exact hFirstBack
        · exact hAbove other hOther hName

/-- The program gets to its final jump, which leads to itself. -/
theorem Compiled.halts {stackWords : Nat} (hCompiled : Compiled program stackWords lines)
    (hLoaded : Loaded program lines image) (h : Checked names branches lines image)
    (hSelf : ∀ proc ∈ program.procs, ∀ call ∈ callsIn proc.body.stmts,
      call.1.name ≠ proc.name.name) :
    Eventually image (fun s => s.pc = image.addr .finish ∧ step image s = .ok (.halted s))
      initial := by
  have hBack : ∀ proc ∈ program.procs, ComesBack names branches lines image proc.name.name := by
    intro proc hProc
    refine hLoaded.comesBack h hSelf hLoaded.named.decls (List.Subset.refl _) ?_ proc
      (Program.mem_procs.mp hProc)
    intro other hOther hName
    exact absurd hName (hLoaded.named.decls.nodup.2 _ (Program.mem_procs.mp hOther))
  obtain ⟨-, -, hCode⟩ := hCompiled
  cases hCode with
  | @mk decls n main last n' hDecls hMain =>
  obtain ⟨s, ⟨m, hAfter, -⟩, hAt, -⟩ := hLoaded.path_setup rfl
  have hBody : Descends (fun name => ∃ proc ∈ program.procs, proc.name.name = name) main := by
    have hNoVars : NamedVars [] [] := trivial
    refine StmtsCode.descends _ hMain ?_
    intro call hCall params hUser hLook
    obtain ⟨proc, hFind, -⟩ := look_proc hLoaded.named hNoVars hLook hUser
    exact ⟨proc, List.mem_of_find?_eq_some hFind, by simpa using List.find?_some hFind⟩
  have hFront := hBody.append (descends_of_isFlat (isFlat_settleCode last))
  have hs := h.onCourse_after h.onCourse_initial hAfter
  obtain ⟨k, t, hAfter', hEnd, -⟩ := h.passes (fun name ⟨proc, hProc, hName⟩ =>
    hName ▸ hBack proc hProc) hFront hs (by rw [List.append_assoc]; exact hAt)
  have hFinish : t.pc = image.addr .finish := by
    obtain ⟨pre, hLines, hPc⟩ := At.pass rfl hEnd
    rw [hPc, h.assembled.addr_eq hLines]
  have hJump := At.pass rfl (At.pass rfl hEnd)
  exact .trans hAfter (.trans hAfter'
    ⟨0, t, rfl, hFinish, h.assembled.step_halted hJump hFinish.symm⟩)

end

/-! ### Jumps that lead to themselves -/

/-- Every jump leads down, or to one of the labels `exits`. -/
def JumpsDown (exits : List Label) : List Line → Prop
  | [] => True
  | line :: rest =>
    (∀ l note, line = .instr (.jump l) note → l ∈ labelsOf rest ∨ l ∈ exits) ∧ JumpsDown exits rest

section

variable {exits : List Label} {a b : List Line}

/-- Jumps of the first part may lead to labels of the second. -/
theorem JumpsDown.append (ha : JumpsDown (labelsOf b ++ exits) a) (hb : JumpsDown exits b) :
    JumpsDown exits (a ++ b) := by
  induction a with
  | nil => exact hb
  | cons line a ih =>
    refine ⟨?_, ih ha.2⟩
    intro l note hLine
    show l ∈ labelsOf (a ++ b) ∨ l ∈ exits
    rw [labelsOf_append, List.mem_append, or_assoc, ← List.mem_append]
    exact ha.1 l note hLine

theorem JumpsDown.mem {l : Label} {note : Option String}
    (h : JumpsDown exits (a ++ .instr (.jump l) note :: b)) : l ∈ labelsOf b ∨ l ∈ exits := by
  induction a with
  | nil => exact h.1 l note rfl
  | cons line a ih => exact ih h.2

theorem jumpsDown_of_not_mem (h : ∀ l note, .instr (.jump l) note ∉ a) : JumpsDown exits a := by
  induction a with
  | nil => trivial
  | cons line a ih =>
    refine ⟨?_, ih fun l note hMem => h l note (List.mem_cons_of_mem _ hMem)⟩
    intro l note hLine
    exact absurd (by simp [hLine]) (h l note)

theorem Descends.jumpsDown {callable : String → Prop} (h : Descends callable a) :
    JumpsDown exits a := by
  induction a with
  | nil => trivial
  | cons line a ih =>
    cases line with
    | instr i note =>
      refine ⟨?_, ih h.2⟩
      rintro l note' ⟨⟩
      exact .inl h.1
    | word => exact h.elim
    | blank | remark _ | label _ => exact ⟨by simp, ih h⟩

theorem jumpsDown_of_isFlat (h : isFlat a = true) : JumpsDown exits a := by
  have hDown : Descends (fun _ => False) a := descends_of_isFlat h
  exact hDown.jumpsDown

theorem StmtsCode.jumpsDown {env : Env} {stmts : List Stmt} {last last' : UInt8} {n n' : Nat}
    (h : StmtsCode env stmts last n a last' n') : JumpsDown exits a := by
  have hDown : Descends (fun _ => True) a := StmtsCode.descends stmts h (by simp)
  exact hDown.jumpsDown

variable {program : Program} {lines : List Line} {image : Image} {stackWords : Nat}

theorem ProcCode.jumpsDown {proc : ProcDecl} {n n' : Nat} (h : ProcCode program proc n a n') :
    JumpsDown exits a := by
  cases h with
  | @mk body last _ hSize hBody =>
  have hLeave : JumpsDown exits (leaveFrame ++ [plain .ret, blank]) :=
    jumpsDown_of_not_mem (by simp [leaveFrame])
  have hEnd := (jumpsDown_of_isFlat (isFlat_settleCode last)).append hLeave
  refine ⟨by simp, JumpsDown.append ?_ (hBody.jumpsDown.append hEnd)⟩
  exact jumpsDown_of_isFlat (isFlat_enterFrame _)

theorem DeclsCode.jumpsDown {decls : List Decl} {n n' : Nat}
    (h : DeclsCode program decls n a n') : JumpsDown exits a := by
  induction h generalizing exits with
  | nil n => trivial
  | var h ih => exact ih
  | proc hProc hDecls ih => exact hProc.jumpsDown.append ih

theorem jumpsDown_preamble (name : String) (h : .entry ∈ exits) :
    JumpsDown exits (preamble name) := by
  have hFlat : isFlat ([.remark name, .remark "CHIP-8 listing"] ++
      Reg.all.map (fun x => .remark x.explained) ++ [blank] ++
        Reg.all.map (fun x => plain (.set x x.initial)) ++ [plain (.indexByte 0)]) = true := by
    simp [isFlat, Line.isFlat, Instr.isStraight]
  have hJump : JumpsDown exits [plain (.jump .entry), blank] := by
    simp [JumpsDown, h]
  simpa [preamble] using (jumpsDown_of_isFlat hFlat).append hJump

/-- All jumps of a program lead down, but for the one to its end. -/
theorem ProgramCode.jumpsDown (h : ProgramCode program stackWords lines) :
    JumpsDown [.finish] lines := by
  cases h with
  | @mk decls n main last n' hDecls hMain =>
  generalize program.globals.map (·.name.name) = names
  have hData : JumpsDown [.finish] (dataSection names stackWords) :=
    jumpsDown_of_not_mem fun l note => instr_not_mem_dataSection (.jump l) note
  have hFinish : JumpsDown [.finish] (finishCode ++ dataSection names stackWords) :=
    ⟨by simp, by simp, by simp, by simp, hData⟩
  have hMain' := JumpsDown.append hMain.jumpsDown
    (.append (jumpsDown_of_isFlat (isFlat_settleCode last)) hFinish)
  refine .append (jumpsDown_preamble _ ?_) (hDecls.jumpsDown.append ⟨by simp, hMain'⟩)
  simp [labelsOf, Line.label?]

/-- A jump in memory comes from a jump of the listing. -/
theorem Assembled.jump_of_fetch? (h : Assembled lines image) {pc target : UInt16}
    {statement : Statement} (hFetch : image.fetch? pc = some (.code statement (.ok (.jump target)))) :
    ∃ pre l note rest, lines = pre ++ .instr (.jump l) note :: rest ∧ pc = place pre ∧
      target = image.addr l := by
  obtain ⟨pre, i, note, rest, hLines, rfl⟩ := h.code hFetch
  obtain ⟨statement', hFetch'⟩ := h.instr hLines
  rw [hFetch] at hFetch'
  cases i with
  | jump l =>
    cases hFetch'
    exact ⟨pre, l, note, rest, hLines, rfl, rfl⟩
  | _ => cases hFetch'

theorem ProgramCode.finish_split (h : ProgramCode program stackWords lines) :
    ∃ pre rest, lines = pre ++ .label .finish :: plain (.jump .finish) :: rest := by
  cases h with
  | @mk decls n main last n' hDecls hMain =>
  exact ⟨preamble program.name.name ++ (decls ++ (.label .entry :: (main ++ (settleCode last ++
    [blank])))), blank :: dataSection (program.globals.map (·.name.name)) stackWords,
      by simp [finishCode]⟩

/-- Only the last jump leads to itself. -/
theorem ProgramCode.jump_self_iff (h : ProgramCode program stackWords lines)
    (hAssembled : Assembled lines image) {pc : UInt16} :
    (∃ statement, image.fetch? pc = some (.code statement (.ok (.jump pc)))) ↔
      pc = image.addr .finish := by
  constructor
  · rintro ⟨statement, hFetch⟩
    obtain ⟨pre, l, note, rest, hLines, hPc, hTarget⟩ := hAssembled.jump_of_fetch? hFetch
    have hDown := h.jumpsDown
    rw [hLines] at hDown
    rcases hDown.mem with hMem | hMem
    · obtain ⟨mid, after, rfl⟩ := mem_labelsOf.mp hMem
      exact absurd hTarget.symm (hAssembled.addr_ne ⟨pre, hLines, hPc⟩)
    · rw [hTarget, List.mem_singleton.mp hMem]
  · rintro rfl
    obtain ⟨pre, rest, hFinish⟩ := h.finish_split
    have hSplit : lines = (pre ++ [.label .finish]) ++ plain (.jump .finish) :: rest := by
      simp [hFinish]
    have hPlace : image.addr .finish = place (pre ++ [.label .finish]) := by
      rw [hAssembled.addr_eq hFinish]
      simp [place, Line.cells]
    obtain ⟨statement, hFetch⟩ := hAssembled.instr hSplit
    rw [← hPlace] at hFetch
    exact ⟨statement, hFetch⟩

end

/-- A program in which no procedure calls itself halts, whatever it computes, if there is room for
the stack. It halts at its end, where the only jump stands that leads to itself. Its listing is
assembled if all the words of the stack have addresses. -/
theorem compile_halts {source : String} {options : CompileOptions} {c : Compilation}
    {lines : List Line} (hCompile : compile source options = .ok c)
    (hLines : c.listing = some lines) (hRoom : zoneStart lines + 256 ≤ 0xFFF)
    (hSelf : ∀ proc ∈ (parse source).1.procs, ∀ call ∈ callsIn proc.body.stmts,
      call.1.name ≠ proc.name.name) :
    (zoneStart lines + 2 * options.stackWords ≤ 0xFFFF →
      ∃ image, assemble? (listingText lines) = some image) ∧
    ∀ image, assemble? (listingText lines) = some image →
      ∃ pc, image.labels.get? Label.finish.text = some pc ∧
        (∃ n s, after image n initial = some s ∧ s.pc = pc ∧ step image s = .ok (.halted s)) ∧
        ∀ pc', (∃ statement, image.fetch? pc' = some (.code statement (.ok (.jump pc')))) ↔
          pc' = pc := by
  have h := compile_listing hCompile hLines
  refine ⟨?_, ?_⟩
  · intro hEnd
    obtain ⟨image, -, hImage, -⟩ := h.exists_checked hRoom hEnd
    exact ⟨image, hImage⟩
  · intro image hImage
    have hHasRoom := h.hasRoom hImage hRoom
    obtain ⟨branches, hChecked⟩ := h.checked hImage hHasRoom
    obtain ⟨pre, rest, hFinish⟩ := h.code.finish_split
    have hLabel : image.labels.get? Label.finish.text = some (image.addr .finish) := by
      rw [hChecked.assembled.label hFinish, hChecked.assembled.addr_eq hFinish]
    refine ⟨image.addr .finish, hLabel, ?_, ?_⟩
    · exact h.halts (h.loaded hImage hHasRoom) hChecked hSelf
    · exact fun pc' => h.code.jump_self_iff hChecked.assembled

/-- Calls of procedures that call others, within branches and one after the other. -/
def ladder : String :=
  "var x: long; procedure f(n: integer); var k: long; begin k := n; x := x + k end;
   procedure g(n: integer); begin f(n); if x then f(7) else cls() end; begin g(9); g(x) end."

set_option maxRecDepth 1000 in
theorem ladder_halts : ∃ c lines image n s, compile ladder ⟨4, false⟩ = .ok c ∧
    c.listing = some lines ∧ zoneStart lines + 256 ≤ 0xFFF ∧
    (parse ladder).1.procs.length = 2 ∧
    (∀ proc ∈ (parse ladder).1.procs, ∀ call ∈ callsIn proc.body.stmts,
      call.1.name ≠ proc.name.name) ∧
    assemble? (listingText lines) = some image ∧ after image n initial = some s ∧
    image.labels.get? Label.finish.text = some s.pc ∧ step image s = .ok (.halted s) := by
  obtain ⟨c, lines, hCompile, hLines, hTest⟩ :=
    exists_listing (p := fun lines => zoneStart lines + 256 ≤ 0xFFF ∧
        (parse ladder).1.procs.length = 2 ∧
        ∀ proc ∈ (parse ladder).1.procs, ∀ call ∈ callsIn proc.body.stmts,
          call.1.name ≠ proc.name.name)
      (by
        rw [show compile ladder _ = _ from compile_ofList _ _,
          show parse ladder = _ from parse_ofList _]
        decide +kernel :
          ((compile ladder ⟨4, false⟩).toOption.bind (·.listing)).any _ = true)
  obtain ⟨hRoom, hProcs, hSelf⟩ := of_decide_eq_true hTest
  obtain ⟨hAssembles, hHalts⟩ := compile_halts hCompile hLines hRoom hSelf
  obtain ⟨image, hImage⟩ := hAssembles (by dsimp only; omega)
  obtain ⟨pc, hPc, ⟨n, s, hAfter, rfl, hHalted⟩, -⟩ := hHalts image hImage
  exact ⟨c, lines, image, n, s, hCompile, hLines, hRoom, hProcs, hSelf, hImage, hAfter, hPc,
    hHalted⟩

end ChipPascal
