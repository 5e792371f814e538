import ChipPascal.Proofs.ListingLabels

/-!
# A check of the flow of control

One pass over a listing tells whether control and the index register can go astray: what `I` points
at is tracked from line to line, jumps stay in the part of the listing that they start from,
returns occur in procedures only, and no path runs off the code. Every compiled listing passes.
-/

namespace ChipPascal

open Lowering Line

inductive Aim where
  | anywhere
  /-- At the word of a global variable. -/
  | word
  /-- At one of the zones for decimal digits. -/
  | digits
  /-- At the start of the stack zone. -/
  | zone
  /-- Within the bytes of the stack that a register can count. -/
  | stack
deriving DecidableEq, Repr

def Aim.isWord : Aim → Bool
  | word | stack => true
  | anywhere | digits | zone => false

/-- How a line can be reached. -/
inductive Flow where
  /-- Not from the line before. -/
  | dead
  | live (inProc : Bool) (aim : Aim)
  /-- After a test, which may skip the line. -/
  | skipping (inProc : Bool) (aim : Aim)
deriving DecidableEq, Repr

/-- Whether a label stands in a procedure; `branches` are numbered there. Data is in neither
part. -/
def Label.inProc? (branches : Nat) : Label → Option Bool
  | procedure _ => some true
  | entry | finish => some false
  | elseBranch n | endBranch n => some (decide (n < branches))
  | global _ | bcdLow | bcdHigh | stackZone => none

namespace Instr

def aim? (names : List String) (aim : Aim) : Instr → Option Aim
  | index (.global name) => if name ∈ names then some .word else none
  | index .bcdLow | index .bcdHigh => some .digits
  | index .stackZone => some .zone
  | index _ => none
  | indexByte _ | glyph _ => some .anywhere
  | addIndex _ => some (if aim = .zone then .stack else .anywhere)
  | save x => if aim.isWord ∧ x.val ≤ 1 then some aim else none
  | load x => if aim.isWord ∧ x.val ≤ 1 ∨ aim = .digits ∧ x.val ≤ 2 then some aim else none
  | decimal _ => if aim = .digits then some aim else none
  | _ => some aim

def flow? (names : List String) (branches : Nat) (inProc : Bool) (aim : Aim) : Instr → Option Flow
  | jump l => if l.inProc? branches = some inProc then some .dead else none
  | call l => if l.inProc? branches = some true then some (.live inProc .anywhere) else none
  | ret => if inProc then some .dead else none
  | skipNe _ _ => some (.skipping inProc aim)
  | i => (i.aim? names aim).map (.live inProc)

end Instr

/-- How the next line can be reached, unless something is wrong with this one. -/
def Line.flow? (names : List String) (branches : Nat) : Flow → Line → Option Flow
  | .skipping inProc aim, .instr (.jump l) _ =>
    if l.inProc? branches = some inProc then some (.live inProc aim) else none
  | .skipping _ _, _ => none
  | f, .blank | f, .remark _ => some f
  | .dead, .label l =>
    match l.inProc? branches with
    | some inProc => some (.live inProc .anywhere)
    | none => some .dead
  | .dead, .instr _ _ | .dead, .word => some .dead
  | .live inProc _, .label l =>
    if l.inProc? branches = some inProc then some (.live inProc .anywhere) else none
  | .live _ _, .word => none
  | .live inProc aim, .instr i _ => i.flow? names branches inProc aim

def flow? (names : List String) (branches : Nat) (f : Flow) (lines : List Line) : Option Flow :=
  lines.foldlM (Line.flow? names branches) f

section

variable {names : List String} {branches : Nat} {f g : Flow} {a b : List Line}

theorem flow?_nil : flow? names branches f [] = some f := rfl

theorem flow?_cons (line : Line) :
    flow? names branches f (line :: a) =
      (line.flow? names branches f).bind fun g => flow? names branches g a := rfl

theorem flow?_append :
    flow? names branches f (a ++ b) =
      (flow? names branches f a).bind fun g => flow? names branches g b :=
  List.foldlM_append

theorem flow?_trans (ha : flow? names branches f a = some g) :
    flow? names branches f (a ++ b) = flow? names branches g b := by
  rw [flow?_append, ha]
  rfl

/-- Control goes through the lines, whatever is known of `I` before. -/
def Flows (names : List String) (branches : Nat) (inProc : Bool) (lines : List Line) : Prop :=
  ∀ aim, ∃ aim', flow? names branches (.live inProc aim) lines = some (.live inProc aim')

variable {inProc : Bool}

theorem Flows.nil : Flows names branches inProc [] := fun aim => ⟨aim, rfl⟩

theorem Flows.append (ha : Flows names branches inProc a) (hb : Flows names branches inProc b) :
    Flows names branches inProc (a ++ b) := by
  intro aim
  obtain ⟨aim', ha'⟩ := ha aim
  obtain ⟨aim'', hb'⟩ := hb aim'
  exact ⟨aim'', (flow?_trans ha').trans hb'⟩

/-! ### Expressions -/

variable {env : Env} {mode : Mode} {wide : Bool} {last last' : UInt8}

theorem flow?_address {name note : String} {isGlobal : Bool}
    (h : AddressCode env.slots name note isGlobal last a last')
    (hName : isGlobal = true → name ∈ names) (aim : Aim) :
    ∃ aim', aim'.isWord = true ∧
      flow? names branches (.live inProc aim) a = some (.live inProc aim') := by
  cases h with
  | global last =>
    refine ⟨.word, rfl, ?_⟩
    simp [flow?_cons, flow?_nil, noted, Line.flow?, Instr.flow?, Instr.aim?, hName rfl]
  | slot last offset hOffset =>
    refine ⟨.stack, rfl, ?_⟩
    split <;> rfl

theorem flow?_readVar {aim : Aim} (h : aim.isWord = true) (isWide : Bool) :
    flow? names branches (.live inProc aim) (readVar mode wide isWide) =
      some (.live inProc aim) := by
  cases aim <;> first | (simp [Aim.isWord] at h; done) |
    (cases mode <;> cases wide <;> cases isWide <;> rfl)

theorem flow?_storeAccumulator {aim : Aim} (h : aim.isWord = true) (type : ValueType) :
    flow? names branches (.live inProc aim) (storeAccumulator type) =
      some (.live inProc aim) := by
  cases aim <;> first | (simp [Aim.isWord] at h; done) | (cases type <;> rfl)

theorem flows_literal (value : UInt16) :
    Flows names branches inProc (literal mode wide value) := by
  intro aim
  refine ⟨aim, ?_⟩
  cases mode <;> cases wide <;> rfl

theorem flows_unaryCode (op : UnaryOp) : Flows names branches inProc (unaryCode op wide) := by
  intro aim
  refine ⟨aim, ?_⟩
  cases op <;> cases wide <;> rfl

theorem flows_spill : Flows names branches inProc (spill wide) := by
  intro aim
  refine ⟨.stack, ?_⟩
  cases wide <;> rfl

theorem flows_reload : Flows names branches inProc (reload mode wide) := by
  intro aim
  refine ⟨.stack, ?_⟩
  cases mode <;> cases wide <;> rfl

theorem flows_settleCode (last : UInt8) : Flows names branches inProc (settleCode last) := by
  intro aim
  refine ⟨aim, ?_⟩
  unfold settleCode
  split <;> rfl

def Env.GlobalsIn (env : Env) (names : List String) : Prop :=
  ∀ name info, env.look name = some (.var info) → info.isGlobal = true → name ∈ names

/-- The code of an expression passes on either side, and control leaves it at its end. -/
theorem flows_expr (hEnv : env.GlobalsIn names) {e : Expr}
    (h : ExprCode env mode wide e last a last') : Flows names branches inProc a := by
  induction h with
  | ref hInfo hAddress =>
    intro aim
    obtain ⟨aim', hWord, hFlow⟩ := flow?_address hAddress (hEnv _ _ hInfo) aim
    exact ⟨aim', (flow?_trans hFlow).trans (flow?_readVar hWord _)⟩
  | int hRead => exact flows_literal _
  | unary hOperand ih => exact ih.append (flows_unaryCode _)
  | fused hOp hLeaf hLeft hRight ihLeft ihRight => exact ihLeft.append ihRight
  | spilled hOp hLeaf hLeft hRight ihLeft ihRight =>
    exact ihLeft.append (flows_spill.append (ihRight.append flows_reload))

theorem flows_args (hEnv : env.GlobalsIn names) {args : List (Expr × ValueType)}
    (h : ArgsCode env args last a last') : Flows names branches inProc a := by
  induction h with
  | nil last => exact .nil
  | @cons arg type rest last first last₁ second last₂ hArg hRest ih =>
    have hStage : Flows names branches inProc ([plain (.index .stackZone), plain (.addIndex .stack)]
        ++ storeAccumulator type ++ [plain (.addByte .stack type.size)]) := by
      intro aim
      refine ⟨.stack, ?_⟩
      cases type <;> rfl
    exact (flows_expr hEnv hArg).append (hStage.append ih)

/-! ### Statements -/

/-- A call comes back, with the index register anywhere. -/
theorem flows_call (hEnv : env.GlobalsIn names) {name : Ident} {args : List Expr}
    (h : CallCode env name last args a last') : Flows names branches inProc a := by
  cases h with
  | bcd hName hArg =>
    refine (flows_expr hEnv hArg).append ?_
    exact fun aim => ⟨.digits, rfl⟩
  | @intrinsic intrinsic hName hOther =>
    intro aim
    cases intrinsic <;> exact ⟨_, rfl⟩
  | user hName hProc hCount hArgs =>
    have hFirst : Flows names branches inProc
        [noted (.addByte .stack 1) ("call " ++ name.name)] := fun aim => ⟨aim, rfl⟩
    refine hFirst.append ((flows_args hEnv hArgs).append ?_)
    exact fun aim => ⟨.anywhere, rfl⟩

/-- A condition jumps within its own side. -/
theorem flows_cond (hEnv : env.GlobalsIn names) {cond : Expr} {l : Label}
    (h : CondCode env cond l last a) (hl : l.inProc? branches = some inProc) :
    Flows names branches inProc a := by
  obtain ⟨hCond⟩ := h
  refine (flows_expr hEnv hCond).append ((flows_settleCode _).append ?_)
  intro aim
  refine ⟨aim, ?_⟩
  cases cond.isLong env.typeOf <;>
    simp [testCode, flow?_cons, flow?_nil, noted, plain, Line.flow?, Instr.flow?, Instr.aim?, hl]

theorem flows_label {l : Label} (hl : l.inProc? branches = some inProc) :
    Flows names branches inProc [.label l] := by
  intro aim
  refine ⟨.anywhere, ?_⟩
  simp [flow?_cons, flow?_nil, Line.flow?, hl]

/-- The end of one branch and the start of the other. -/
theorem flows_join {l m : Label} (hl : l.inProc? branches = some inProc)
    (hm : m.inProc? branches = some inProc) :
    Flows names branches inProc [plain (.jump l), .label m] := by
  intro aim
  refine ⟨.anywhere, ?_⟩
  simp [flow?_cons, flow?_nil, plain, Line.flow?, Instr.flow?, hl, hm]

def Sided (branches : Nat) (inProc : Bool) (n n' : Nat) : Prop :=
  ∀ k, n ≤ k → k < n' → decide (k < branches) = inProc

theorem Sided.mono {n n' m m' : Nat} (h : Sided branches inProc n n') (hm : n ≤ m)
    (hm' : m' ≤ n') : Sided branches inProc m m' :=
  fun k hk hk' => h k (Nat.le_trans hm hk) (Nat.lt_of_lt_of_le hk' hm')

theorem Sided.inProc? {n n' : Nat} (h : Sided branches inProc n n') (hn : n < n') :
    (Label.elseBranch n).inProc? branches = some inProc ∧
      (Label.endBranch n).inProc? branches = some inProc := by
  have hSide := h n (Nat.le_refl n) hn
  exact ⟨congrArg some hSide, congrArg some hSide⟩

mutual

theorem StmtCode.le {last last' : UInt8} {lines : List Line} {n n' : Nat} (stmt : Stmt)
    (h : StmtCode env stmt last n lines last' n') : n ≤ n' := by
  cases stmt with
  | block stmts span =>
    cases h with
    | block h => exact StmtsCode.le stmts h
  | assign target value =>
    cases h
    exact Nat.le_refl n
  | call name args =>
    cases h
    exact Nat.le_refl n
  | ifThen cond yes span =>
    cases h with
    | ifThen hCond hYes => exact Nat.le_of_succ_le (StmtCode.le yes hYes)
  | ifElse cond yes no span =>
    cases h with
    | ifElse hCond hYes hNo =>
      exact Nat.le_trans (Nat.le_of_succ_le (StmtCode.le yes hYes)) (StmtCode.le no hNo)

theorem StmtsCode.le {last last' : UInt8} {lines : List Line} {n n' : Nat} (stmts : List Stmt)
    (h : StmtsCode env stmts last n lines last' n') : n ≤ n' := by
  cases stmts with
  | nil =>
    cases h
    exact Nat.le_refl n
  | cons stmt stmts =>
    cases h with
    | cons hStmt hStmts => exact Nat.le_trans (StmtCode.le stmt hStmt) (StmtsCode.le stmts hStmts)

end

mutual

/-- The code of a statement passes, by induction on the statement: its branches are on its own side.
-/
theorem flows_stmt (hEnv : env.GlobalsIn names) {last last' : UInt8} {lines : List Line}
    {n n' : Nat} (stmt : Stmt) (h : StmtCode env stmt last n lines last' n')
    (hSide : Sided branches inProc n n') : Flows names branches inProc lines := by
  cases stmt with
  | block stmts span =>
    cases h with
    | block h => exact flows_stmts hEnv stmts h hSide
  | assign target value =>
    cases h with
    | @assign _ _ info _ _ first last₁ second _ hInfo hValue hAddress =>
    refine (flows_expr hEnv hValue).append ?_
    intro aim
    obtain ⟨aim', hWord, hFlow⟩ := flow?_address hAddress (hEnv _ _ hInfo) aim
    refine ⟨aim', (flow?_trans hFlow).trans ?_⟩
    exact (flow?_trans (flow?_storeAccumulator hWord _)).trans rfl
  | call name args =>
    cases h with
    | call h => exact flows_call hEnv h
  | ifThen cond yes span =>
    cases h with
    | ifThen hCond hYes =>
    have hLe := StmtCode.le yes hYes
    have hElse := (hSide.inProc? hLe).1
    have hBody := flows_stmt hEnv yes hYes (hSide.mono (Nat.le_succ n) (Nat.le_refl n'))
    exact (flows_cond hEnv hCond hElse).append
      (hBody.append ((flows_settleCode _).append (flows_label hElse)))
  | ifElse cond yes no span =>
    cases h with
    | @ifElse _ _ _ _ _ _ test first last₁ n₁ second last₂ _ hCond hYes hNo =>
    have hLe := StmtCode.le yes hYes
    have hLe' := StmtCode.le no hNo
    obtain ⟨hElse, hEnd⟩ := hSide.inProc? (Nat.lt_of_lt_of_le hLe hLe')
    have hFirst := flows_stmt hEnv yes hYes (hSide.mono (Nat.le_succ n) hLe')
    have hSecond := flows_stmt hEnv no hNo
      (hSide.mono (Nat.le_of_succ_le hLe) (Nat.le_refl n'))
    exact (flows_cond hEnv hCond hElse).append (hFirst.append ((flows_settleCode _).append
      ((flows_join hEnd hElse).append (hSecond.append ((flows_settleCode _).append
        (flows_label hEnd))))))

theorem flows_stmts (hEnv : env.GlobalsIn names) {last last' : UInt8} {lines : List Line}
    {n n' : Nat} (stmts : List Stmt) (h : StmtsCode env stmts last n lines last' n')
    (hSide : Sided branches inProc n n') : Flows names branches inProc lines := by
  cases stmts with
  | nil =>
    cases h
    exact .nil
  | cons stmt stmts =>
    cases h with
    | @cons _ _ _ _ first last₁ n₁ second _ _ hStmt hStmts =>
    have hLe := StmtCode.le stmt hStmt
    have hLe' := StmtsCode.le stmts hStmts
    exact (flows_stmt hEnv stmt hStmt (hSide.mono (Nat.le_refl n) hLe')).append
      (flows_stmts hEnv stmts hStmts (hSide.mono hLe (Nat.le_refl n')))

end

end

/-! ### Listings -/

section

variable {program : Program} {vars : List VarDecl} {stackWords : Nat} {lines : List Line}

/-- What a body takes for a global is declared in the program. -/
theorem Program.env_globalsIn (hNamed : program.WellNamed) (hVars : NamedVars [] vars) :
    (program.env vars).GlobalsIn (program.globals.map (·.name.name)) := by
  intro name info hLook hGlobal
  obtain ⟨-, decl, hFind, -⟩ := look_global hNamed hVars hLook hGlobal
  have hName : decl.name.name = name := by simpa using List.find?_some hFind
  rw [← hName]
  exact List.mem_map_of_mem (List.mem_of_find?_eq_some hFind)

/-- Lines that nothing leads to are passed over. -/
theorem flow?_dead {names : List String} {branches : Nat}
    (h : ∀ l ∈ labelsOf lines, l.inProc? branches = none) :
    flow? names branches .dead lines = some .dead := by
  induction lines with
  | nil => rfl
  | cons line lines ih =>
    cases line with
    | blank => exact ih h
    | remark text => exact ih h
    | word => exact ih h
    | instr i note => exact ih h
    | label l =>
      have hHead := h l List.mem_cons_self
      have hTail := ih fun m hm => h m (List.mem_cons_of_mem l hm)
      simpa [flow?_cons, Line.flow?, hHead] using hTail

/-- Control does not reach the data section. -/
theorem flow?_data (names globals : List String) (branches stackWords : Nat) :
    flow? names branches .dead (dataSection globals stackWords) = some .dead := by
  refine flow?_dead fun l hl => ?_
  rw [labelsOf_dataSection] at hl
  rcases List.mem_append.mp hl with hl | hl
  · obtain ⟨name, -, rfl⟩ := List.mem_map.mp hl
    rfl
  · simp only [List.mem_cons, List.not_mem_nil, or_false] at hl
    rcases hl with rfl | rfl | rfl <;> rfl

theorem flows_enterFrame {names : List String} {branches : Nat} {inProc : Bool} (size : UInt8) :
    Flows names branches inProc (enterFrame size) := by
  intro aim
  refine ⟨.stack, ?_⟩
  unfold enterFrame
  split <;> rfl

theorem flows_leaveFrame {names : List String} {branches : Nat} {inProc : Bool} :
    Flows names branches inProc leaveFrame := fun _ => ⟨.stack, rfl⟩

/-- Control enters a procedure by its label only, and leaves it by its return. -/
theorem flow?_proc (hNamed : program.WellNamed) {proc : ProcDecl} {branches n n' : Nat}
    (hProc : .proc proc ∈ program.decls) (h : ProcCode program proc n lines n')
    (hSide : n' ≤ branches) :
    flow? (program.globals.map (·.name.name)) branches .dead lines = some .dead := by
  obtain ⟨hSize, hBody⟩ := h
  next body last =>
  have hEnv := Program.env_globalsIn hNamed (hNamed.namedVars (.inr ⟨proc, hProc, rfl⟩))
  have hInProc : Sided branches true n n' := by
    intro k _ hk
    exact decide_eq_true (Nat.lt_of_lt_of_le hk hSide)
  have hLeads := (flows_enterFrame (UInt8.ofNat proc.frameSize)).append
    ((flows_stmts hEnv proc.body.stmts hBody hInProc).append
      ((flows_settleCode last).append flows_leaveFrame))
  obtain ⟨aim, hFlow⟩ := hLeads .anywhere
  have hEnd := flow?_trans (b := [plain .ret, blank]) hFlow
  simp only [List.append_assoc] at hEnd
  exact hEnd

theorem DeclsCode.le {decls : List Decl} {n n' : Nat} (h : DeclsCode program decls n lines n') :
    n ≤ n' := by
  induction h with
  | nil n => exact Nat.le_refl n
  | var h ih => exact ih
  | proc hProc hDecls ih =>
    obtain ⟨hSize, hBody⟩ := hProc
    exact Nat.le_trans (StmtsCode.le _ hBody) ih

theorem flow?_decls (hNamed : program.WellNamed) {decls : List Decl} {branches n n' : Nat}
    (hSub : ∀ decl ∈ decls, decl ∈ program.decls) (h : DeclsCode program decls n lines n')
    (hSide : n' ≤ branches) :
    flow? (program.globals.map (·.name.name)) branches .dead lines = some .dead := by
  induction h with
  | nil n => rfl
  | var h ih => exact ih (fun decl hDecl => hSub decl (List.mem_cons_of_mem _ hDecl)) hSide
  | proc hProc hDecls ih =>
    have hFirst := flow?_proc hNamed (hSub _ List.mem_cons_self) hProc
      (Nat.le_trans hDecls.le hSide)
    rw [flow?_trans hFirst]
    exact ih (fun decl hDecl => hSub decl (List.mem_cons_of_mem _ hDecl)) hSide

theorem flow?_preamble (names : List String) (branches : Nat) (name : String) :
    flow? names branches (.live false .anywhere) (preamble name) = some .dead := rfl

/-- Every compiled listing passes the check. -/
theorem ProgramCode.flow? (hNamed : program.WellNamed) (h : ProgramCode program stackWords lines) :
    ∃ branches, ChipPascal.flow? (program.globals.map (·.name.name)) branches
      (.live false .anywhere) lines = some .dead := by
  obtain ⟨hDecls, hMain⟩ := h
  next decls branches main last n' =>
  refine ⟨branches, ?_⟩
  have hEnv : (program.env []).GlobalsIn (program.globals.map (·.name.name)) :=
    Program.env_globalsIn hNamed trivial
  have hOutside : Sided branches false branches n' := by
    intro k hk _
    exact decide_eq_false (Nat.not_lt.mpr hk)
  obtain ⟨aim, hFlow⟩ := ((flows_stmts hEnv program.body.stmts hMain hOutside).append
    (flows_settleCode last)) .anywhere
  rw [flow?_trans (flow?_preamble _ _ _),
    flow?_trans (flow?_decls hNamed (fun _ h => h) hDecls (Nat.le_refl _))]
  show ChipPascal.flow? _ _ (.live false .anywhere) (main ++ (settleCode last ++ _)) = _
  rw [← List.append_assoc, flow?_trans hFlow]
  exact flow?_data _ _ _ _

end

end ChipPascal
