import ChipPascal.CommandLine.Disk
import ChipPascal.CommandLine.Run
import ChipPascal.Proofs.NoFault
import ChipPascal.Proofs.ParserSoundness

/-!
# One stage reports

Each kind of error belongs to one stage, and a stage reports no other errors. Since a later stage
only runs after the earlier ones found nothing, the errors of a compilation all come from one stage,
and a listing is there just where no stage reported anything and one was asked for.
-/

namespace ChipPascal

inductive Stage where
  | reading
  | naming
  | kinds
  | lowering
deriving DecidableEq, Repr

/-- The stage that reports an error; a fault is not reported by any. -/
def Error.stage? : Error → Option Stage
  | .unexpectedToken .. | .illegalCharacter .. => some .reading
  | .nameUndefined .. | .nameRedefinition .. => some .naming
  | .assignToConst .. | .notAVariable .. | .notAProcedure .. => some .kinds
  | .wrongArgumentCount .. | .unimplementedOperator .. | .invalidLiteral ..
  | .frameTooLarge .. => some .lowering
  | .internal _ => none

/-- All of these errors come from one stage. -/
def AllFrom (stage : Stage) (errors : List Error) : Prop :=
  ∀ e ∈ errors, e.stage? = some stage

@[simp] theorem allFrom_nil (stage : Stage) : AllFrom stage [] := by simp [AllFrom]

@[simp] theorem allFrom_cons {stage : Stage} {e : Error} {es : List Error} :
    AllFrom stage (e :: es) ↔ e.stage? = some stage ∧ AllFrom stage es := by
  simp [AllFrom]

@[simp] theorem allFrom_append {stage : Stage} {es es' : List Error} :
    AllFrom stage (es ++ es') ↔ AllFrom stage es ∧ AllFrom stage es' := by
  simp [AllFrom, or_imp, forall_and]

attribute [local simp] Error.stage?

/-! ### Reading -/

theorem allFrom_tokenize (source : String) : AllFrom .reading (tokenize source).errors := by
  intro e he
  obtain ⟨⟨⟨kind, text⟩, span⟩, -, hError⟩ := List.mem_filterMap.mp he
  unfold Lexer.error? at hError
  split at hError
  · cases hError
    rfl
  · cases hError

theorem Error.IsUnexpected.stage {e : Error} (h : e.IsUnexpected) : e.stage? = some .reading := by
  cases e <;> first | rfl | exact h.elim

/-- All that is reported before there is a tree comes from reading. -/
theorem allFrom_parse (source : String) : AllFrom .reading (parse source).2 := by
  obtain ⟨complaints, hErrors, hComplaints⟩ := parse_errors source
  rw [hErrors, allFrom_append]
  exact ⟨allFrom_tokenize source, fun e he => (hComplaints e he).stage⟩

/-! ### Names -/

namespace Names

theorem allFrom_declare (d : Declared) (name : Ident) : AllFrom .naming (declare d name).2 := by
  unfold declare
  split
  · simp
  · simp

theorem allFrom_useErrors (d : Declared) (name : Ident) : AllFrom .naming (useErrors d name) := by
  unfold useErrors
  split <;> simp

theorem allFrom_typeErrors (d : Declared) (type : Ident) : AllFrom .naming (typeErrors d type) := by
  unfold typeErrors
  split <;> simp

theorem allFrom_exprErrors (d : Declared) (e : Expr) : AllFrom .naming (exprErrors d e) := by
  induction e with
  | ref name => exact allFrom_useErrors d name
  | int text span => simp [exprErrors]
  | unary op operand span ih => exact ih
  | binary op left right span ihl ihr => exact allFrom_append.mpr ⟨ihl, ihr⟩

mutual

theorem allFrom_stmtErrors (d : Declared) (stmt : Stmt) : AllFrom .naming (stmtErrors d stmt) := by
  cases stmt with
  | block stmts span => exact allFrom_stmtsErrors d stmts
  | assign target value =>
    exact allFrom_append.mpr ⟨allFrom_useErrors d target, allFrom_exprErrors d value⟩
  | call name args =>
    refine allFrom_append.mpr ⟨allFrom_useErrors d name, fun e he => ?_⟩
    obtain ⟨arg, -, hArg⟩ := List.mem_flatMap.mp he
    exact allFrom_exprErrors d arg e hArg
  | ifThen cond yes span =>
    exact allFrom_append.mpr ⟨allFrom_exprErrors d cond, allFrom_stmtErrors d yes⟩
  | ifElse cond yes no span =>
    simp only [stmtErrors, allFrom_append]
    exact ⟨⟨allFrom_exprErrors d cond, allFrom_stmtErrors d yes⟩, allFrom_stmtErrors d no⟩

theorem allFrom_stmtsErrors (d : Declared) (stmts : List Stmt) :
    AllFrom .naming (stmtsErrors d stmts) := by
  cases stmts with
  | nil => simp [stmtsErrors]
  | cons stmt stmts =>
    exact allFrom_append.mpr ⟨allFrom_stmtErrors d stmt, allFrom_stmtsErrors d stmts⟩

end

theorem allFrom_checkVar (d : Declared) (decl : VarDecl) : AllFrom .naming (checkVar d decl).2 :=
  allFrom_append.mpr ⟨allFrom_declare d decl.name, allFrom_typeErrors _ decl.type⟩

theorem allFrom_checkVars (d : Declared) (decls : List VarDecl) :
    AllFrom .naming (checkVars d decls).2 := by
  induction decls generalizing d with
  | nil => simp [checkVars]
  | cons decl decls ih => exact allFrom_append.mpr ⟨allFrom_checkVar d decl, ih _⟩

theorem allFrom_checkProc (d : Declared) (proc : ProcDecl) :
    AllFrom .naming (checkProc d proc).2 := by
  simp only [checkProc, allFrom_append]
  exact ⟨⟨allFrom_declare d proc.name, allFrom_checkVars _ proc.vars⟩, allFrom_stmtsErrors _ _⟩

theorem allFrom_checkDecls (d : Declared) (decls : List Decl) :
    AllFrom .naming (checkDecls d decls).2 := by
  induction decls generalizing d with
  | nil => simp [checkDecls]
  | cons decl decls ih =>
    refine allFrom_append.mpr ⟨?_, ih _⟩
    cases decl with
    | var decl => exact allFrom_checkVar d decl
    | proc proc => exact allFrom_checkProc d proc

end Names

theorem allFrom_nameErrors (program : Program) : AllFrom .naming (nameErrors program) :=
  allFrom_append.mpr ⟨Names.allFrom_checkDecls _ _, Names.allFrom_stmtsErrors _ _⟩

/-! ### Kinds -/

namespace Kinds

theorem allFrom_append_reports {stage : Stage} {a b : Findings Error}
    (ha : AllFrom stage a.reports) (hb : AllFrom stage b.reports) :
    AllFrom stage (a ++ b).reports := by
  obtain ⟨reports, _ | fault⟩ := a
  · exact allFrom_append.mpr ⟨ha, hb⟩
  · exact ha

theorem allFrom_readFindings (syms : Symbols) (name : Ident) :
    AllFrom .kinds (readFindings syms name).reports := by
  unfold readFindings
  split
  · simp [Findings.stop]
  · split <;> simp [Findings.clean, Findings.report]

theorem allFrom_targetFindings (syms : Symbols) (name : Ident) :
    AllFrom .kinds (targetFindings syms name).reports := by
  unfold targetFindings
  split
  · simp [Findings.stop]
  · split <;> simp [Findings.clean, Findings.report]
  · simp [Findings.report]

theorem allFrom_calleeFindings (syms : Symbols) (name : Ident) :
    AllFrom .kinds (calleeFindings syms name).reports := by
  unfold calleeFindings
  split
  · simp [Findings.stop]
  · split <;> simp [Findings.clean, Findings.report]

theorem allFrom_exprFindings (syms : Symbols) (e : Expr) :
    AllFrom .kinds (exprFindings syms e).reports := by
  induction e with
  | ref name => exact allFrom_readFindings syms name
  | int text span => simp [exprFindings, Findings.clean]
  | unary op operand span ih => exact ih
  | binary op left right span ihl ihr => exact allFrom_append_reports ihl ihr

theorem allFrom_exprsFindings (syms : Symbols) (es : List Expr) :
    AllFrom .kinds (exprsFindings syms es).reports := by
  induction es with
  | nil => simp [exprsFindings, Findings.clean]
  | cons e es ih => exact allFrom_append_reports (allFrom_exprFindings syms e) ih

mutual

theorem allFrom_stmtFindings (syms : Symbols) (stmt : Stmt) :
    AllFrom .kinds (stmtFindings syms stmt).reports := by
  cases stmt with
  | block stmts span => exact allFrom_stmtsFindings syms stmts
  | assign target value =>
    exact allFrom_append_reports (allFrom_targetFindings syms target)
      (allFrom_exprFindings syms value)
  | call name args =>
    exact allFrom_append_reports (allFrom_calleeFindings syms name)
      (allFrom_exprsFindings syms args)
  | ifThen cond yes span =>
    exact allFrom_append_reports (allFrom_exprFindings syms cond) (allFrom_stmtFindings syms yes)
  | ifElse cond yes no span =>
    exact allFrom_append_reports (allFrom_exprFindings syms cond)
      (allFrom_append_reports (allFrom_stmtFindings syms yes) (allFrom_stmtFindings syms no))

theorem allFrom_stmtsFindings (syms : Symbols) (stmts : List Stmt) :
    AllFrom .kinds (stmtsFindings syms stmts).reports := by
  cases stmts with
  | nil => simp [stmtsFindings, Findings.clean]
  | cons stmt stmts =>
    exact allFrom_append_reports (allFrom_stmtFindings syms stmt) (allFrom_stmtsFindings syms stmts)

end

theorem allFrom_checkProc (syms : Symbols) (proc : ProcDecl) :
    AllFrom .kinds (checkProc syms proc).2.reports := by
  unfold checkProc
  split
  · simp [Findings.stop]
  · dsimp only
    split
    · simp [Findings.stop]
    · exact allFrom_stmtsFindings _ _

theorem allFrom_checkDecl (syms : Symbols) (decl : Decl) :
    AllFrom .kinds (checkDecl syms decl).2.reports := by
  cases decl with
  | var decl => simp [checkDecl, Findings.ofFault]
  | proc proc => exact allFrom_checkProc syms proc

theorem allFrom_checkDecls (syms : Symbols) (decls : List Decl) :
    AllFrom .kinds (checkDecls syms decls).2.reports := by
  induction decls generalizing syms with
  | nil => simp [checkDecls, Findings.clean]
  | cons decl decls ih =>
    unfold checkDecls
    dsimp only
    split
    · exact allFrom_checkDecl syms decl
    · exact allFrom_append_reports (allFrom_checkDecl syms decl) (ih _)

end Kinds

theorem allFrom_checkKinds (program : Program) :
    AllFrom .kinds (checkKinds program).2.reports :=
  Kinds.allFrom_append_reports (Kinds.allFrom_checkDecls _ _) (Kinds.allFrom_stmtsFindings _ _)

/-! ### Lowering -/

namespace Lowering

open Lower

def Found (s : State) : Prop := AllFrom .lowering s.errors

def FindsMistake : Stop → Prop
  | .user e => e.stage? = some .lowering
  | .fault _ => True

variable {α : Type}

/-- The mistakes that a step records, or stops for, are found by lowering. -/
abbrev Finds (x : Lower Stop α) : Prop := Keeps Found FindsMistake (fun _ => True) x

abbrev Records (x : Lower Fault α) : Prop := Keeps Found (fun _ => True) (fun _ => True) x

theorem Records.finds {x : Lower Fault α} (hx : Records x) : Finds (liftM x : Lower Stop α) := by
  intro s hs
  obtain ⟨hState, -, -⟩ := hx s hs
  refine ⟨hState, fun _ _ => trivial, fun e he => ?_⟩
  change (x s).value.mapError .fault = .error e at he
  cases hValue : (x s).value with
  | ok a =>
    rw [hValue] at he
    cases he
  | error fault =>
    rw [hValue] at he
    cases he
    trivial

/-- A mistake that ends a statement is recorded as one that lowering found. -/
theorem Finds.attempt {x : Lower Stop Unit} (hx : Finds x) : Records (attempt x) := by
  intro s hs
  obtain ⟨hState, -, hStop⟩ := hx s hs
  refine ⟨?_, fun _ _ => trivial, fun _ _ => trivial⟩
  cases hValue : (x s).value with
  | ok a =>
    rw [attempt_of_ok hValue]
    exact hState
  | error e =>
    cases e with
    | user error =>
      rw [attempt_of_user hValue]
      have hError : error.stage? = some .lowering := hStop _ hValue
      exact allFrom_append.mpr ⟨hState, by simpa using hError⟩
    | fault fault =>
      rw [attempt_of_fault hValue]
      exact hState

theorem records_variableInfo (name : Ident) : Records (variableInfo name) := by
  refine keeps_state.bind fun s _ => ?_
  split
  · exact keeps_pure trivial
  · exact keeps_stop trivial

theorem records_pointAt (name : String) (isGlobal : Bool) (note : String) :
    Records (pointAt name isGlobal note) := by
  unfold pointAt
  split
  · exact keeps_emit _
  · refine keeps_state.bind fun s _ => ?_
    split
    · exact keeps_stop trivial
    · exact Keeps.bind (keeps_update fun _ hs => hs) fun _ _ => keeps_emit _

theorem records_address (name : String) (info : VarInfo) (note : String) :
    Records (address name info note) := by
  unfold address
  cases info.storage with
  | register r => exact keeps_stop trivial
  | stack | fixed => exact records_pointAt name _ note

theorem keeps_found_settle {ε : Type} {E : ε → Prop} :
    Keeps Found E (fun _ => True) (settle : Lower ε Unit) :=
  keeps_state.bind fun _ _ => (keeps_emit _).bind fun _ _ => keeps_update fun _ hs => hs

theorem findsMistake_literalValue {text : String} {span : Span} {e : Stop}
    (h : literalValue text span = .error e) : FindsMistake e := by
  unfold literalValue at h
  split at h
  · cases h
  · cases h
    rfl

/-- Scanning a condition stops only for mistakes that lowering finds. -/
theorem findsMistake_isWide {syms : Symbols} {e : Expr} {stop : Stop}
    (h : isWide syms e = .error stop) : FindsMistake stop := by
  induction e with
  | ref name =>
    simp only [isWide] at h
    split at h
    · cases h
    · cases h
      trivial
  | int text span =>
    simp only [isWide] at h
    split at h
    · cases h
    · next hLiteral =>
      cases h
      exact findsMistake_literalValue hLiteral
  | unary op operand span ih => exact ih h
  | binary op left right span ihl ihr =>
    simp only [isWide] at h
    split at h
    · exact ihr h
    · exact ihl h

theorem finds_lowerExpr (mode : Mode) (wide : Bool) (e : Expr) : Finds (lowerExpr mode wide e) := by
  induction e generalizing mode with
  | ref name =>
    exact (records_variableInfo name).finds.bind fun _ _ =>
      (records_address _ _ _).finds.bind fun _ _ => keeps_emit _
  | int text span =>
    simp only [lowerExpr]
    split
    · exact keeps_emit _
    · next hLiteral => exact keeps_stop (findsMistake_literalValue hLiteral)
  | unary op operand span ih => exact (ih .load).bind fun _ _ => keeps_emit _
  | binary op left right span ihl ihr =>
    simp only [lowerExpr]
    split
    · exact keeps_stop rfl
    · next mode _ =>
      refine (ihl .load).bind fun _ _ => ?_
      split
      · exact ihr mode
      · exact (keeps_emit _).bind fun _ _ => (ihr .load).bind fun _ _ => keeps_emit _

theorem finds_lowerAssign (target : Ident) (value : Expr) : Finds (lowerAssign target value) :=
  (records_variableInfo target).finds.bind fun _ _ => (finds_lowerExpr _ _ value).bind fun _ _ =>
    (records_address _ _ _).finds.bind fun _ _ => keeps_emit _

theorem finds_lowerArgs (args : List (Expr × ValueType)) : Finds (lowerArgs args) := by
  induction args with
  | nil => exact keeps_pure trivial
  | cons arg args ih =>
    exact (finds_lowerExpr _ _ arg.1).bind fun _ _ => (keeps_emit _).bind fun _ _ => ih

theorem finds_lowerIntrinsic (intrinsic : Intrinsic) (args : List Expr) :
    Finds (lowerIntrinsic intrinsic args) := by
  unfold lowerIntrinsic
  split
  · exact (keeps_emit _).bind fun _ _ => keeps_emit _
  · exact (keeps_emit _).bind fun _ _ => keeps_emit _
  · exact (finds_lowerExpr _ _ _).bind fun _ _ => (keeps_emit _).bind fun _ _ => keeps_emit _
  · exact Keeps.bind (Q := fun _ => True) (keeps_stop trivial) fun _ _ => keeps_emit _
  · exact (keeps_emit _).bind fun _ _ => keeps_emit _
  · exact (keeps_emit _).bind fun _ _ => keeps_emit _

theorem finds_lowerCall (name : Ident) (args : List Expr) : Finds (lowerCall name args) := by
  refine keeps_state.bind fun s _ => ?_
  split
  · exact keeps_stop trivial
  · split
    · exact keeps_stop rfl
    · split
      · exact finds_lowerIntrinsic _ args
      · exact (keeps_emit _).bind fun _ _ => (finds_lowerArgs _).bind fun _ _ => keeps_emit _
  · exact keeps_stop trivial

theorem finds_newBranch : Finds newBranch :=
  keeps_state.bind fun _ _ => (keeps_update fun _ hs => hs).bind fun _ _ => keeps_pure trivial

theorem finds_lowerCond (cond : Expr) (whenZero : Label) : Finds (lowerCond cond whenZero) := by
  refine keeps_state.bind fun s _ => ?_
  split
  · next hWide => exact keeps_stop (findsMistake_isWide hWide)
  · exact (finds_lowerExpr _ _ cond).bind fun _ _ => keeps_found_settle.bind fun _ _ =>
      keeps_emit _

mutual

theorem records_lowerStmt (stmt : Stmt) : Records (lowerStmt stmt) := by
  cases stmt with
  | block stmts span => exact records_lowerStmts stmts
  | assign target value => exact (finds_lowerAssign target value).attempt
  | call name args => exact (finds_lowerCall name args).attempt
  | ifThen cond yes span =>
    apply Finds.attempt
    exact finds_newBranch.bind fun n _ => (finds_lowerCond cond _).bind fun _ _ =>
      (records_lowerStmt yes).finds.bind fun _ _ => keeps_found_settle.bind fun _ _ => keeps_emit _
  | ifElse cond yes no span =>
    apply Finds.attempt
    exact finds_newBranch.bind fun n _ => (finds_lowerCond cond _).bind fun _ _ =>
      (records_lowerStmt yes).finds.bind fun _ _ => keeps_found_settle.bind fun _ _ =>
        (keeps_emit _).bind fun _ _ => (records_lowerStmt no).finds.bind fun _ _ =>
          keeps_found_settle.bind fun _ _ => keeps_emit _

theorem records_lowerStmts (stmts : List Stmt) : Records (lowerStmts stmts) := by
  cases stmts with
  | nil => exact keeps_pure trivial
  | cons stmt stmts =>
    exact (records_lowerStmt stmt).bind fun _ _ => records_lowerStmts stmts

end

theorem records_lowerBody (name : Ident) (body : Block) : Records (lowerBody name body) := by
  refine keeps_state.bind fun s _ => ?_
  dsimp only
  split
  · apply keeps_update
    intro t ht
    exact allFrom_append.mpr ⟨ht, by simp⟩
  · exact (keeps_emit _).bind fun _ _ => (records_lowerStmts body.stmts).bind fun _ _ =>
      keeps_found_settle.bind fun _ _ => keeps_emit _

theorem records_lowerVar (decl : VarDecl) : Records (lowerVar decl) := by
  unfold lowerVar
  split
  · exact keeps_stop trivial
  · apply keeps_update
    intro s hs
    split <;> exact hs

theorem records_lowerVars (decls : List VarDecl) : Records (lowerVars decls) := by
  induction decls with
  | nil => exact keeps_pure trivial
  | cons decl decls ih => exact (records_lowerVar decl).bind fun _ _ => ih

theorem Records.inScope {x : Lower Fault Unit} (hx : Records x) (after : List Line) :
    Records (inScope x after) :=
  fun s hs =>
    ⟨(hx { s with symbols := s.symbols.openLocal, frames := s.frames.openLocal } hs).1,
      fun _ _ => trivial, fun _ _ => trivial⟩

theorem records_lowerProc (proc : ProcDecl) : Records (lowerProc proc) := by
  unfold lowerProc
  split
  · exact keeps_stop trivial
  · refine Keeps.bind (keeps_update fun _ hs => hs) fun _ _ => Records.inScope ?_ _
    exact (records_lowerVars proc.vars).bind fun _ _ => (keeps_emit _).bind fun _ _ =>
      records_lowerBody proc.name proc.body

theorem records_lowerDecls (decls : List Decl) : Records (lowerDecls decls) := by
  induction decls with
  | nil => exact keeps_pure trivial
  | cons decl decls ih =>
    cases decl with
    | var decl => exact (records_lowerVar decl).bind fun _ _ => ih
    | proc proc => exact (records_lowerProc proc).bind fun _ _ => ih

theorem records_lowerProgram (stackWords : Nat) (program : Program) :
    Records (lowerProgram stackWords program) :=
  (keeps_emit _).bind fun _ _ => (records_lowerDecls program.decls).bind fun _ _ =>
    (keeps_emit _).bind fun _ _ => (records_lowerStmts program.body.stmts).bind fun _ _ =>
      keeps_found_settle.bind fun _ _ => (keeps_emit _).bind fun _ _ =>
        keeps_state.bind fun _ _ => Keeps.bind (keeps_update fun _ hs => hs) fun _ _ => keeps_emit _

end Lowering

theorem allFrom_lowerFrom (stackWords : Nat) (program : Program) :
    AllFrom .lowering (lowerFrom .initial stackWords program).2.errors :=
  (Lowering.records_lowerProgram stackWords program .initial (allFrom_nil _)).1

/-! ### Compilation -/

/-- How a compilation ends: at the first stage that reports errors, after the checks if no more is
asked for, or with the lowering. -/
inductive Compilation.Ends (source : String) (options : CompileOptions) : Compilation → Prop
  | unread : (parse source).2 ≠ [] → Ends source options ⟨none, .addErrors .empty (parse source).2⟩
  | unnamed : (parse source).2 = [] → nameErrors (parse source).1 ≠ [] →
      Ends source options ⟨none, .addErrors .empty (nameErrors (parse source).1)⟩
  | unkinded : (parse source).2 = [] → nameErrors (parse source).1 = [] →
      (checkKinds (parse source).1).2.reports ≠ [] →
      Ends source options ⟨none, .addErrors .empty (checkKinds (parse source).1).2.reports⟩
  | checked : (parse source).2 = [] → nameErrors (parse source).1 = [] →
      (checkKinds (parse source).1).2.reports = [] → options.checkOnly = true →
      Ends source options ⟨none, .addWarnings .empty (usageWarnings (parse source).1).1⟩
  | lowered {lines : List Line} {s : Lowering.State} :
      (parse source).2 = [] → nameErrors (parse source).1 = [] →
      (checkKinds (parse source).1).2.reports = [] → options.checkOnly = false →
      lowerFrom .initial options.stackWords (parse source).1 = (.ok lines, s) →
      Ends source options ⟨if s.errors = [] then some lines else none,
        .addErrors (.addWarnings .empty (usageWarnings (parse source).1).1) s.errors⟩

@[simp] theorem Report.errors_empty : Report.empty.errors = [] := rfl

theorem Report.addErrors_nil (r : Report) : r.addErrors [] = r := by
  simp [Report.addErrors]

@[simp] theorem Report.errors_addWarnings (r : Report) (warnings : List Warning) :
    (r.addWarnings warnings).errors = r.errors := by
  have hNone : (warnings.map Diagnostic.warning).filterMap (·.error?) = [] := by
    rw [List.filterMap_map]
    exact List.filterMap_eq_nil_iff.mpr fun _ _ => rfl
  rw [Report.errors, Report.addWarnings, List.filterMap_append, hNone, List.append_nil,
    Report.errors]

@[simp] theorem Report.warnings_addErrors (r : Report) (errors : List Error) :
    (r.addErrors errors).warnings = r.warnings := by
  have hNone : (errors.map Diagnostic.error).filterMap (·.warning?) = [] := by
    rw [List.filterMap_map]
    exact List.filterMap_eq_nil_iff.mpr fun _ _ => rfl
  rw [Report.warnings, Report.addErrors, List.filterMap_append, hNone, List.append_nil,
    Report.warnings]

@[simp] theorem Report.warnings_empty : Report.empty.warnings = [] := rfl

/-- Errors that show up after a stage are those of the stage. -/
theorem Report.ne_nil_of_hasErrors {r : Report} {errors : List Error} (hr : r.errors = [])
    (h : (r.addErrors errors).hasErrors = true) : errors ≠ [] := by
  rintro rfl
  simp [Report.hasErrors_eq, hr] at h

/-- A program that was read ends at the first stage with errors, or has a listing. -/
theorem compileProgram_ends {source : String} (options : CompileOptions)
    (hRead : (parse source).2 = []) :
    ∃ c, compileProgram options (parse source).1 = .ok c ∧ c.Ends source options := by
  unfold compileProgram
  dsimp only
  split
  · next hErrors => exact ⟨_, rfl, .unnamed hRead (Report.ne_nil_of_hasErrors rfl hErrors)⟩
  next hNoErrors =>
  have hNames := Report.eq_nil_of_not_hasErrors (Bool.not_eq_true _ ▸ hNoErrors)
  have hNamed := Program.wellNamed_of_nameErrors hNames
  rw [hNames, Report.addErrors_nil]
  split
  · next hKinds =>
    have hFault := hNamed.checkKinds.1
    simp [hKinds] at hFault
  next errors hKinds =>
  obtain rfl : (checkKinds (parse source).1).2.reports = errors := by rw [hKinds]
  split
  · next hErrors =>
    exact ⟨_, rfl, .unkinded hRead hNames (Report.ne_nil_of_hasErrors rfl hErrors)⟩
  next hNoErrors' =>
  have hKinded := Report.eq_nil_of_not_hasErrors (Bool.not_eq_true _ ▸ hNoErrors')
  rw [hKinded, Report.addErrors_nil]
  split
  · next hUsage =>
    have hFault := hNamed.usageWarnings_fault
    simp [hUsage] at hFault
  next warnings hUsage =>
  obtain rfl : (usageWarnings (parse source).1).1 = warnings := by rw [hUsage]
  split
  · next hCheck => exact ⟨_, rfl, .checked hRead hNames hKinded hCheck⟩
  next hCheck =>
  obtain ⟨lines, hLines⟩ := lowerFrom_ok options.stackWords hNames hKinded
  unfold lowerChecked
  split
  · next hLower => simp [hLower] at hLines
  next lines s hLower =>
  refine ⟨_, rfl, ?_⟩
  have hEnd := Compilation.Ends.lowered hRead hNames hKinded (Bool.not_eq_true _ ▸ hCheck) hLower
  have hHas (warnings : List Warning) :
      ((Report.empty.addWarnings warnings).addErrors s.errors).hasErrors = true ↔
        s.errors ≠ [] := by
    simp [Report.hasErrors_eq]
  simpa only [hHas, ne_eq, ite_not] using hEnd

/-- A compilation ends at the first stage with errors, or has a listing. -/
theorem compile_ends (source : String) (options : CompileOptions) :
    ∃ c, compile source options = .ok c ∧ c.Ends source options := by
  unfold compile
  dsimp only
  split
  · next hRead => exact compileProgram_ends options (List.isEmpty_iff.mp hRead)
  · next hRead => exact ⟨_, rfl, .unread (by simpa using hRead)⟩

/-- What a compilation with these options comes to, whatever the text. -/
structure Compilation.Gated (source : String) (options : CompileOptions) (c : Compilation) :
    Prop where
  /-- There is a listing just if there are no errors and one was asked for. -/
  listing : c.text?.isSome ↔ c.report.errors = [] ∧ options.checkOnly = false
  /-- The errors come from one stage. -/
  stage : ∃ stage, AllFrom stage c.report.errors
  /-- Nothing is warned of before the checks are passed. -/
  warned : c.report.warnings ≠ [] → (parse source).2 = [] ∧ nameErrors (parse source).1 = [] ∧
    (checkKinds (parse source).1).2.reports = []
  /-- No warning stands behind an error of the lowering. -/
  order : c.report.items.Pairwise fun earlier later =>
    (∃ e, earlier = .error e ∧ e.stage? = some .lowering) → later.isError

/-- A relation holds along warnings followed by errors if nothing breaks it but an error before a
warning. -/
theorem pairwise_report (warnings : List Warning) (errors : List Error)
    {R : Diagnostic → Diagnostic → Prop} (hWarning : ∀ w d, R (.warning w) d)
    (hError : ∀ d e, R d (.error e)) :
    ((Report.empty.addWarnings warnings).addErrors errors).items.Pairwise R := by
  refine List.pairwise_append.mpr ⟨?_, ?_, ?_⟩
  · change (warnings.map Diagnostic.warning).Pairwise R
    rw [List.pairwise_map]
    exact List.pairwise_of_forall fun _ _ => hWarning _ _
  · rw [List.pairwise_map]
    exact List.pairwise_of_forall fun _ _ => hError _ _
  · intro d _ d' hd'
    obtain ⟨e, -, rfl⟩ := List.mem_map.mp hd'
    exact hError d e

/-- All that is said of a compilation follows from where it ended. -/
theorem Compilation.Ends.gated {source : String} {options : CompileOptions} {c : Compilation}
    (h : c.Ends source options) : c.Gated source options := by
  have hOrder (warnings : List Warning) (errors : List Error) :=
    pairwise_report warnings errors (R := fun earlier later =>
      (∃ e, earlier = .error e ∧ e.stage? = some .lowering) → later.isError)
      (by rintro w d ⟨e, ⟨⟩, -⟩) (fun _ _ _ => rfl)
  cases h with
  | unread hRead =>
    refine ⟨?_, ⟨.reading, ?_⟩, ?_, ?_⟩
    · simp [Compilation.text?, hRead]
    · simpa using allFrom_parse source
    · simp
    · exact hOrder [] _
  | unnamed hRead hNames =>
    refine ⟨?_, ⟨.naming, ?_⟩, ?_, ?_⟩
    · simp [Compilation.text?, hNames]
    · simpa using allFrom_nameErrors _
    · simp
    · exact hOrder [] _
  | unkinded hRead hNames hKinds =>
    refine ⟨?_, ⟨.kinds, ?_⟩, ?_, ?_⟩
    · simp [Compilation.text?, hKinds]
    · simpa using allFrom_checkKinds _
    · simp
    · exact hOrder [] _
  | checked hRead hNames hKinds hCheck =>
    refine ⟨?_, ⟨.lowering, ?_⟩, ?_, ?_⟩
    · simp [Compilation.text?, hCheck]
    · simp
    · exact fun _ => ⟨hRead, hNames, hKinds⟩
    · simpa [Report.addErrors_nil] using hOrder (usageWarnings (parse source).1).1 []
  | @lowered lines s hRead hNames hKinds hCheck hLower =>
    have hFound : AllFrom .lowering s.errors := by
      have := allFrom_lowerFrom options.stackWords (parse source).1
      rwa [hLower] at this
    refine ⟨?_, ⟨.lowering, ?_⟩, ?_, ?_⟩
    · by_cases hErrors : s.errors = [] <;> simp [Compilation.text?, hCheck, hErrors]
    · simpa using hFound
    · exact fun _ => ⟨hRead, hNames, hKinds⟩
    · exact hOrder _ _

/-- Checking only reports what compiling does, up to the errors of lowering. -/
theorem Compilation.Ends.check_prefix {source : String} {stackWords : Nat}
    {checked full : Compilation} (hChecked : checked.Ends source ⟨stackWords, true⟩)
    (hFull : full.Ends source ⟨stackWords, false⟩) :
    ∃ errors, full.report = checked.report.addErrors errors ∧ AllFrom .lowering errors := by
  cases hChecked <;> cases hFull <;> try contradiction
  · exact ⟨[], (Report.addErrors_nil _).symm, allFrom_nil _⟩
  · exact ⟨[], (Report.addErrors_nil _).symm, allFrom_nil _⟩
  · exact ⟨[], (Report.addErrors_nil _).symm, allFrom_nil _⟩
  · next s hRead hNames hKinds hCheck hLower =>
    have hFound := allFrom_lowerFrom stackWords (parse source).1
    rw [hLower] at hFound
    exact ⟨s.errors, rfl, hFound⟩

/-! ### Files -/

namespace CommandLine

variable {σ : Type}

/-- Files kept in a state, which reading leaves as it is. -/
def Files.ofState (read : σ → String → Except FileError String)
    (write : σ → String → String → Except FileError Unit × σ) : Files (StateM σ) where
  read path := fun s => (read s path, s)
  write path text := fun s => write s path text

/-- What a run of the compiler does to the files: it leaves them alone, or it writes the listing of
a program in which no errors were found to the path that was asked for. -/
inductive Leaves (read : σ → String → Except FileError String)
    (write : σ → String → String → Except FileError Unit × σ) (a : Arguments) (s : σ) : σ → Prop
  | unchanged : Leaves read write a s s
  | written {input source text : String} {c : Compilation} :
      a.input? = some input → read s input = .ok source → compile source a.options = .ok c →
      c.report.errors = [] → a.check = false → c.text? = some text →
      Leaves read write a s (write s a.output text).2

variable (read : σ → String → Except FileError String)
  (write : σ → String → String → Except FileError Unit × σ)

/-- Nothing is written but the listing, and only if there is one. -/
theorem state_writeListing (output : String) (c : Compilation) (shown : String × String) (s : σ) :
    (writeListing (Files.ofState read write) output c shown s).2 =
      match c.text? with
      | none => s
      | some text => (write s output text).2 := by
  unfold writeListing
  cases hText : c.text? with
  | none => rfl
  | some text =>
    simp only [bind, StateT.bind, Files.ofState]
    cases hWrite : write s output text with
    | mk result s' => cases result <;> rfl

theorem leaves_runCompile (a : Arguments) (s : σ) :
    Leaves read write a s (runCompile (Files.ofState read write) a s).2 := by
  unfold runCompile
  cases hInput : a.input? with
  | none => exact .unchanged
  | some input =>
  simp only [bind, StateT.bind, Files.ofState]
  cases hRead : read s input with
  | error e => exact .unchanged
  | ok source =>
  obtain ⟨c, hCompile, hEnds⟩ := compile_ends source a.options
  simp only [hCompile]
  cases hShown : showReport? a.json c.report input source with
  | none => exact .unchanged
  | some shown =>
  change Leaves read write a s (writeListing (Files.ofState read write) a.output c shown s).2
  rw [state_writeListing]
  cases hText : c.text? with
  | none => exact .unchanged
  | some text =>
    obtain ⟨hErrors, hCheck⟩ := hEnds.gated.listing.mp (by simp [hText])
    exact .written hInput hRead hCompile hErrors hCheck hText

/-- Files are only touched on behalf of a request to compile. -/
theorem run_unchanged_or_compiles (arguments : List String) (s : σ) :
    (run (Files.ofState read write) arguments s).2 = s ∨
      ∃ a, Request.read arguments = .ok (.compile a) ∧
        run (Files.ofState read write) arguments s =
          runCompile (Files.ofState read write) a s := by
  unfold run
  cases Request.read arguments with
  | error e => exact .inl rfl
  | ok request =>
    cases request with
    | help => exact .inl rfl
    | version => exact .inl rfl
    | compile a => exact .inr ⟨a, rfl, rfl⟩

variable {read write}

/-- A compilation with errors, or one that only checks, leaves all files as they are. -/
theorem Leaves.eq_of_failed {s s' : σ} {a : Arguments} {input source : String} {c : Compilation}
    (h : Leaves read write a s s') (hInput : a.input? = some input)
    (hRead : read s input = .ok source) (hCompile : compile source a.options = .ok c)
    (hFailed : c.report.errors ≠ [] ∨ a.check = true) : s' = s := by
  cases h with
  | unchanged => rfl
  | written hInput' hRead' hCompile' hErrors hCheck hText =>
    obtain rfl : input = _ := by simpa [hInput] using hInput'
    obtain rfl : source = _ := by simpa [hRead] using hRead'
    obtain rfl : c = _ := by simpa [hCompile] using hCompile'
    simp [hErrors, hCheck] at hFailed

def Disk.tryWrite (disk : Disk) (path text : String) : Except FileError Unit × Disk :=
  match disk.write path text with
  | .error e => (.error e, disk)
  | .ok disk => (.ok (), disk)

theorem disk_files : Disk.files = Files.ofState Disk.read Disk.tryWrite := by
  unfold Disk.files Files.ofState
  congr 1
  funext path text disk
  unfold Disk.tryWrite
  change (match disk.write path text with
    | .error e => (pure (.error e) : StateM Disk (Except FileError Unit))
    | .ok disk => do
      set disk
      pure (.ok ())) disk = _
  cases disk.write path text <;> rfl

end CommandLine

open CommandLine

/-- Compiling ends at the first stage that finds an error, and its report shows which. Only a
listing without errors that was asked for is ever written to a file, whatever the arguments, and
nothing but a compilation writes files. -/
theorem compile_gates_stages :
    (∀ source options, ∃ c, compile source options = .ok c ∧ c.Gated source options) ∧
    (∀ source stackWords, ∃ checked full errors,
      compile source ⟨stackWords, true⟩ = .ok checked ∧
      compile source ⟨stackWords, false⟩ = .ok full ∧
      full.report = checked.report.addErrors errors ∧ AllFrom .lowering errors) ∧
    (∀ {σ : Type} (read : σ → String → Except FileError String)
      (write : σ → String → String → Except FileError Unit × σ) (a : Arguments) (s : σ),
      Leaves read write a s (runCompile (Files.ofState read write) a s).2) ∧
    (∀ (a : Arguments) (disk : Disk) (input source : String) (c : Compilation),
      a.input? = some input → disk.read input = .ok source → compile source a.options = .ok c →
      c.report.errors ≠ [] ∨ a.check = true → (runCompile Disk.files a disk).2 = disk) ∧
    (∀ {σ : Type} (read : σ → String → Except FileError String)
      (write : σ → String → String → Except FileError Unit × σ) (arguments : List String) (s : σ),
      (run (Files.ofState read write) arguments s).2 = s ∨
        ∃ a, Request.read arguments = .ok (.compile a) ∧
          run (Files.ofState read write) arguments s =
            runCompile (Files.ofState read write) a s) := by
  refine ⟨?_, ?_, ?_, ?_, ?_⟩
  · intro source options
    obtain ⟨c, hCompile, hEnds⟩ := compile_ends source options
    exact ⟨c, hCompile, hEnds.gated⟩
  · intro source stackWords
    obtain ⟨checked, hCheckedOk, hChecked⟩ := compile_ends source ⟨stackWords, true⟩
    obtain ⟨full, hFullOk, hFull⟩ := compile_ends source ⟨stackWords, false⟩
    obtain ⟨errors, hReport, hErrors⟩ := hChecked.check_prefix hFull
    exact ⟨checked, full, errors, hCheckedOk, hFullOk, hReport, hErrors⟩
  · intro σ read write a s
    exact leaves_runCompile read write a s
  · intro a disk input source c hInput hRead hCompile hFailed
    rw [disk_files]
    exact (leaves_runCompile _ _ a disk).eq_of_failed hInput hRead hCompile hFailed
  · intro σ read write arguments s
    exact run_unchanged_or_compiles read write arguments s

end ChipPascal
