import ChipPascal.Check.Findings
import ChipPascal.Symbols

/-!
# Names are used as what they are

Variables are read and assigned, procedures are called, and constants keep their value. The names
are taken to be declared; one that is not ends the check with a fault.
-/

namespace ChipPascal

namespace Kinds

def readFindings (syms : Symbols) (name : Ident) : Findings Error :=
  match syms.get? name.name with
  | none => .stop (.nameNotFound name.name)
  | some symbol => if symbol.isVar then .clean else .report (.notAVariable name.name name.span)

def targetFindings (syms : Symbols) (name : Ident) : Findings Error :=
  match syms.get? name.name with
  | none => .stop (.nameNotFound name.name)
  | some (.var info) =>
    if info.isConst then .report (.assignToConst name.name name.span) else .clean
  | some _ => .report (.notAVariable name.name name.span)

def calleeFindings (syms : Symbols) (name : Ident) : Findings Error :=
  match syms.get? name.name with
  | none => .stop (.nameNotFound name.name)
  | some symbol => if symbol.isProc then .clean else .report (.notAProcedure name.name name.span)

def exprFindings (syms : Symbols) : Expr → Findings Error
  | .ref name => readFindings syms name
  | .int _ _ => .clean
  | .unary _ operand _ => exprFindings syms operand
  | .binary _ left right _ => exprFindings syms left ++ exprFindings syms right

def exprsFindings (syms : Symbols) : List Expr → Findings Error
  | [] => .clean
  | e :: es => exprFindings syms e ++ exprsFindings syms es

mutual

def stmtFindings (syms : Symbols) : Stmt → Findings Error
  | .block stmts _ => stmtsFindings syms stmts
  | .assign target value => targetFindings syms target ++ exprFindings syms value
  | .call name args => calleeFindings syms name ++ exprsFindings syms args
  | .ifThen cond yes _ => exprFindings syms cond ++ stmtFindings syms yes
  | .ifElse cond yes no _ =>
    exprFindings syms cond ++ (stmtFindings syms yes ++ stmtFindings syms no)

def stmtsFindings (syms : Symbols) : List Stmt → Findings Error
  | [] => .clean
  | stmt :: stmts => stmtFindings syms stmt ++ stmtsFindings syms stmts

end

def declareVar (syms : Symbols) (decl : VarDecl) : Symbols × Option Fault :=
  match decl.valueType with
  | .error fault => (syms, some fault)
  | .ok type => (syms.bindVar decl type, none)

/-- Declares variables up to the first whose type is unknown. -/
def declareVars (syms : Symbols) : List VarDecl → Symbols × Option Fault
  | [] => (syms, none)
  | decl :: decls =>
    match declareVar syms decl with
    | (syms, some fault) => (syms, some fault)
    | (syms, none) => declareVars syms decls

/-- Declares a procedure, then checks its body in a scope of its own. -/
def checkProc (syms : Symbols) (proc : ProcDecl) : Symbols × Findings Error :=
  match valueTypes proc.params with
  | .error fault => (syms, .stop fault)
  | .ok params =>
    let syms := syms.define proc.name.name (.proc params)
    let outer := syms.active
    match declareVars syms.openLocal proc.vars with
    | (syms, some fault) => (syms.enter outer, .stop fault)
    | (syms, none) => (syms.enter outer, stmtsFindings syms proc.body.stmts)

def checkDecl (syms : Symbols) : Decl → Symbols × Findings Error
  | .var decl => (declareVar syms decl).map id .ofFault
  | .proc proc => checkProc syms proc

def checkDecls (syms : Symbols) : List Decl → Symbols × Findings Error
  | [] => (syms, .clean)
  | decl :: decls =>
    let (syms, found) := checkDecl syms decl
    if found.fault.isSome then (syms, found)
    else
      let (syms, more) := checkDecls syms decls
      (syms, found ++ more)

end Kinds

/-- Checks how a program uses its names; also gives the symbols it declares. -/
def checkKinds (program : Program) : Symbols × Findings Error :=
  let (syms, found) := Kinds.checkDecls .ofBuiltins program.decls
  (syms, found ++ Kinds.stmtsFindings syms program.body.stmts)

end ChipPascal
