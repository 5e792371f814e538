import ChipPascal.Diagnostic
import ChipPascal.Program
import ChipPascal.Scopes

/-!
# Unset and unused names

Warns of reads from variables to which nothing was assigned before, in the order of the text, and
of declarations that nothing reads or calls. An assignment sets a variable but does not use it;
an assignment in one branch of an `if` counts for all that follows.
-/

namespace ChipPascal

namespace Usage

inductive EntryKind where
  | var
  | proc
  | builtin
deriving DecidableEq, Repr

/-- What the walk knows about a declaration. -/
structure Entry where
  kind : EntryKind
  declaredAt : Span
  isUsed : Bool
  isSet : Bool
deriving DecidableEq, Repr

structure State where
  scopes : Scopes Entry
  warnings : Array Warning

/-- A walk over the tree, which a missing name ends. -/
abbrev Walk := EStateM Fault State

def initial : State := ⟨.withBuiltins fun _ => ⟨.builtin, .nowhere, true, true⟩, #[]⟩

def warn (w : Warning) : Walk Unit := modify fun s => { s with warnings := s.warnings.push w }

def declare (name : Ident) (kind : EntryKind) (isSet : Bool) : Walk Unit :=
  modify fun s =>
    { s with scopes := s.scopes.define name.name ⟨kind, name.span, false, isSet⟩ }

/-- The entry of a name, as `f` changes it. -/
def update (name : Ident) (f : Entry → Entry) : Walk Entry := do
  let s ← get
  match s.scopes.get? name.name with
  | none => throw (.nameNotFound name.name)
  | some entry =>
    set { s with scopes := s.scopes.set name.name (f entry) }
    return f entry

def walkRead (name : Ident) : Walk Unit := do
  let entry ← update name fun entry => { entry with isUsed := true }
  if !entry.isSet then warn (.uninitializedRead name.name name.span)

def walkExpr : Expr → Walk Unit
  | .ref name => walkRead name
  | .int _ _ => return
  | .unary _ operand _ => walkExpr operand
  | .binary _ left right _ => do
    walkExpr left
    walkExpr right

def walkExprs : List Expr → Walk Unit
  | [] => return
  | e :: es => do
    walkExpr e
    walkExprs es

mutual

def walkStmt : Stmt → Walk Unit
  | .block stmts _ => walkStmts stmts
  | .assign target value => do
    walkExpr value
    let _ ← update target fun entry => { entry with isSet := true }
  | .call name args => do
    let _ ← update name fun entry => { entry with isUsed := true }
    walkExprs args
  | .ifThen cond yes _ => do
    walkExpr cond
    walkStmt yes
  | .ifElse cond yes no _ => do
    walkExpr cond
    walkStmt yes
    walkStmt no

def walkStmts : List Stmt → Walk Unit
  | [] => return
  | stmt :: stmts => do
    walkStmt stmt
    walkStmts stmts

end

def unused? : String × Entry → Option Warning
  | (name, entry) =>
    match entry.kind with
    | .var => some (.unusedVariable name entry.declaredAt)
    | .proc => some (.unusedProcedure name entry.declaredAt)
    | .builtin => none

/-- Warnings about all that is unused among `entries`, by the place of the declaration. -/
def unusedWarnings (entries : Bindings Entry) : List Warning :=
  ((entries.filter fun e => !e.2.isUsed).mergeSort fun a b =>
    a.2.declaredAt.start ≤ b.2.declaredAt.start).filterMap unused?

/-! ### Sweeping a scope

The entries of a scope come in the order in which its names were bound, but a sweep is meant not to
depend on that. So the walk takes as `enumerate` what its sweeps see of a scope. -/

def sweepBy (enumerate : State → Bindings Entry) : Walk Unit :=
  modify fun s => { s with warnings := s.warnings ++ (unusedWarnings (enumerate s)).toArray }

def declareAll (decls : List VarDecl) (isSet : Bool) : Walk Unit :=
  match decls with
  | [] => return
  | decl :: decls => do
    declare decl.name .var isSet
    declareAll decls isSet

/-- Parameters are set by the caller. -/
def walkProcBy (enumerate : State → Bindings Entry) (proc : ProcDecl) : Walk Unit := do
  declare proc.name .proc true
  let outer := (← get).scopes.active
  modify fun s => { s with scopes := s.scopes.openLocal }
  declareAll proc.params true
  declareAll proc.locals false
  walkStmts proc.body.stmts
  sweepBy enumerate
  modify fun s => { s with scopes := s.scopes.enter outer }

def walkDeclsBy (enumerate : State → Bindings Entry) : List Decl → Walk Unit
  | [] => return
  | .var decl :: decls => do
    declare decl.name .var false
    walkDeclsBy enumerate decls
  | .proc proc :: decls => do
    walkProcBy enumerate proc
    walkDeclsBy enumerate decls

def walkProgramBy (enumerate : State → Bindings Entry) (program : Program) : Walk Unit := do
  walkDeclsBy enumerate program.decls
  walkStmts program.body.stmts
  sweepBy enumerate

end Usage

open Usage

/-- The warnings about a program, and the fault that ended the walk early, if one did. -/
def usageWarningsBy (enumerate : State → Bindings Entry) (program : Program) :
    List Warning × Option Fault :=
  match (walkProgramBy enumerate program).run initial with
  | .ok _ s => (s.warnings.toList, none)
  | .error fault s => (s.warnings.toList, some fault)

def usageWarnings (program : Program) : List Warning × Option Fault :=
  usageWarningsBy (·.scopes.entries) program

end ChipPascal
