import ChipPascal.Diagnostic
import ChipPascal.Program
import ChipPascal.Scopes

/-!
# Names are declared

Every name used must be visible, and no scope declares a name twice. A procedure sees its own
parameters and locals, what was declared globally before it, itself, and the builtins.
-/

namespace ChipPascal

namespace Names

/-- The places of the declarations in force; a builtin has none. -/
abbrev Declared := Scopes (Option Span)

/-- Declares a name in the active scope. A repeated declaration is reported and has no effect. -/
def declare (d : Declared) (name : Ident) : Declared × List Error :=
  match d.getHere? name.name with
  | some previous => (d, [.nameRedefinition name.name name.span previous])
  | none => (d.define name.name (some name.span), [])

def useErrors (d : Declared) (name : Ident) : List Error :=
  if d.binds name.name then [] else [.nameUndefined name.name name.span]

/-- Only the type keywords name types. -/
def typeErrors (d : Declared) (type : Ident) : List Error :=
  if d.binds type.name ∧ (ValueType.ofKeyword? type.name).isSome then []
  else [.nameUndefined type.name type.span]

def exprErrors (d : Declared) : Expr → List Error
  | .ref name => useErrors d name
  | .int _ _ => []
  | .unary _ operand _ => exprErrors d operand
  | .binary _ left right _ => exprErrors d left ++ exprErrors d right

mutual

def stmtErrors (d : Declared) : Stmt → List Error
  | .block stmts _ => stmtsErrors d stmts
  | .assign target value => useErrors d target ++ exprErrors d value
  | .call name args => useErrors d name ++ args.flatMap (exprErrors d)
  | .ifThen cond yes _ => exprErrors d cond ++ stmtErrors d yes
  | .ifElse cond yes no _ => exprErrors d cond ++ stmtErrors d yes ++ stmtErrors d no

def stmtsErrors (d : Declared) : List Stmt → List Error
  | [] => []
  | stmt :: stmts => stmtErrors d stmt ++ stmtsErrors d stmts

end

def checkVar (d : Declared) (decl : VarDecl) : Declared × List Error :=
  let (d, errors) := declare d decl.name
  (d, errors ++ typeErrors d decl.type)

def checkVars (d : Declared) : List VarDecl → Declared × List Error
  | [] => (d, [])
  | decl :: decls =>
    let (d, errors) := checkVar d decl
    let (d, more) := checkVars d decls
    (d, errors ++ more)

def checkProc (d : Declared) (proc : ProcDecl) : Declared × List Error :=
  let (d, errors) := declare d proc.name
  let outer := d.active
  let (d, inner) := checkVars d.openLocal proc.vars
  (d.enter outer, errors ++ inner ++ stmtsErrors d proc.body.stmts)

def checkDecl (d : Declared) : Decl → Declared × List Error
  | .var decl => checkVar d decl
  | .proc proc => checkProc d proc

def checkDecls (d : Declared) : List Decl → Declared × List Error
  | [] => (d, [])
  | decl :: decls =>
    let (d, errors) := checkDecl d decl
    let (d, more) := checkDecls d decls
    (d, errors ++ more)

end Names

/-- All that is wrong with the names of a program, in the order of the text. -/
def nameErrors (program : Program) : List Error :=
  let (d, errors) := Names.checkDecls (.withBuiltins fun _ => none) program.decls
  errors ++ Names.stmtsErrors d program.body.stmts

end ChipPascal
