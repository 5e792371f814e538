import ChipPascal.Token

/-!
# Program trees

The tree that is read from a source text. Every name keeps the place it was read from.
-/

namespace ChipPascal

/-- An occurrence of a name. -/
structure Ident where
  name : String
  span : Span
deriving DecidableEq, Repr

inductive UnaryOp where
  | neg
  | pos
deriving DecidableEq, Repr

inductive BinaryOp where
  | add
  | sub
  | mul
  | div
deriving DecidableEq, Repr

namespace BinaryOp

def symbol : BinaryOp → String
  | add => "+"
  | sub => "-"
  | mul => "*"
  | div => "/"

def precedence : BinaryOp → Nat
  | add | sub => 1
  | mul | div => 2

end BinaryOp

/-- The operator that a token stands for between two operands. -/
def TokenKind.binaryOp? : TokenKind → Option BinaryOp
  | .plus => some .add
  | .minus => some .sub
  | .star => some .mul
  | .slash => some .div
  | _ => none

inductive Expr where
  | ref (name : Ident)
  | int (text : String) (span : Span)
  | unary (op : UnaryOp) (operand : Expr) (span : Span)
  | binary (op : BinaryOp) (left right : Expr) (span : Span)
deriving DecidableEq, Repr

namespace Expr

def span : Expr → Span
  | ref name => name.span
  | int _ span | unary _ _ span | binary _ _ _ span => span

def isLeaf : Expr → Bool
  | ref _ | int _ _ => true
  | unary .. | binary .. => false

end Expr

inductive Stmt where
  | block (stmts : List Stmt) (span : Span)
  | assign (target : Ident) (value : Expr)
  | call (name : Ident) (args : List Expr)
  | ifThen (cond : Expr) (yes : Stmt) (span : Span)
  | ifElse (cond : Expr) (yes no : Stmt) (span : Span)

/-- The statements between `begin` and `end`, both words in the span. -/
structure Block where
  stmts : List Stmt
  span : Span

structure VarDecl where
  name : Ident
  type : Ident
  isConst : Bool
deriving DecidableEq, Repr

structure ProcDecl where
  name : Ident
  params : List VarDecl
  locals : List VarDecl
  body : Block

namespace ProcDecl

/-- Parameters and locals, in the order of their places in the frame. -/
def vars (p : ProcDecl) : List VarDecl := p.params ++ p.locals

end ProcDecl

inductive Decl where
  | var (decl : VarDecl)
  | proc (decl : ProcDecl)

structure Program where
  name : Ident
  decls : List Decl
  body : Block

namespace Program

/-- The variables declared outside procedures. -/
def globals (p : Program) : List VarDecl :=
  p.decls.filterMap fun
    | .var decl => some decl
    | .proc _ => none

end Program

end ChipPascal
