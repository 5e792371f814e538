import ChipPascal.Proofs.Declarations

/-!
# What programs mean

A program acts on numbers: an `integer` is below 2^8, a `long` below 2^16, and an expression has
its value among all integers before it is cut to the type it is needed in. Procedures are called
by value. Variables of a procedure that are not parameters start with whatever was there before,
which `start` tells for each call in turn.

The stack is visible in one respect: a run comes to nothing where more bytes would be live than
the stack pointer can count.
-/

namespace ChipPascal

namespace ValueType

def modulus : ValueType → Nat
  | integer => 0x100
  | long => 0x10000

def bytes : ValueType → Nat
  | integer => 1
  | long => 2

end ValueType

abbrev Store := String → Nat

def Store.set (store : Store) (name : String) (value : Nat) : Store :=
  fun x => if x = name then value else store x

/-! ### Expressions -/

namespace Expr

variable (store : Store) (typeOf : String → ValueType)

/-- The value of an expression, which no type bounds yet. -/
def value : Expr → Int
  | ref name => store name.name
  | int text _ => Nat.ofDigitChars 10 text.toList 0
  | unary .neg operand _ => -operand.value
  | unary .pos operand _ => operand.value
  | binary .add left right _ => left.value + right.value
  | binary .sub left right _ => left.value - right.value
  | binary .mul left right _ => left.value * right.value
  | binary .div left right _ => left.value / right.value

/-- The value of an expression where a value of type `type` is needed. -/
def valueAs (type : ValueType) (e : Expr) : Nat := (e.value store % type.modulus).toNat

/-- Some variable in the expression is a `long`, or some literal does not fit one byte. -/
def isLong : Expr → Bool
  | ref name => (typeOf name.name).isWide
  | int text _ => decide (255 < Nat.ofDigitChars 10 text.toList 0)
  | unary _ operand _ => operand.isLong
  | binary _ left right _ => left.isLong || right.isLong

def condType (e : Expr) : ValueType := if e.isLong typeOf then .long else .integer

/-- The most bytes that are on the stack at once while the expression is evaluated, if an operand
takes `bytes`. Only a right operand that is not a variable or a literal makes the left one wait. -/
def spilled (bytes : Nat) : Expr → Nat
  | ref _ | int _ _ => 0
  | unary _ operand _ => operand.spilled bytes
  | binary _ left right _ =>
    if right.isLeaf then left.spilled bytes
    else max (left.spilled bytes) (bytes + right.spilled bytes)

end Expr

/-! ### Programs -/

def Program.procs (p : Program) : List ProcDecl :=
  p.decls.filterMap fun
    | .var _ => none
    | .proc decl => some decl

def findVar (vars : List VarDecl) (name : String) : Option VarDecl :=
  vars.find? fun decl => decl.name.name = name

def Program.typeIn (p : Program) (vars : List VarDecl) (name : String) : ValueType :=
  match (findVar vars name).or (findVar p.globals name) with
  | some decl => decl.typeOf
  | none => .integer

def varBytes : List VarDecl → Nat
  | [] => 0
  | decl :: vars => decl.typeOf.bytes + varBytes vars

def ProcDecl.frameSize (proc : ProcDecl) : Nat := varBytes proc.vars

mutual

def Stmt.calls : Stmt → List (Ident × List Expr)
  | .block stmts _ => callsIn stmts
  | .assign _ _ => []
  | .call name args => [(name, args)]
  | .ifThen _ yes _ => yes.calls
  | .ifElse _ yes no _ => yes.calls ++ no.calls

def callsIn : List Stmt → List (Ident × List Expr)
  | [] => []
  | stmt :: stmts => stmt.calls ++ callsIn stmts

end

/-- The bodies of a program, each with its local variables. -/
def Program.bodies (program : Program) : List (List VarDecl × List Stmt) :=
  ([], program.body.stmts) :: program.procs.map fun proc => (proc.vars, proc.body.stmts)

/-- The call stands in a body with the local variables `vars`. -/
def Program.HasSite (program : Program) (vars : List VarDecl) (call : Ident × List Expr) : Prop :=
  ∃ stmts, (vars, stmts) ∈ program.bodies ∧ call ∈ callsIn stmts

/-- What outlives a call. -/
structure World where
  globals : Store
  /-- The digits that `make_bcd` recorded last, of the low and of the high byte. -/
  bcdLow : List Nat
  bcdHigh : List Nat
  /-- The number of procedures entered so far. -/
  entered : Nat

def World.initial : World := ⟨fun _ => 0, [0, 0, 0], [0, 0, 0], 0⟩

def decimalDigits (n : Nat) : List Nat := [n / 100, n / 10 % 10, n % 10]

def World.recordBcd (w : World) (value : Nat) : World :=
  { w with bcdLow := decimalDigits (value % 256), bcdHigh := decimalDigits (value / 256) }

inductive Halt where
  | outOfFuel
  | overflow
deriving DecidableEq, Repr

/-- The most bytes that may be live on the stack. -/
def stackLimit : Nat := 255

def fits (bytes : Nat) : Except Halt Unit :=
  if bytes ≤ stackLimit then .ok () else .error .overflow

def storeIn (vars : List VarDecl) (globals locals : Store) : Store :=
  fun name => if (findVar vars name).isSome then locals name else globals name

/-- The values of arguments, laid on the stack one after the other. -/
def stageArgs (store : Store) (live : Nat) : List (Expr × ValueType) → Except Halt (List Nat)
  | [] => return []
  | (arg, type) :: rest => do
    fits (live + arg.spilled type.bytes)
    fits (live + type.bytes)
    let values ← stageArgs store (live + type.bytes) rest
    return arg.valueAs store type :: values

/-- The variables of a procedure at its start: parameters have the values of the arguments, other
variables any values of their types. -/
def ProcDecl.startLocals (proc : ProcDecl) (start : Store) (values : List Nat) : Store :=
  fun name =>
    match (proc.params.zip values).find? fun p => p.1.name.name = name with
    | some (_, value) => value
    | none =>
      match findVar proc.locals name with
      | some decl => start name % decl.typeOf.modulus
      | none => 0

section Run

variable (program : Program)
  (call : ProcDecl → List Nat → Nat → World → Except Halt World)
  (vars : List VarDecl) (live : Nat)

def assignVar (name : String) (value : Nat) (w : World) (locals : Store) : World × Store :=
  if (findVar vars name).isSome then (w, locals.set name value)
  else ({ w with globals := w.globals.set name value }, locals)

def runAssign (target : String) (value : Expr) (w : World) (locals : Store) :
    Except Halt (World × Store) := do
  let type := program.typeIn vars target
  fits (live + value.spilled type.bytes)
  return assignVar vars target (value.valueAs (storeIn vars w.globals locals) type) w locals

def runIntrinsic (intrinsic : Intrinsic) (args : List Expr) (w : World) (locals : Store) :
    Except Halt World :=
  match intrinsic, args with
  | .makeBcd, [arg] => do
    fits (live + arg.spilled 2)
    return w.recordBcd (arg.valueAs (storeIn vars w.globals locals) .long)
  | _, _ => return w

/-- A call saves the base of the frame in a byte of its own, above which it lays the arguments. -/
def runCall (name : String) (args : List Expr) (w : World) (locals : Store) :
    Except Halt World :=
  match Intrinsic.ofName? name with
  | some intrinsic => runIntrinsic vars live intrinsic args w locals
  | none =>
    match program.procs.find? fun proc => proc.name.name = name with
    | none => return w
    | some proc => do
      fits (live + 1)
      let store := storeIn vars w.globals locals
      let values ← stageArgs store (live + 1) (args.zip (proc.params.map (·.typeOf)))
      call proc values live w

def runCond (cond : Expr) (w : World) (locals : Store) : Except Halt Bool := do
  let type := cond.condType (program.typeIn vars)
  fits (live + cond.spilled type.bytes)
  return cond.valueAs (storeIn vars w.globals locals) type ≠ 0

mutual

def runStmt : Stmt → World → Store → Except Halt (World × Store)
  | .block stmts _, w, locals => runStmts stmts w locals
  | .assign target value, w, locals => runAssign program vars live target.name value w locals
  | .call name args, w, locals => do
    let w ← runCall program call vars live name.name args w locals
    return (w, locals)
  | .ifThen cond yes _, w, locals => do
    if ← runCond program vars live cond w locals then runStmt yes w locals
    else return (w, locals)
  | .ifElse cond yes no _, w, locals => do
    if ← runCond program vars live cond w locals then runStmt yes w locals
    else runStmt no w locals

def runStmts : List Stmt → World → Store → Except Halt (World × Store)
  | [], w, locals => return (w, locals)
  | stmt :: stmts, w, locals => do
    let (w, locals) ← runStmt stmt w locals
    runStmts stmts w locals

end

end Run

/-- Runs a procedure on the values of its parameters, where `live` bytes are on the stack. Calls
may be nested as deep as the fuel lasts. -/
def runProc (program : Program) (start : Nat → Store) :
    Nat → ProcDecl → List Nat → Nat → World → Except Halt World
  | 0, _, _, _, _ => .error .outOfFuel
  | fuel + 1, proc, values, live, w => do
    let top := live + 1 + proc.frameSize
    fits top
    let (w, _) ← runStmts program (runProc program start fuel) proc.vars top proc.body.stmts
      { w with entered := w.entered + 1 } (proc.startLocals (start w.entered) values)
    return w

def Program.run (program : Program) (start : Nat → Store) (fuel : Nat) : Except Halt World := do
  let (w, _) ← runStmts program (runProc program start fuel) [] 0 program.body.stmts
    World.initial fun _ => 0
  return w

end ChipPascal
