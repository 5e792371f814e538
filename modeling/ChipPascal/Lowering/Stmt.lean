import ChipPascal.Lowering.Expr

/-!
# Lowering statements

A mistake of the user gives up the statement it is in; the lines written for it stay, and lowering
goes on with the next statement.
-/

namespace ChipPascal.Lowering

open Lower Line

/-- Brings the frame base back to where the frame starts. -/
def settle {ε : Type} : Lower ε Unit := do
  let last := (← state).frames.last
  emit (if last = 0 then [] else [noted (.addByte .base (-last)) "settle frame base"])
  update fun s => { s with frames := s.frames.settle }

def lowerAssign (target : Ident) (value : Expr) : Lower Stop Unit := do
  let info ← variableInfo target
  lowerExpr .load info.type.isWide value
  address target.name info ("assign " ++ target.name)
  emit (storeAccumulator info.type ++ [blank])

/-! ### Calls -/

/-- Lays the arguments on the stack, where the callee's frame will hold its parameters. -/
def lowerArgs : List (Expr × ValueType) → Lower Stop Unit
  | [] => return
  | (arg, type) :: rest => do
    lowerExpr .load type.isWide arg
    emit ([plain (.index .stackZone), plain (.addIndex .stack)] ++ storeAccumulator type
      ++ [plain (.addByte .stack type.size)])
    lowerArgs rest

/-- The bytes a call lays on the stack: the place for the saved base, then the arguments. -/
def stagedBytes (params : List ValueType) : UInt8 :=
  params.foldl (fun bytes type => bytes + type.size) 1

def lowerUserCall (name : String) (params : List ValueType) (args : List Expr) :
    Lower Stop Unit := do
  emit [noted (.addByte .stack 1) ("call " ++ name)]
  lowerArgs (args.zip params)
  emit [plain (.addByte .stack (-stagedBytes params)), plain (.call (.procedure name)), blank]

def printBcd (zone : Label) : List Line :=
  [noted (.set .ones 0) ("print " ++ zone.text), plain (.index zone), plain (.load .accLow),
    plain (.glyph .loadLow), plain (.draw .ones .ones 5),
    plain (.set .loadLow 6), plain (.glyph .loadHigh), plain (.draw .loadLow .ones 5),
    plain (.addByte .loadLow 6), plain (.glyph .accLow), plain (.draw .loadLow .ones 5),
    plain (.set .ones 0xFF)]

def lowerIntrinsic (intrinsic : Intrinsic) (args : List Expr) : Lower Stop Unit := do
  match intrinsic, args with
  | .cls, _ => emit [plain .cls]
  | .breakpoint, _ => emit [plain .breakpoint]
  | .makeBcd, [arg] =>
    lowerExpr .load true arg
    emit [noted (.index .bcdLow) "make_bcd", plain (.decimal .accLow), plain (.index .bcdHigh),
      plain (.decimal .accHigh)]
  | .makeBcd, _ => stop (.fault .bcdArguments)
  | .printBcd, _ => emit (printBcd .bcdLow)
  | .printBcdHigh, _ => emit (printBcd .bcdHigh)
  emit [blank]

def lowerCall (name : Ident) (args : List Expr) : Lower Stop Unit := do
  match (← state).symbols.get? name.name with
  | none => stop (.fault (.nameNotFound name.name))
  | some (.proc params) =>
    if args.length ≠ params.length then
      stop (.user (.wrongArgumentCount name.name params.length args.length name.span))
    else
      match Intrinsic.ofName? name.name with
      | some intrinsic => lowerIntrinsic intrinsic args
      | none => lowerUserCall name.name params args
  | some _ => stop (.fault (.notAProcedure name.name))

/-! ### Branches -/

def newBranch {ε : Type} : Lower ε Nat := do
  let n := (← state).branches
  update fun s => { s with branches := n + 1 }
  return n

/-- Evaluates a condition and jumps to `whenZero` if it is zero. -/
def lowerCond (cond : Expr) (whenZero : Label) : Lower Stop Unit := do
  match isWide (← state).symbols cond with
  | .error e => stop e
  | .ok wide =>
    lowerExpr .load wide cond
    settle
    emit ((if wide then [noted (.or .accLow .accHigh) "merge condition halves"] else [])
      ++ [noted (.skipNe .accLow 0) "if", plain (.jump whenZero)])

mutual

def lowerStmt : Stmt → Lower Fault Unit
  | .block stmts _ => lowerStmts stmts
  | .assign target value => attempt (lowerAssign target value)
  | .call name args => attempt (lowerCall name args)
  | .ifThen cond yes _ => attempt do
    let n ← newBranch
    lowerCond cond (.elseBranch n)
    lowerStmt yes
    settle
    emit [.label (.elseBranch n)]
  | .ifElse cond yes no _ => attempt do
    let n ← newBranch
    lowerCond cond (.elseBranch n)
    lowerStmt yes
    settle
    emit [plain (.jump (.endBranch n)), .label (.elseBranch n)]
    lowerStmt no
    settle
    emit [.label (.endBranch n)]

def lowerStmts : List Stmt → Lower Fault Unit
  | [] => return
  | stmt :: stmts => do
    lowerStmt stmt
    lowerStmts stmts

end

end ChipPascal.Lowering
