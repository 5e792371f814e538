import ChipPascal.Lowering.Monad
import ChipPascal.Text.Numeral

/-!
# Lowering expressions

The value of an expression is computed in the accumulator pair; the high half matters only where
the value is wide. A variable or a literal on the right of an operator is combined with the
accumulator directly, anything else after the left operand was put on the stack.
-/

namespace ChipPascal.Lowering

open Lower Line

/-- How a value meets the accumulator. -/
inductive Mode where
  | load
  | add
  | sub
deriving DecidableEq, Repr

namespace Mode

def mnemonic : Mode → String
  | load => "ld"
  | add => "add"
  | sub => "sub"

def instr (mode : Mode) (x y : Reg) : Instr :=
  match mode with
  | load => .copy x y
  | add => .add x y
  | sub => .sub x y

def ofOp? : BinaryOp → Option Mode
  | .add => some add
  | .sub => some sub
  | .mul | .div => none

end Mode

/-! ### Sequences -/

def storeAccumulator (type : ValueType) : List Line :=
  [plain (.copy .loadLow .accLow)]
    ++ (if type.isWide then [plain (.copy .loadHigh .accHigh)] else [])
    ++ [plain (.save (.bulk type.size))]

def width (wide : Bool) : UInt8 := if wide then 2 else 1

def spill (wide : Bool) : List Line :=
  [noted (.copy .loadLow .accLow) "spill left operand"]
    ++ (if wide then [plain (.copy .loadHigh .accHigh)] else [])
    ++ [plain (.index .stackZone), plain (.addIndex .stack), plain (.save (.bulk (width wide))),
      plain (.addByte .stack (width wide))]

/-- Combines the value below the load registers with the accumulator, the former on the left. -/
def combine (mode : Mode) (wide : Bool) : List Line :=
  match mode with
  | .load => []
  | .add =>
    plain (.add .loadLow .accLow) ::
      if wide then [plain (.add .loadHigh .flag), plain (.add .loadHigh .accHigh)] else []
  | .sub =>
    plain (.sub .loadLow .accLow) ::
      if wide then
        [plain (.add .loadHigh .flag), plain (.addByte .loadHigh 0xFF),
          plain (.sub .loadHigh .accHigh)]
      else []

/-- Takes the left operand from the stack and combines it with the right one. -/
def reload (mode : Mode) (wide : Bool) : List Line :=
  [noted (.index .stackZone) "reload left operand", plain (.addByte .stack (-width wide)),
    plain (.addIndex .stack), plain (.load (.bulk (width wide)))]
    ++ combine mode wide
    ++ [plain (.copy .accLow .loadLow)]
    ++ (if wide then [plain (.copy .accHigh .loadHigh)] else [])

/-- The high half of the accumulator after the low half met a variable. -/
def readVarHigh (mode : Mode) (isWide : Bool) : List Line :=
  match mode with
  | .load => [if isWide then plain (.copy .accHigh .loadHigh) else plain (.set .accHigh 0)]
  | .add =>
    plain (.add .accHigh .flag) :: if isWide then [plain (.add .accHigh .loadHigh)] else []
  | .sub =>
    [plain (.add .accHigh .flag), plain (.addByte .accHigh 0xFF)]
      ++ if isWide then [plain (.sub .accHigh .loadHigh)] else []

/-- Reads the variable that `I` points at; `isWide` says whether it is a `long`. -/
def readVar (mode : Mode) (wide isWide : Bool) : List Line :=
  [plain (.load (if isWide && wide then .loadHigh else .loadLow)),
    plain (mode.instr .accLow .loadLow)]
    ++ if wide then readVarHigh mode isWide else []

def literal (mode : Mode) (wide : Bool) (value : UInt16) : List Line :=
  let low := value.toUInt8
  let high := (value >>> 8).toUInt8
  let note := "literal " ++ toString value.toNat
  match mode, wide with
  | .load, false => [noted (.set .accLow low) note]
  | .load, true => [noted (.set .accLow low) note, plain (.set .accHigh high)]
  | .add, false => [noted (.addByte .accLow low) note]
  -- a byte can only be added, so its negative is
  | .sub, false => [noted (.addByte .accLow (-low)) note]
  | .add, true =>
    [noted (.set .loadLow low) note, plain (.add .accLow .loadLow), plain (.add .accHigh .flag),
      plain (.addByte .accHigh high)]
  -- high + flag - 1 - literal high
  | .sub, true =>
    [noted (.set .loadLow low) note, plain (.sub .accLow .loadLow), plain (.add .accHigh .flag),
      plain (.addByte .accHigh (~~~high))]

def negate (wide : Bool) : List Line :=
  noted (.xor .accLow .ones) "negate" ::
    if wide then
      [plain (.xor .accHigh .ones), plain (.set .ones 1), plain (.add .accLow .ones),
        plain (.add .accHigh .flag), plain (.set .ones 0xFF)]
    else [plain (.addByte .accLow 1)]

/-! ### Steps -/

def varInfo (symbols : Symbols) (name : Ident) : Except Fault VarInfo :=
  match symbols.get? name.name with
  | some (.var info) => .ok info
  | some _ => .error (.notAVariable name.name)
  | none => .error (.nameNotFound name.name)

def variableInfo (name : Ident) : Lower Fault VarInfo := do
  match varInfo (← state).symbols name with
  | .ok info => return info
  | .error fault => stop fault

def literalValue (text : String) (span : Span) : Except Stop UInt16 :=
  match Numeral.read 10 0xFFFF text.toList with
  | .ok n => .ok (UInt16.ofNat n)
  | .error _ => .error (.user (.invalidLiteral text span))

/-- Points `I` at a variable in memory. Reaching a local displaces the frame base. -/
def pointAt (name : String) (isGlobal : Bool) (note : String) : Lower Fault Unit := do
  if isGlobal then emit [noted (.index (.global name)) note]
  else
    match (← state).frames.offsetFromLast? name with
    | none => stop (.noFrameSlot name)
    | some (delta, frames) =>
      update fun s => { s with frames := frames }
      emit ([noted (.index .stackZone) note]
        ++ (if delta = 0 then [] else [plain (.addByte .base delta)])
        ++ [plain (.addIndex .base)])

def address (name : String) (info : VarInfo) (note : String) : Lower Fault Unit :=
  match info.storage with
  | .register r => stop (.pinned name r)
  | .stack | .fixed => pointAt name info.isGlobal note

/-- Whether a condition needs both bytes: a `long` or a literal above 255 occurs in it. The
operands are looked at from the left, up to the first that decides. -/
def isWide (symbols : Symbols) : Expr → Except Stop Bool
  | .ref name =>
    match varInfo symbols name with
    | .ok info => .ok info.type.isWide
    | .error fault => .error (.fault fault)
  | .int text span =>
    match literalValue text span with
    | .ok value => .ok (0xFF < value)
    | .error e => .error e
  | .unary _ operand _ => isWide symbols operand
  | .binary _ left right _ =>
    match isWide symbols left with
    | .ok false => isWide symbols right
    | decided => decided

def lowerExpr (mode : Mode) (wide : Bool) : Expr → Lower Stop Unit
  | .ref name => do
    let info ← variableInfo name
    address name.name info (mode.mnemonic ++ " " ++ name.name)
    emit (readVar mode wide info.type.isWide)
  | .int text span =>
    match literalValue text span with
    | .ok value => emit (literal mode wide value)
    | .error e => stop e
  | .unary op operand _ => do
    lowerExpr .load wide operand
    emit (match op with
      | .neg => negate wide
      | .pos => [])
  | .binary op left right span =>
    match Mode.ofOp? op with
    | none => stop (.user (.unimplementedOperator op.symbol span))
    | some mode => do
      lowerExpr .load wide left
      if right.isLeaf then lowerExpr mode wide right
      else
        emit (spill wide)
        lowerExpr .load wide right
        emit (reload mode wide)

end ChipPascal.Lowering
