import ChipPascal.Assembly.Register
import ChipPascal.Scopes
import ChipPascal.Text.Numeral

/-!
# Operations

What the machine does, and how an instruction in words is read as one. Everything that can be
wrong with the words of an instruction is found here, before it is carried out.
-/

namespace ChipPascal.Machine

structure Statement where
  mnemonic : String
  operands : List String
deriving DecidableEq, Repr

inductive Op where
  | index (address : UInt16)
  | save (x : Reg)
  | load (x : Reg)
  | decimal (x : Reg)
  | glyph (x : Reg)
  | set (x : Reg) (k : UInt8)
  | copy (x y : Reg)
  | addIndex (x : Reg)
  | add (x y : Reg)
  | addByte (x : Reg) (k : UInt8)
  | sub (x y : Reg)
  | xor (x y : Reg)
  | or (x y : Reg)
  | skipNe (x y : Reg)
  | skipNeByte (x : Reg) (k : UInt8)
  | jump (address : UInt16)
  | call (address : UInt16)
  | ret
  /-- Concerns the screen or the debugger only. -/
  | outside
deriving DecidableEq, Repr

inductive OperandFault where
  | expectedRegister (operand : String)
  | badRegister
  | badNumber (operand : String) (cause : NumeralError)
  | unknownLabel (label : String)
  | unsupported
deriving DecidableEq, Repr

namespace OperandFault

def message : OperandFault → String
  | expectedRegister operand => "expected register, got " ++ operand
  | badRegister => NumeralError.invalidDigit.message
  | badNumber operand cause => "bad immediate " ++ operand ++ ": " ++ cause.message
  | unknownLabel label => "unknown label " ++ label
  | unsupported => "unsupported instruction"

end OperandFault

abbrev Labels := Bindings UInt16

/-- The letter `v` and one character of one byte. -/
def looksLikeRegister (operand : String) : Bool :=
  match operand.toList with
  | ['v', c] => c.utf8Size = 1
  | _ => false

def readRegister (operand : String) : Except OperandFault Reg :=
  match operand.toList with
  | ['v', c] =>
    if c.utf8Size = 1 then
      match Numeral.digit? 16 c with
      | some n => .ok (.ofDigit n)
      | none => .error .badRegister
    else .error (.expectedRegister operand)
  | _ => .error (.expectedRegister operand)

/-- A byte, in base sixteen after `0x`. -/
def readByte (operand : String) : Except OperandFault UInt8 :=
  let value :=
    match operand.toList with
    | '0' :: 'x' :: digits => Numeral.read 16 255 digits
    | digits => Numeral.read 10 255 digits
  match value with
  | .ok n => .ok (UInt8.ofNat n)
  | .error cause => .error (.badNumber operand cause)

/-- What stands between brackets, if the operand is bracketed. -/
def bracketed? (operand : String) : Option String :=
  match operand.toList with
  | '[' :: rest => if rest.getLast? = some ']' then some (String.ofList rest.dropLast) else none
  | _ => none

/-- A label between brackets, or a byte. -/
def readAddress (labels : Labels) (operand : String) : Except OperandFault UInt16 :=
  match bracketed? operand with
  | some label =>
    match labels.get? label with
    | some address => .ok address
    | none => .error (.unknownLabel label)
  | none => (readByte operand).map (·.toUInt16)

inductive Operand where
  | reg (y : Reg)
  | byte (k : UInt8)

namespace Operand

def op (o : Operand) (ofReg : Reg → Op) (ofByte : UInt8 → Op) : Op :=
  match o with
  | reg y => ofReg y
  | byte k => ofByte k

end Operand

def readOperand (operand : String) : Except OperandFault Operand :=
  if looksLikeRegister operand then (readRegister operand).map .reg
  else (readByte operand).map .byte

def readTwo (op : Reg → Reg → Op) (x y : String) : Except OperandFault Op := do
  let x ← readRegister x
  let y ← readRegister y
  return op x y

/-- Reads an instruction; where both operands are wrong, the fault is that of the one read
first. -/
def decode (labels : Labels) (s : Statement) : Except OperandFault Op :=
  match s.mnemonic, s.operands with
  | "ld", ["I", target] => (readAddress labels target).map .index
  | "ld", ["[I]", x] => (readRegister x).map .save
  | "ld", ["B", x] => (readRegister x).map .decimal
  | "ld", ["F", x] => (readRegister x).map .glyph
  | "ld", [x, "[I]"] => (readRegister x).map .load
  | "ld", [x, y] => do
    -- the value is read first, then the register that takes it
    let y ← readOperand y
    let x ← readRegister x
    return y.op (.copy x) (.set x)
  | "add", ["I", x] => (readRegister x).map .addIndex
  | "add", [x, y] => do
    let x ← readRegister x
    let y ← readOperand y
    return y.op (.add x) (.addByte x)
  | "sub", [x, y] => readTwo .sub x y
  | "xor", [x, y] => readTwo .xor x y
  | "or", [x, y] => readTwo .or x y
  | "sne", [x, y] => do
    let x ← readRegister x
    let y ← readOperand y
    return y.op (.skipNe x) (.skipNeByte x)
  | "jp", [target] => (readAddress labels target).map .jump
  | "call", [target] => (readAddress labels target).map .call
  | "ret", [] => .ok .ret
  | "cls", [] | "break", [] | "drw", [_, _, _] => .ok .outside
  | _, _ => .error .unsupported

end ChipPascal.Machine
