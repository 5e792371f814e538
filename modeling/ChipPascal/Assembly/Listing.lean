import ChipPascal.Assembly.Register

/-!
# Listings

The instructions that compiled code consists of, the labels that it refers to, and the lines of a
listing with their text.
-/

namespace ChipPascal

/-- A place in the listing that instructions refer to. -/
inductive Label where
  | entry
  | finish
  | global (name : String)
  | procedure (name : String)
  | elseBranch (n : Nat)
  | endBranch (n : Nat)
  | bcdLow
  | bcdHigh
  | stackZone
deriving DecidableEq, Repr

namespace Label

def text : Label → String
  | entry => "__start__main"
  | finish => "__end__main"
  | global name => "var_" ++ name
  | procedure name => "proc_" ++ name
  | elseBranch n => "__if_else_" ++ toString n
  | endBranch n => "__if_end_" ++ toString n
  | bcdLow => "BCD_ZONE_LOW"
  | bcdHigh => "BCD_ZONE_HIGH"
  | stackZone => "STACK_ZONE"

def bracketed (l : Label) : String := "[" ++ l.text ++ "]"

end Label

/-- An instruction. `I` is the index register, through which memory is reached. -/
inductive Instr where
  /-- `vX := k` -/
  | set (x : Reg) (k : UInt8)
  /-- `vX := vY` -/
  | copy (x y : Reg)
  /-- `I := k` -/
  | indexByte (k : UInt8)
  /-- `I := l` -/
  | index (l : Label)
  /-- Writes `v0` to `vX` to memory from `I` on. -/
  | save (x : Reg)
  /-- Reads `v0` to `vX` from memory from `I` on. -/
  | load (x : Reg)
  /-- Writes the three decimal digits of `vX` to memory from `I` on. -/
  | decimal (x : Reg)
  /-- Points `I` at the picture of the digit in `vX`. -/
  | glyph (x : Reg)
  /-- `I := I + vX` -/
  | addIndex (x : Reg)
  /-- `vX := vX + vY`, the carry in `vF` -/
  | add (x y : Reg)
  /-- `vX := vX + k` -/
  | addByte (x : Reg) (k : UInt8)
  /-- `vX := vX - vY`, one in `vF` unless it borrows -/
  | sub (x y : Reg)
  /-- Exclusive or, bit by bit. -/
  | xor (x y : Reg)
  /-- Inclusive or, bit by bit. -/
  | or (x y : Reg)
  /-- Skips the next instruction unless `vX = k`. -/
  | skipNe (x : Reg) (k : UInt8)
  | jump (l : Label)
  | call (l : Label)
  | ret
  | cls
  | breakpoint
  | draw (x y : Reg) (rows : UInt8)
deriving DecidableEq, Repr

def immediate (k : UInt8) : String := "0x" ++ padLeft '0' 2 (hexUpper k.toNat)

namespace Instr

def mnemonic : Instr → String
  | set .. | copy .. | indexByte _ | index _ | save _ | load _ | decimal _ | glyph _ => "ld"
  | addIndex _ | add .. | addByte .. => "add"
  | sub .. => "sub"
  | xor .. => "xor"
  | or .. => "or"
  | skipNe .. => "sne"
  | jump _ => "jp"
  | call _ => "call"
  | ret => "ret"
  | cls => "cls"
  | breakpoint => "break"
  | draw .. => "drw"

def operands : Instr → List String
  | set x k => [x.text, immediate k]
  | copy x y => [x.text, y.text]
  | indexByte k => ["I", toString k.toNat]
  | index l => ["I", l.bracketed]
  | save x => ["[I]", x.text]
  | load x => [x.text, "[I]"]
  | decimal x => ["B", x.text]
  | glyph x => ["F", x.text]
  | addIndex x => ["I", x.text]
  | add x y => [x.text, y.text]
  | addByte x k => [x.text, immediate k]
  | sub x y => [x.text, y.text]
  | xor x y => [x.text, y.text]
  | or x y => [x.text, y.text]
  | skipNe x k => [x.text, immediate k]
  | jump l => [l.bracketed]
  | call l => [l.bracketed]
  | ret | cls | breakpoint => []
  | draw x y rows => [x.text, y.text, toString rows.toNat]

def text (i : Instr) : String :=
  if i.operands.isEmpty then i.mnemonic
  else i.mnemonic ++ " " ++ String.intercalate ", " i.operands

end Instr

inductive Line where
  | blank
  | remark (text : String)
  | label (label : Label)
  | instr (instr : Instr) (note : Option String)
  /-- A data word. -/
  | word
deriving DecidableEq, Repr

namespace Line

/-- The column in which the note on an instruction starts. -/
def noteColumn : Nat := 24

def text : Line → String
  | blank => ""
  | remark text => ";; " ++ text
  | label l => l.text ++ ":"
  | instr i none => i.text
  | instr i (some note) => padRight noteColumn i.text ++ "; " ++ note
  | word => "    dw 0"

def plain (i : Instr) : Line := .instr i none

def noted (i : Instr) (note : String) : Line := .instr i (some note)

end Line

def listingText (lines : List Line) : String := String.join (lines.map (·.text ++ "\n"))

end ChipPascal
