import ChipPascal.Text.Hex

/-!
# Registers

The sixteen byte registers and the parts that compiled code gives them.
-/

namespace ChipPascal

abbrev Reg := Fin 16

namespace Reg

/-- Receives what is loaded from memory, low half. -/
def loadLow : Reg := 0x0

def loadHigh : Reg := 0x1

/-- Holds the value of an expression, low half. -/
def accLow : Reg := 0x2

def accHigh : Reg := 0x3

/-- Holds 0xFF, with which bytes are complemented. -/
def ones : Reg := 0xC

/-- Holds the frame base, displaced while a body runs. -/
def base : Reg := 0xD

/-- Holds the stack pointer, counted from the start of the stack zone. -/
def stack : Reg := 0xE

/-- Set by additions that carry and by subtractions that do not borrow. -/
def flag : Reg := 0xF

def all : List Reg := List.finRange 16

def ofDigit (n : Nat) : Reg := Fin.ofNat 16 n

def text (x : Reg) : String := "v" ++ hexUpper x.val

/-- The register up to which a block transfer of `size` bytes goes. -/
def bulk (size : UInt8) : Reg := if 1 < size then loadHigh else loadLow

def role? (x : Reg) : Option String :=
  if x = loadLow then some "memory load, low half"
  else if x = loadHigh then some "memory load, high half"
  else if x = accLow then some "accumulator, low half"
  else if x = accHigh then some "accumulator, high half"
  else if x = ones then some "0xFF for negation"
  else if x = base then some "frame base"
  else if x = stack then some "stack pointer"
  else if x = flag then some "arithmetic flag"
  else none

/-- The value with which a program starts. -/
def initial (x : Reg) : UInt8 := if x = ones then 0xFF else 0

def explained (x : Reg) : String := x.text ++ " - " ++ x.role?.getD "free"

end Reg

end ChipPascal
