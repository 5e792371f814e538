import ChipPascal.Machine.Image
import ChipPascal.Text.Quoted

/-!
# Running a listing

The machine carries out one operation at a time and halts when it jumps to where it is. Memory
holds data only: the listing itself is kept apart.
-/

namespace ChipPascal.Machine

def memorySize : Nat := 0x1000

abbrev Memory := Vector UInt8 memorySize

abbrev Registers := Vector UInt8 16

structure State where
  v : Registers
  index : UInt16
  pc : UInt16
  /-- Where to go on after the calls in progress, the innermost first. -/
  calls : List UInt16
  memory : Memory

/-- Registers hold zero, but the one that programs must set up before they rely on it. -/
def initial : State where
  v := (Vector.replicate 16 0).set 0xC 0x5A
  index := 0
  pc := UInt16.ofNat origin
  calls := []
  memory := Vector.replicate memorySize 0

inductive Trap where
  | emptyCallStack
  | outsideMemory
  | addressOverflow
deriving DecidableEq, Repr

inductive Status where
  | running (s : State)
  | halted (s : State)

def writeRegisters (v : Registers) (start : Nat) : Nat → Memory → Memory
  | 0, memory => memory
  | n + 1, memory =>
    (writeRegisters v start n memory).setIfInBounds (start + n) (v[n]?.getD 0)

def readRegisters (memory : Memory) (start : Nat) : Nat → Registers → Registers
  | 0, v => v
  | n + 1, v => (readRegisters memory start n v).setIfInBounds n (memory[start + n]?.getD 0)

def writeDecimal (value : UInt8) (start : Nat) (memory : Memory) : Memory :=
  ((memory.setIfInBounds start (value / 100)).setIfInBounds (start + 1) (value / 10 % 10)
    ).setIfInBounds (start + 2) (value % 10)

namespace State

def next (s : State) : State := { s with pc := s.pc + 2 }

def setReg (s : State) (x : Reg) (value : UInt8) : State := { s with v := s.v.set x value }

def reg (s : State) (x : Reg) : UInt8 := s.v[x]

def skip (s : State) (skips : Bool) : Except Trap Status :=
  if skips then
    if s.pc.toNat + 4 < 0x10000 then .ok (.running { s with pc := s.pc + 4 })
    else .error .addressOverflow
  else .ok (.running s.next)

end State

def execute (op : Op) (s : State) : Except Trap Status :=
  match op with
  | .index address => .ok (.running { s.next with index := address })
  | .save x =>
    if s.index.toNat + x.val < memorySize then
      .ok (.running { s.next with
        memory := writeRegisters s.v s.index.toNat (x.val + 1) s.memory })
    else .error .outsideMemory
  | .load x =>
    if s.index.toNat + x.val < memorySize then
      .ok (.running { s.next with v := readRegisters s.memory s.index.toNat (x.val + 1) s.v })
    else .error .outsideMemory
  | .decimal x =>
    if s.index.toNat + 2 < memorySize then
      .ok (.running { s.next with memory := writeDecimal s.v[x] s.index.toNat s.memory })
    else .error .outsideMemory
  | .glyph x => .ok (.running { s.next with index := s.v[x].toUInt16 * 5 })
  | .set x k => .ok (.running (s.next.setReg x k))
  | .copy x y => .ok (.running (s.next.setReg x s.v[y]))
  | .addIndex x => .ok (.running { s.next with index := s.index + s.v[x].toUInt16 })
  | .add x y =>
    let carry : UInt8 := if 255 < s.v[x].toNat + s.v[y].toNat then 1 else 0
    .ok (.running ((s.next.setReg x (s.v[x] + s.v[y])).setReg .flag carry))
  | .addByte x k => .ok (.running (s.next.setReg x (s.v[x] + k)))
  | .sub x y =>
    let noBorrow : UInt8 := if s.v[y] ≤ s.v[x] then 1 else 0
    .ok (.running ((s.next.setReg x (s.v[x] - s.v[y])).setReg .flag noBorrow))
  | .xor x y => .ok (.running (s.next.setReg x (s.v[x] ^^^ s.v[y])))
  | .or x y => .ok (.running (s.next.setReg x (s.v[x] ||| s.v[y])))
  | .skipNe x y => s.skip (s.v[x] ≠ s.v[y])
  | .skipNeByte x k => s.skip (s.v[x] ≠ k)
  | .jump address =>
    if address = s.pc then .ok (.halted s) else .ok (.running { s with pc := address })
  | .call address =>
    .ok (.running { s with pc := address, calls := (s.pc + 2) :: s.calls })
  | .ret =>
    match s.calls with
    | [] => .error .emptyCallStack
    | back :: calls => .ok (.running { s with pc := back, calls := calls })
  | .outside => .ok (.running s.next)

inductive Fault where
  | listingTooLong
  | noInstruction (pc : UInt16)
  | badInstruction (pc : UInt16) (statement : Statement) (cause : OperandFault)
  | emptyCallStack (pc : UInt16) (statement : Statement)
  | outsideMemory (pc : UInt16)
  | addressOverflow (pc : UInt16)
  | stepLimit
deriving DecidableEq, Repr

def Trap.fault (trap : Trap) (pc : UInt16) (statement : Statement) : Fault :=
  match trap with
  | .emptyCallStack => .emptyCallStack pc statement
  | .outsideMemory => .outsideMemory pc
  | .addressOverflow => .addressOverflow pc

def step (image : Image) (s : State) : Except Fault Status :=
  match image.fetch? s.pc with
  | some (.code statement (.ok op)) => (execute op s).mapError (·.fault s.pc statement)
  | some (.code statement (.error cause)) => .error (.badInstruction s.pc statement cause)
  | some .word | none => .error (.noInstruction s.pc)

/-- Steps until the machine halts, at most `limit` times. -/
def runFor (image : Image) : Nat → State → Except Fault State
  | 0, _ => .error .stepLimit
  | limit + 1, s =>
    match step image s with
    | .error fault => .error fault
    | .ok (.halted s) => .ok s
    | .ok (.running s) => runFor image limit s

/-- The number of steps after which a run is given up. -/
def stepLimit : Nat := 100000

def run (listing : String) : Except Fault (Image × State) :=
  match assemble? listing with
  | none => .error .listingTooLong
  | some image => (runFor image stepLimit initial).map fun s => (image, s)

/-! ### Messages -/

def addressText (address : UInt16) : String := "0x" ++ padLeft '0' 3 (hexLower address.toNat)

def Statement.text (s : Statement) : String :=
  "Inst \x7b mnemonic: " ++ Quoted.text s.mnemonic ++ ", operands: " ++ Quoted.list s.operands
    ++ " \x7d"

namespace Fault

def instructionText (pc : UInt16) (statement : Statement) : String :=
  "at " ++ addressText pc ++ ": " ++ statement.text ++ ": "

def message : Fault → String
  | listingTooLong => "listing does not fit the address space"
  | noInstruction pc => "no instruction at " ++ addressText pc
  | badInstruction pc statement cause => instructionText pc statement ++ cause.message
  | emptyCallStack pc statement => instructionText pc statement ++ "ret with empty call stack"
  | outsideMemory pc => "access outside memory at " ++ addressText pc
  | addressOverflow pc => "address overflow at " ++ addressText pc
  | stepLimit => "step limit exceeded"

/-- Whether the machine broke down, rather than finding fault with the listing. -/
def isBreakdown : Fault → Bool
  | listingTooLong | outsideMemory _ | addressOverflow _ => true
  | _ => false

end Fault

end ChipPascal.Machine
