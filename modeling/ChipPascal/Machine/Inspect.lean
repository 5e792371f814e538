import ChipPascal.Assembly.Listing
import ChipPascal.Machine.Step
import ChipPascal.Program
import ChipPascal.Symbol

/-!
# Looking at the memory of a machine

A label is known to the image, and what stands there is read from the state. There is nothing to
read at a label that the listing does not have, or where the memory ends too early.
-/

namespace ChipPascal.Machine

def State.bytes? (s : State) (start length : Nat) : Option (List UInt8) :=
  if start + length ≤ memorySize then some ((s.memory.toList.drop start).take length) else none

def bytesAt? (image : Image) (s : State) (label : String) (length : Nat) : Option (List UInt8) :=
  (image.labels.get? label).bind fun address => s.bytes? address.toNat length

/-- The word at a label, low byte first. -/
def wordAt? (image : Image) (s : State) (label : String) : Option UInt16 :=
  match bytesAt? image s label 2 with
  | some [low, high] => some (low.toUInt16 + high.toUInt16 * 256)
  | _ => none

def byteAt? (image : Image) (s : State) (label : String) : Option UInt8 :=
  match bytesAt? image s label 1 with
  | some [byte] => some byte
  | _ => none

/-- The value of a global variable. Only a `long` takes up a whole word. -/
def globalValue? (image : Image) (s : State) (decl : VarDecl) : Option Nat :=
  let label := (Label.global decl.name.name).text
  if decl.type.name = ValueType.long.keyword then (wordAt? image s label).map (·.toNat)
  else (byteAt? image s label).map (·.toNat)

end ChipPascal.Machine
