import ChipPascal.Machine.Operation
import ChipPascal.Text.Blank
import ChipPascal.Text.Split

/-!
# Assembling a listing

A line of a listing is empty, a label, a data word or an instruction; what follows a semicolon is
a comment. Instructions and data words take two bytes each, from the origin on, and a label stands
for the address of what comes after it. Of two labels of one name the later one counts.
-/

namespace ChipPascal.Machine

/-- A line that means something. -/
inductive Item where
  | label (name : String)
  | word
  | code (statement : Statement)
deriving DecidableEq, Repr

/-- Reads a mnemonic, ended by the first blank, and operands between commas. -/
def readStatement (line : List Char) : Statement :=
  let operands := splitAtChar ',' ((line.dropWhile (· ≠ ' ')).drop 1)
  ⟨String.ofList (line.takeWhile (· ≠ ' ')),
    (operands.map fun operand => String.ofList (trim operand)).filter (· ≠ "")⟩

def readItem? (line : List Char) : Option Item :=
  let line := trim (line.takeWhile (· ≠ ';'))
  if line = [] then none
  else if line.getLast? = some ':' then some (.label (String.ofList (trim line.dropLast)))
  else if ['d', 'w'].isPrefixOf line then some .word
  else some (.code (readStatement line))

def readItems (listing : String) : List Item :=
  (splitLines listing.toList).filterMap readItem?

/-- The address of the first instruction. -/
def origin : Nat := 0x200

def cellAddress (k : Nat) : Nat := origin + 2 * k

/-- The labels among `items`, the first of which is cell `k`; the last label comes first. -/
def placeLabels (k : Nat) (labels : Labels) : List Item → Labels
  | [] => labels
  | .label name :: items =>
    placeLabels k ((name, UInt16.ofNat (cellAddress k)) :: labels) items
  | .word :: items => placeLabels (k + 1) labels items
  | .code _ :: items => placeLabels (k + 1) labels items

inductive Cell where
  | word
  | code (statement : Statement) (op : Except OperandFault Op)

def cell? (labels : Labels) : Item → Option Cell
  | .label _ => none
  | .word => some .word
  | .code statement => some (.code statement (decode labels statement))

structure Image where
  cells : Array Cell
  labels : Labels

/-- Assembles a listing, unless its addresses do not fit sixteen bits. -/
def assemble? (listing : String) : Option Image :=
  let items := readItems listing
  let labels := placeLabels 0 [] items
  let cells := items.filterMap (cell? labels)
  if cellAddress cells.length < 0x10000 then some ⟨cells.toArray, labels⟩ else none

def Image.fetch? (image : Image) (address : UInt16) : Option Cell :=
  if origin ≤ address.toNat ∧ address.toNat % 2 = 0 then
    image.cells[(address.toNat - origin) / 2]?
  else none

end ChipPascal.Machine
