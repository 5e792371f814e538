/-!
# Frame layouts

A block lists the slots of a frame in the order in which they were declared. An offset is the
distance of a slot from the frame base; it is added to a byte register and wraps as that does.

The base register may be left pointing at the slot used last. Each block therefore keeps the
displacement in force (`last`), and `offsetFromLast?` says by how much to change it.
-/

namespace ChipPascal

structure Slot where
  name : String
  size : UInt8
deriving DecidableEq, Repr

namespace Slot

/-- The bytes before the first slot called `name`. -/
def offset? (name : String) : List Slot → Option UInt8
  | [] => none
  | slot :: slots =>
    if slot.name = name then some 0 else (offset? name slots).map (slot.size + ·)

def total : List Slot → Nat
  | [] => 0
  | slot :: slots => slot.size.toNat + total slots

end Slot

structure FrameBlock where
  enclosing : Option Nat
  slots : List Slot
  last : UInt8

structure Frames where
  table : Array FrameBlock
  active : Nat

namespace Frames

def empty : Frames := ⟨#[⟨none, [], 0⟩], 0⟩

/-- Adds a block inside block `parent`, without entering it; its place is the old table's size. -/
def child (f : Frames) (parent : Nat) : Frames :=
  { f with table := f.table.push ⟨some parent, [], 0⟩ }

def enter (f : Frames) (block : Nat) : Frames := { f with active := block }

def openLocal (f : Frames) : Frames := (f.child 0).enter f.table.size

def slotsAt (f : Frames) (i : Nat) : List Slot :=
  match f.table[i]? with
  | some block => block.slots
  | none => []

def push (f : Frames) (name : String) (size : UInt8) : Frames :=
  { f with
    table := f.table.modify f.active fun block =>
      { block with slots := block.slots ++ [⟨name, size⟩] } }

def size (f : Frames) : Nat := Slot.total (f.slotsAt f.active)

/-- The offset of `name` from the base of block `i`. A slot of an enclosing block lies below the
saved base, which takes one byte. -/
def offsetFrom? (f : Frames) (name : String) (i : Nat) : Option UInt8 :=
  match f.table[i]? with
  | none => none
  | some block =>
    match Slot.offset? name block.slots with
    | some offset => some offset
    | none =>
      match block.enclosing with
      | none => none
      | some j =>
        if j < i then
          (f.offsetFrom? name j).map fun outer =>
            outer - UInt8.ofNat (Slot.total (f.slotsAt j)) - 1
        else none

def offset? (f : Frames) (name : String) : Option UInt8 := f.offsetFrom? name f.active

/-- The displacement of the base register in the active block. -/
def last (f : Frames) : UInt8 :=
  match f.table[f.active]? with
  | some block => block.last
  | none => 0

def setLast (f : Frames) (i : Nat) (offset : UInt8) : Frames :=
  { f with table := f.table.modify i fun block => { block with last := offset } }

/-- What to add to the displaced base to reach `name`, and the layout with that displacement. -/
def offsetFromLast? (f : Frames) (name : String) : Option (UInt8 × Frames) :=
  (f.offset? name).map fun offset => (offset - f.last, f.setLast f.active offset)

/-- Forgets the displacements of block `i` and of all that enclose it. -/
def settleFrom (f : Frames) (i : Nat) : Frames :=
  match f.table[i]? with
  | none => f
  | some block =>
    match block.enclosing with
    | none => f.setLast i 0
    | some j => if j < i then (f.setLast i 0).settleFrom j else f.setLast i 0

def settle (f : Frames) : Frames := f.settleFrom f.active

end Frames

end ChipPascal
