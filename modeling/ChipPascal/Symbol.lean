/-!
# Types and symbols

The two value types, what is known about a declared name, and the names that need no declaration.
-/

namespace ChipPascal

/-- An `integer` is one byte, a `long` two bytes with the low one first. -/
inductive ValueType where
  | integer
  | long
deriving DecidableEq, Repr

namespace ValueType

def keyword : ValueType → String
  | integer => "integer"
  | long => "long"

def ofKeyword? : String → Option ValueType
  | "integer" => some integer
  | "long" => some long
  | _ => none

def size : ValueType → UInt8
  | integer => 1
  | long => 2

def isWide : ValueType → Bool
  | integer => false
  | long => true

end ValueType

/-- Where a variable lives: in a register, in the frame of its procedure, or at a label of its
own. -/
inductive Storage where
  | register (r : UInt8)
  | stack
  | fixed
deriving DecidableEq, Repr

structure VarInfo where
  type : ValueType
  storage : Storage
  isGlobal : Bool
  isConst : Bool
deriving DecidableEq, Repr

namespace VarInfo

/-- What a declaration makes known: globals have fixed places, all other variables live in a frame,
and none in a register. -/
def declared (type : ValueType) (isGlobal isConst : Bool) : VarInfo :=
  ⟨type, if isGlobal then .fixed else .stack, isGlobal, isConst⟩

@[simp] theorem type_declared (type : ValueType) (isGlobal isConst : Bool) :
    (declared type isGlobal isConst).type = type := rfl

@[simp] theorem isGlobal_declared (type : ValueType) (isGlobal isConst : Bool) :
    (declared type isGlobal isConst).isGlobal = isGlobal := rfl

@[simp] theorem isConst_declared (type : ValueType) (isGlobal isConst : Bool) :
    (declared type isGlobal isConst).isConst = isConst := rfl

/-- No variable that is declared is kept in a register. -/
theorem storage_declared_ne (type : ValueType) (isGlobal isConst : Bool) (r : UInt8) :
    (declared type isGlobal isConst).storage ≠ .register r := by
  cases isGlobal <;> simp [declared]

end VarInfo

inductive Symbol where
  | var (info : VarInfo)
  | proc (params : List ValueType)
  | type (type : ValueType)
deriving DecidableEq, Repr

namespace Symbol

def isVar : Symbol → Bool
  | var _ => true
  | _ => false

def isProc : Symbol → Bool
  | proc _ => true
  | _ => false

end Symbol

/-- Procedures that are lowered in place instead of being called. -/
inductive Intrinsic where
  | cls
  | breakpoint
  | makeBcd
  | printBcd
  | printBcdHigh
deriving DecidableEq, Repr

namespace Intrinsic

def all : List Intrinsic := [cls, breakpoint, makeBcd, printBcd, printBcdHigh]

def name : Intrinsic → String
  | cls => "cls"
  | breakpoint => "break"
  | makeBcd => "make_bcd"
  | printBcd => "debug_print_bcd"
  | printBcdHigh => "debug_print_bcd_high"

def ofName? (name : String) : Option Intrinsic := all.find? (·.name = name)

def params : Intrinsic → List ValueType
  | makeBcd => [.long]
  | _ => []

end Intrinsic

/-- A name that every program may use without declaring it. -/
inductive Builtin where
  | type (type : ValueType)
  | intrinsic (intrinsic : Intrinsic)
deriving DecidableEq, Repr

namespace Builtin

def all : List Builtin :=
  [.type .integer, .type .long] ++ Intrinsic.all.map .intrinsic

def name : Builtin → String
  | type t => t.keyword
  | intrinsic i => i.name

def symbol : Builtin → Symbol
  | type t => .type t
  | intrinsic i => .proc i.params

end Builtin

end ChipPascal
