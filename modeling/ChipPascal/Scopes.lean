import ChipPascal.Symbol

/-!
# Nested scopes

Scopes stand in a table; each but the first names the scope that encloses it by its place in the
table, which is always an earlier one. One scope is active: names are bound there, and looked up
from there outwards.
-/

namespace ChipPascal

/-- Bindings in the order in which their names were first bound. -/
abbrev Bindings (α : Type) := List (String × α)

namespace Bindings

variable {α : Type}

def get? : Bindings α → String → Option α
  | [], _ => none
  | (key, value) :: rest, name => if key = name then some value else get? rest name

/-- Binds `name`, in the place of its old binding if there is one. -/
def set : Bindings α → String → α → Bindings α
  | [], name, value => [(name, value)]
  | (key, old) :: rest, name, value =>
    if key = name then (key, value) :: rest else (key, old) :: set rest name value

theorem get?_set_self (bs : Bindings α) (name : String) (value : α) :
    (bs.set name value).get? name = some value := by
  induction bs with
  | nil => simp [set, get?]
  | cons b bs ih =>
    obtain ⟨key, old⟩ := b
    by_cases h : key = name <;> simp [set, get?, h, ih]

theorem get?_set_of_ne (bs : Bindings α) {name other : String} (value : α) (h : other ≠ name) :
    (bs.set name value).get? other = bs.get? other := by
  induction bs with
  | nil => simp [set, get?, h.symm]
  | cons b bs ih =>
    obtain ⟨key, old⟩ := b
    by_cases hk : key = name
    · subst hk
      simp [set, get?, h.symm]
    · simp only [set, hk, if_false, get?, ih]

end Bindings

structure Scope (α : Type) where
  enclosing : Option Nat
  bindings : Bindings α

structure Scopes (α : Type) where
  table : Array (Scope α)
  active : Nat

namespace Scopes

variable {α : Type}

def empty : Scopes α := ⟨#[⟨none, []⟩], 0⟩

def isGlobal (s : Scopes α) : Bool := s.active = 0

/-- Adds a scope inside scope `parent`, without entering it; its place is the old table's size. -/
def child (s : Scopes α) (parent : Nat) : Scopes α :=
  { s with table := s.table.push ⟨some parent, []⟩ }

def enter (s : Scopes α) (scope : Nat) : Scopes α := { s with active := scope }

def openLocal (s : Scopes α) : Scopes α := (s.child 0).enter s.table.size

def bindingsAt (s : Scopes α) (i : Nat) : Bindings α :=
  match s.table[i]? with
  | some scope => scope.bindings
  | none => []

def entries (s : Scopes α) : Bindings α := s.bindingsAt s.active

def defineAt (s : Scopes α) (i : Nat) (name : String) (value : α) : Scopes α :=
  { s with
    table := s.table.modify i fun scope =>
      { scope with bindings := scope.bindings.set name value } }

def define (s : Scopes α) (name : String) (value : α) : Scopes α :=
  s.defineAt s.active name value

def getHere? (s : Scopes α) (name : String) : Option α := s.entries.get? name

def bindsHere (s : Scopes α) (name : String) : Bool := (s.getHere? name).isSome

/-- Binds a name in the active scope, and tells whether it was not bound there before. -/
def defineNew (s : Scopes α) (name : String) (value : α) : Bool × Scopes α :=
  (!s.bindsHere name, s.define name value)

/-- The first scope that binds `name` on the way outwards from scope `i`. -/
def ownerFrom? (s : Scopes α) (name : String) (i : Nat) : Option Nat :=
  match s.table[i]? with
  | none => none
  | some scope =>
    if (scope.bindings.get? name).isSome then some i
    else
      match scope.enclosing with
      | none => none
      | some j => if j < i then s.ownerFrom? name j else none

def owner? (s : Scopes α) (name : String) : Option Nat := s.ownerFrom? name s.active

def get? (s : Scopes α) (name : String) : Option α :=
  (s.owner? name).bind fun i => (s.bindingsAt i).get? name

def binds (s : Scopes α) (name : String) : Bool := (s.owner? name).isSome

/-- Overwrites the binding of `name` that is seen from the active scope. -/
def set (s : Scopes α) (name : String) (value : α) : Scopes α :=
  match s.owner? name with
  | some i => s.defineAt i name value
  | none => s

/-- A global scope in which every builtin is bound. -/
def withBuiltins (value : Builtin → α) : Scopes α :=
  Builtin.all.foldl (fun s b => s.define b.name (value b)) empty

end Scopes

end ChipPascal
