import ChipPascal.Assembly.Listing
import ChipPascal.Frames
import ChipPascal.Symbols

/-!
# Lowering steps

A lowering step writes lines, changes the state and gives a value or stops. The lines of two steps
one after the other are those of the first, then those of the second; a step that stops keeps the
lines it has written.
-/

namespace ChipPascal.Lowering

structure State where
  symbols : Symbols
  frames : Frames
  /-- Globals whose data words are still to be written, in the order of their declaration. -/
  globals : List String
  /-- The number of branches so far. -/
  branches : Nat
  /-- Errors in the order in which they came up. -/
  errors : List Error

namespace State

def initial : State := ⟨.ofBuiltins, .empty, [], 0, []⟩

end State

inductive Stop where
  | user (error : Error)
  | fault (fault : Fault)

structure Result (ε α : Type) where
  lines : List Line
  state : State
  value : Except ε α

end Lowering

/-- A lowering step that may stop with an `ε`. -/
def Lower (ε α : Type) : Type := Lowering.State → Lowering.Result ε α

namespace Lower

open Lowering

variable {ε α β : Type}

def pure (a : α) : Lower ε α := fun s => ⟨[], s, .ok a⟩

def bind (x : Lower ε α) (f : α → Lower ε β) : Lower ε β := fun s =>
  let r := x s
  match r.value with
  | .error e => ⟨r.lines, r.state, .error e⟩
  | .ok a =>
    let r' := f a r.state
    ⟨r.lines ++ r'.lines, r'.state, r'.value⟩

instance : Monad (Lower ε) where
  pure := Lower.pure
  bind := Lower.bind

def emit (lines : List Line) : Lower ε Unit := fun s => ⟨lines, s, .ok ()⟩

def stop (e : ε) : Lower ε α := fun s => ⟨[], s, .error e⟩

def state : Lower ε State := fun s => ⟨[], s, .ok s⟩

def update (f : State → State) : Lower ε Unit := fun s => ⟨[], f s, .ok ()⟩

/-- A step that can only fault, among steps that may also meet mistakes. -/
def lift (x : Lower Fault α) : Lower Stop α := fun s =>
  let r := x s
  ⟨r.lines, r.state, r.value.mapError .fault⟩

instance : MonadLift (Lower Fault) (Lower Stop) := ⟨Lower.lift⟩

/-- Runs a step; a mistake of the user gives it up and is recorded. -/
def attempt (x : Lower Stop Unit) : Lower Fault Unit := fun s =>
  let r := x s
  match r.value with
  | .ok () => ⟨r.lines, r.state, .ok ()⟩
  | .error (.user e) => ⟨r.lines, { r.state with errors := r.state.errors ++ [e] }, .ok ()⟩
  | .error (.fault f) => ⟨r.lines, r.state, .error f⟩

/-- Runs a step in a scope and a frame block of its own. Whether or not it stops, it is followed
by `after`, and the old scope and block are active again. -/
def inScope (x : Lower ε Unit) (after : List Line) : Lower ε Unit := fun s =>
  let r := x { s with symbols := s.symbols.openLocal, frames := s.frames.openLocal }
  ⟨r.lines ++ after,
    { r.state with
      symbols := r.state.symbols.enter s.symbols.active
      frames := r.state.frames.enter s.frames.active },
    r.value⟩

end Lower

end ChipPascal
