import ChipPascal.Lowering.Stmt

/-!
# Lowering programs

A listing has the register setup, the procedures, the main body, which ends by jumping to itself,
and the data: one word for each global, two zones for decimal digits, and the stack zone.
-/

namespace ChipPascal.Lowering

open Lower Line

/-- The largest frame that the byte-sized stack pointer can span. -/
def maxFrame : Nat := 255

/-- Saves the base, makes the frame and points the base at it. -/
def enterFrame (size : UInt8) : List Line :=
  [noted (.index .stackZone) "block start", plain (.addIndex .stack),
    plain (.copy .loadLow .base), plain (.save .loadLow), plain (.addByte .stack 1),
    plain (.copy .base .stack)]
    ++ (if size = 0 then [] else [plain (.addByte .stack size)])
    ++ [blank]

/-- Drops the frame and takes the saved base back. -/
def leaveFrame : List Line :=
  [noted (.copy .stack .base) "block end", plain (.addByte .stack 0xFF),
    plain (.index .stackZone), plain (.addIndex .stack), plain (.load .loadLow),
    plain (.copy .base .loadLow)]

/-- A body between the making and the dropping of its frame. A frame that is too large is
reported, and the body is left out. -/
def lowerBody (name : Ident) (body : Block) : Lower Fault Unit := do
  let size := (← state).frames.size
  if maxFrame < size then
    update fun s => { s with errors := s.errors ++ [.frameTooLarge name.name size name.span] }
  else
    emit (enterFrame (UInt8.ofNat size))
    lowerStmts body.stmts
    settle
    emit leaveFrame

/-- A global gets a data word, any other variable a slot in the frame. -/
def lowerVar (decl : VarDecl) : Lower Fault Unit := do
  match decl.valueType with
  | .error fault => stop fault
  | .ok type =>
    update fun s =>
      if s.symbols.isGlobal then
        { s with
          symbols := s.symbols.bindVar decl type
          globals := s.globals ++ [decl.name.name] }
      else
        { s with
          symbols := s.symbols.bindVar decl type
          frames := s.frames.push decl.name.name type.size }

def lowerVars : List VarDecl → Lower Fault Unit
  | [] => return
  | decl :: decls => do
    lowerVar decl
    lowerVars decls

def lowerProc (proc : ProcDecl) : Lower Fault Unit := do
  match valueTypes proc.params with
  | .error fault => stop fault
  | .ok params =>
    update fun s => { s with symbols := s.symbols.define proc.name.name (.proc params) }
    inScope
      (do
        lowerVars proc.vars
        emit [.label (.procedure proc.name.name)]
        lowerBody proc.name proc.body)
      [plain .ret, blank]

def lowerDecl : Decl → Lower Fault Unit
  | .var decl => lowerVar decl
  | .proc proc => lowerProc proc

def lowerDecls : List Decl → Lower Fault Unit
  | [] => return
  | decl :: decls => do
    lowerDecl decl
    lowerDecls decls

def preamble (name : String) : List Line :=
  [.remark name, .remark "CHIP-8 listing"]
    ++ Reg.all.map (fun x => .remark x.explained)
    ++ [blank]
    ++ Reg.all.map (fun x => plain (.set x x.initial))
    ++ [plain (.indexByte 0), plain (.jump .entry), blank]

def dataSection (globals : List String) (stackWords : Nat) : List Line :=
  [.remark "global vars"]
    ++ globals.flatMap (fun name => [.label (.global name), .word])
    ++ [blank]
    ++ [.label .bcdLow, .word, .word, blank]
    ++ [.label .bcdHigh, .word, .word, blank]
    ++ .label .stackZone :: List.replicate stackWords .word

/-- Writes the data words of the globals declared since the last time. -/
def lowerData (stackWords : Nat) : Lower Fault Unit := do
  let globals := (← state).globals
  update fun s => { s with globals := [] }
  emit (dataSection globals stackWords)

def lowerProgram (stackWords : Nat) (program : Program) : Lower Fault Unit := do
  emit (preamble program.name.name)
  lowerDecls program.decls
  emit [.label .entry]
  lowerStmts program.body.stmts
  settle
  emit [blank, .label .finish, plain (.jump .finish), blank]
  lowerData stackWords

end Lowering

open Lowering

/-- The listing of a program, lowered after all that `s` has gathered before. -/
def lowerFrom (s : State) (stackWords : Nat) (program : Program) :
    Except Fault (List Line) × State :=
  let r := lowerProgram stackWords program s
  (r.value.map fun _ => r.lines, r.state)

end ChipPascal
