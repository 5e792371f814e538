import ChipPascal.Diagnostic
import ChipPascal.Program
import ChipPascal.Scopes

/-!
# Symbols of declarations

How declarations become symbols in a scope. The checks and the lowering both build their symbols
with these.
-/

namespace ChipPascal

abbrev Symbols := Scopes Symbol

def Symbols.ofBuiltins : Symbols := .withBuiltins Builtin.symbol

def VarDecl.valueType (decl : VarDecl) : Except Fault ValueType :=
  match ValueType.ofKeyword? decl.type.name with
  | some type => .ok type
  | none => .error (.unresolvedType decl.type.name)

def valueTypes : List VarDecl → Except Fault (List ValueType)
  | [] => .ok []
  | decl :: decls =>
    match decl.valueType with
    | .error fault => .error fault
    | .ok type => (valueTypes decls).map (type :: ·)

def Symbols.bindVar (syms : Symbols) (decl : VarDecl) (type : ValueType) : Symbols :=
  syms.define decl.name.name (.var (.declared type syms.isGlobal decl.isConst))

end ChipPascal
