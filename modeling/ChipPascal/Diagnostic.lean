import ChipPascal.Source.Span
import ChipPascal.Text.Hex

/-!
# Diagnostics

What can be said about a source text. An `Error` keeps a listing from being written, a `Warning`
does not. Each has a code, a message and a place; a redefinition also points at what it repeats.

A `Fault` is no statement about the text: it is raised where a later stage meets what an earlier
one should have refused.
-/

namespace ChipPascal

inductive Error where
  | unexpectedToken (expected got : String) (span : Span)
  | illegalCharacter (char : Char) (span : Span)
  | nameUndefined (name : String) (span : Span)
  | nameRedefinition (name : String) (span : Span) (previous : Option Span)
  | assignToConst (name : String) (span : Span)
  | notAVariable (name : String) (span : Span)
  | notAProcedure (name : String) (span : Span)
  | wrongArgumentCount (name : String) (expected got : Nat) (span : Span)
  | unimplementedOperator (op : String) (span : Span)
  | invalidLiteral (text : String) (span : Span)
  | frameTooLarge (name : String) (size : Nat) (span : Span)
  | internal (text : String)
deriving DecidableEq, Repr

namespace Error

def span? : Error → Option Span
  | unexpectedToken _ _ span | illegalCharacter _ span | nameUndefined _ span
  | nameRedefinition _ span _ | assignToConst _ span | notAVariable _ span
  | notAProcedure _ span | wrongArgumentCount _ _ _ span | unimplementedOperator _ span
  | invalidLiteral _ span | frameTooLarge _ _ span => some span
  | internal _ => none

/-- A second place worth showing, with the words that introduce it. -/
def note? : Error → Option (Span × String)
  | nameRedefinition _ _ (some previous) => some (previous, "previous declared here")
  | _ => none

def code : Error → String
  | unexpectedToken .. => "E0001"
  | illegalCharacter .. => "E0002"
  | nameUndefined .. => "E0101"
  | nameRedefinition .. => "E0102"
  | assignToConst .. => "E0201"
  | notAVariable .. => "E0202"
  | notAProcedure .. => "E0203"
  | wrongArgumentCount .. => "E0204"
  | unimplementedOperator .. => "E0205"
  | invalidLiteral .. => "E0206"
  | frameTooLarge .. => "E0301"
  | internal _ => "E0900"

def message : Error → String
  | unexpectedToken expected got _ =>
    "Unexpected token: expected " ++ expected ++ ", got " ++ got
  | illegalCharacter char _ => "Illegal character '" ++ String.singleton char ++ "'"
  | nameUndefined name _ => "Undefined name: " ++ name
  | nameRedefinition name _ _ => "Redefinition of " ++ name
  | assignToConst name _ => "Attempt to assign constant variable " ++ name
  | notAVariable name _ => name ++ " is not a variable"
  | notAProcedure name _ => name ++ " is not a procedure"
  | wrongArgumentCount name expected got _ =>
    s!"Wrong arguments count for {name}: expected {expected}, got {got}"
  | unimplementedOperator op _ => "Operation unimplemented: " ++ op
  | invalidLiteral text _ => "Can't parse literal " ++ text
  | frameTooLarge name size _ => s!"Frame of {name} needs {size} bytes, at most 255 fit"
  | internal text => "Internal compiler error: " ++ text

def isInternal : Error → Bool
  | internal _ => true
  | _ => false

end Error

inductive Warning where
  | uninitializedRead (name : String) (span : Span)
  | unusedVariable (name : String) (span : Span)
  | unusedProcedure (name : String) (span : Span)
deriving DecidableEq, Repr

namespace Warning

def span : Warning → Span
  | uninitializedRead _ span | unusedVariable _ span | unusedProcedure _ span => span

def code : Warning → String
  | uninitializedRead .. => "W0001"
  | unusedVariable .. => "W0002"
  | unusedProcedure .. => "W0003"

def message : Warning → String
  | uninitializedRead name _ => "Variable " ++ name ++ " may be used uninitialized"
  | unusedVariable name _ => "Unused variable " ++ name
  | unusedProcedure name _ => "Procedure " ++ name ++ " is never called"

end Warning

/-- A promise of an earlier stage that turned out to be broken. -/
inductive Fault where
  | nameNotFound (name : String)
  | unresolvedType (name : String)
  | notAVariable (name : String)
  | notAProcedure (name : String)
  | pinned (name : String) (register : UInt8)
  | noFrameSlot (name : String)
  | bcdArguments
deriving DecidableEq, Repr

namespace Fault

def message : Fault → String
  | nameNotFound name => "name not found: " ++ name
  | unresolvedType name => "unresolved type '" ++ name ++ "'"
  | notAVariable name => "'" ++ name ++ "' is not a variable"
  | notAProcedure name => "'" ++ name ++ "' is not a procedure"
  | pinned name register => "'" ++ name ++ "' is pinned to v" ++ hexUpper register.toNat
  | noFrameSlot name => "no frame slot for '" ++ name ++ "'"
  | bcdArguments => "make_bcd takes one argument"

def toError (fault : Fault) : Error := .internal fault.message

end Fault

inductive Diagnostic where
  | error (error : Error)
  | warning (warning : Warning)
deriving DecidableEq, Repr

namespace Diagnostic

def isError : Diagnostic → Bool
  | error _ => true
  | warning _ => false

def error? : Diagnostic → Option Error
  | error e => some e
  | warning _ => none

def warning? : Diagnostic → Option Warning
  | error _ => none
  | warning w => some w

def span? : Diagnostic → Option Span
  | error e => e.span?
  | warning w => some w.span

def code : Diagnostic → String
  | error e => e.code
  | warning w => w.code

def message : Diagnostic → String
  | error e => e.message
  | warning w => w.message

def note? : Diagnostic → Option (Span × String)
  | error e => e.note?
  | warning _ => none

end Diagnostic

end ChipPascal
