import ChipPascal.Check.Kinds
import ChipPascal.Check.Names
import ChipPascal.Check.Usage
import ChipPascal.Diagnostic.Report
import ChipPascal.Lowering.Program
import ChipPascal.Program.Parser

/-!
# Compilation

Reading, three checks and lowering follow each other. Each stage runs to its end, and the next one
only runs if no error has been reported; warnings stop nothing.
-/

namespace ChipPascal

structure CompileOptions where
  /-- The size of the stack zone in words. -/
  stackWords : Nat
  /-- Stop after the checks. -/
  checkOnly : Bool
deriving DecidableEq, Repr

namespace CompileOptions

def default : CompileOptions := ⟨32, false⟩

end CompileOptions

/-- What compiling a text comes to: the report, and the listing if nothing stood against it. -/
structure Compilation where
  listing : Option (List Line)
  report : Report

namespace Compilation

def succeeded (c : Compilation) : Bool := !c.report.hasErrors

def text? (c : Compilation) : Option String := c.listing.map listingText

end Compilation

def lowerChecked (options : CompileOptions) (program : Program) (report : Report) :
    Except Fault Compilation :=
  match lowerFrom .initial options.stackWords program with
  | (.error fault, _) => .error fault
  | (.ok lines, s) =>
    let report := report.addErrors s.errors
    .ok ⟨if report.hasErrors then none else some lines, report⟩

/-- Checks a program that was read without errors, and lowers it if asked to. -/
def compileProgram (options : CompileOptions) (program : Program) : Except Fault Compilation :=
  let report := Report.empty.addErrors (nameErrors program)
  if report.hasErrors then .ok ⟨none, report⟩
  else
    match checkKinds program with
    | (_, ⟨_, some fault⟩) => .error fault
    | (_, ⟨errors, none⟩) =>
      let report := report.addErrors errors
      if report.hasErrors then .ok ⟨none, report⟩
      else
        match usageWarnings program with
        | (_, some fault) => .error fault
        | (warnings, none) =>
          let report := report.addWarnings warnings
          if options.checkOnly then .ok ⟨none, report⟩ else lowerChecked options program report

def compile (source : String) (options : CompileOptions) : Except Fault Compilation :=
  let (program, errors) := parse source
  if errors.isEmpty then compileProgram options program
  else .ok ⟨none, Report.empty.addErrors errors⟩

end ChipPascal
