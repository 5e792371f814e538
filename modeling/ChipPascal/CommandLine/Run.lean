import ChipPascal.CommandLine.Arguments
import ChipPascal.CommandLine.Files
import ChipPascal.Diagnostic.Feedback

/-!
# Running the command line

A source file is read and compiled, the report is shown, and then the listing is written if there
is one. The exit code is 0 if all went well, 1 if not, 2 if the arguments make no sense, and 101
if the report cannot be shown.
-/

namespace ChipPascal.CommandLine

structure Outcome where
  exit : Nat
  stdout : String
  stderr : String
deriving DecidableEq, Repr

namespace Outcome

/-- Ends with an error message after `shown`, which went to standard output and error. -/
def failure (message : String) (shown : String × String) : Outcome :=
  ⟨1, shown.1, shown.2 ++ "error: " ++ message ++ "\n"⟩

def unshown : Outcome := ⟨101, "", "error: the report cannot be shown\n"⟩

end Outcome

def versionText : String := "p8c 0.1.0\n"

def helpLines : List String :=
  ["Pascal8 compiler - a small Pascal dialect for the CHIP-8 virtual machine",
    "",
    "Usage: p8c [OPTIONS] [FILE]",
    "",
    "Arguments:",
    "  [FILE]  Input source file",
    "",
    "Options:",
    "  -o, --output <FILE>       Output listing [default: out.asm]",
    "      --stack-size <WORDS>  Size of the stack region in two-byte words [default: 32]",
    "      --json                Print diagnostics as JSON",
    "      --check               Check the source for errors without writing a listing",
    "  -h, --help                Print help",
    "  -V, --version             Print version"]

def helpText : String := String.join (helpLines.map (· ++ "\n"))

def noInputText : String := "no input file specified\nUsage: p8c <FILE> [-o <FILE>]"

/-- What a report puts on standard output and on standard error, if it can be shown. -/
def showReport? (json : Bool) (report : Report) (file source : String) :
    Option (String × String) :=
  if json then some ((report.feedback file source).toJson.pretty ++ "\n", "")
  else
    (report.render? file source).map fun text =>
      ("", text ++ (report.summary?.map (· ++ "\n")).getD "")

variable {m : Type → Type} [Monad m]

def writeListing (files : Files m) (output : String) (c : Compilation) (shown : String × String) :
    m Outcome := do
  let done : Outcome := ⟨if c.succeeded then 0 else 1, shown.1, shown.2⟩
  match c.text? with
  | none => return done
  | some text =>
    match ← files.write output text with
    | .ok () => return done
    | .error e => return .failure ("couldn't write '" ++ output ++ "': " ++ e.message) shown

def runCompile (files : Files m) (a : Arguments) : m Outcome := do
  match a.input? with
  | none => return .failure noInputText ("", "")
  | some input =>
    match ← files.read input with
    | .error e => return .failure ("couldn't open file '" ++ input ++ "': " ++ e.message) ("", "")
    | .ok source =>
      match compile source a.options with
      | .error fault => return .failure fault.toError.message ("", "")
      | .ok c =>
        match showReport? a.json c.report input source with
        | none => return .unshown
        | some shown => writeListing files a.output c shown

def run (files : Files m) (arguments : List String) : m Outcome :=
  match Request.read arguments with
  | .error e => return ⟨2, "", "error: " ++ e.message ++ "\n"⟩
  | .ok .help => return ⟨0, helpText, ""⟩
  | .ok .version => return ⟨0, versionText, ""⟩
  | .ok (.compile a) => runCompile files a

end ChipPascal.CommandLine
