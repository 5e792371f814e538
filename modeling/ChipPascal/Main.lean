import ChipPascal.CommandLine.Run

/-!
# The program

The command line over the files of the system.
-/

namespace ChipPascal.CommandLine

/-- The number of an error, which may come with its sign changed. -/
def errorNumber (code : UInt32) : Nat :=
  if code.toNat < 0x80000000 then code.toNat else 0x100000000 - code.toNat

def FileError.ofSystem (e : IO.Error) : FileError :=
  match e with
  | .noFileOrDirectory _ code details | .inappropriateType _ code details
  | .permissionDenied _ code details | .resourceExhausted _ code details
  | .invalidArgument _ code details | .alreadyExists _ code details
  | .otherError code details => .ofCode details (errorNumber code)
  | e => .system (toString e) 0

def readSystemFile (path : String) : IO (Except FileError String) := do
  match ← (IO.FS.readBinFile path).toBaseIO with
  | .error e => return .error (.ofSystem e)
  | .ok bytes =>
    match String.fromUTF8? bytes with
    | some text => return .ok text
    | none => return .error .notText

def writeSystemFile (path text : String) : IO (Except FileError Unit) := do
  match ← (IO.FS.writeFile path text).toBaseIO with
  | .error e => return .error (.ofSystem e)
  | .ok () => return .ok ()

def systemFiles : Files IO := ⟨readSystemFile, writeSystemFile⟩

end ChipPascal.CommandLine

open ChipPascal.CommandLine in
def main (arguments : List String) : IO UInt32 := do
  let outcome ← run systemFiles arguments
  IO.print outcome.stdout
  IO.eprint outcome.stderr
  return UInt32.ofNat outcome.exit
