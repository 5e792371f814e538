import ChipPascal.Compiler
import ChipPascal.Text.Numeral

/-!
# Arguments

Arguments are read from the left, and the first one that is wrong decides. An option takes its
value from the same argument, after an equals sign or a short name, or else from the next
argument, unless that is an option itself. After `--` all arguments are plain.
-/

namespace ChipPascal.CommandLine

inductive Flag where
  | output
  | stackSize
  | json
  | check
  | help
  | version
deriving DecidableEq, Repr

namespace Flag

def all : List Flag := [output, stackSize, json, check, help, version]

def name : Flag → String
  | output => "output"
  | stackSize => "stack-size"
  | json => "json"
  | check => "check"
  | help => "help"
  | version => "version"

def letter? : Flag → Option Char
  | output => some 'o'
  | help => some 'h'
  | version => some 'V'
  | _ => none

def takesValue : Flag → Bool
  | output | stackSize => true
  | _ => false

end Flag

inductive UsageError where
  | unknownFlag (text : String)
  | missingValue (flag : Flag)
  | unexpectedValue (flag : Flag)
  | repeated (flag : Flag)
  | emptyValue
  | badNumber (text : String) (cause : NumeralError)
  | tooManyFiles (text : String)
deriving DecidableEq, Repr

namespace UsageError

def message : UsageError → String
  | unknownFlag text => "unexpected argument '" ++ text ++ "' found"
  | missingValue flag => "a value is required for '--" ++ flag.name ++ "' but none was supplied"
  | unexpectedValue flag => "no value is expected for '--" ++ flag.name ++ "'"
  | repeated flag => "the argument '--" ++ flag.name ++ "' cannot be used multiple times"
  | emptyValue => "a value is required but none was supplied"
  | badNumber text cause =>
    "invalid value '" ++ text ++ "' for '--" ++ Flag.stackSize.name ++ "': " ++ cause.message
  | tooManyFiles text => "unexpected argument '" ++ text ++ "' found"

end UsageError

inductive Word where
  | plain (text : String)
  | flag (flag : Flag) (attached : Option String)
  | endOfFlags
  | unknown
deriving DecidableEq, Repr

namespace Word

/-- A long name, with or without an attached value. -/
def ofLong (cs : List Char) : Word :=
  match Flag.all.find? (·.name.toList = cs.takeWhile (· ≠ '=')) with
  | none => unknown
  | some f =>
    flag f (match cs.dropWhile (· ≠ '=') with
      | [] => none
      | _ :: value => some (String.ofList value))

def attached? : List Char → Option String
  | [] => none
  | '=' :: value => some (String.ofList value)
  | value => some (String.ofList value)

/-- A short name. What follows one that takes no value does not count: such a name ends the
reading. -/
def ofShort (c : Char) (cs : List Char) : Word :=
  match Flag.all.find? (·.letter? = some c) with
  | none => unknown
  | some f => flag f (if f.takesValue then attached? cs else none)

def ofString (argument : String) : Word :=
  match argument.toList with
  | ['-', '-'] => endOfFlags
  | '-' :: '-' :: cs => ofLong cs
  | '-' :: c :: cs => ofShort c cs
  | _ => plain argument

end Word

structure Arguments where
  input? : Option String
  output? : Option String
  stackWords? : Option Nat
  json : Bool
  check : Bool
deriving DecidableEq, Repr

inductive Request where
  | help
  | version
  | compile (arguments : Arguments)
deriving DecidableEq, Repr

namespace Arguments

def none : Arguments := ⟨.none, .none, .none, false, false⟩

def output (a : Arguments) : String := a.output?.getD "out.asm"

def options (a : Arguments) : CompileOptions where
  stackWords := a.stackWords?.getD CompileOptions.default.stackWords
  checkOnly := a.check

def setInput (a : Arguments) (text : String) : Except UsageError Arguments :=
  if a.input?.isSome then .error (.tooManyFiles text)
  else if text = "" then .error .emptyValue
  else .ok { a with input? := some text }

/-- The largest number of words that can be asked for. -/
def maxStackWords : Nat := 0xFFFFFFFFFFFFFFFF

def setValue (a : Arguments) (flag : Flag) (text : String) : Except UsageError Arguments :=
  match flag with
  | .output =>
    if a.output?.isSome then .error (.repeated flag)
    else if text = "" then .error .emptyValue
    else .ok { a with output? := some text }
  | .stackSize =>
    if a.stackWords?.isSome then .error (.repeated flag)
    else
      match Numeral.read 10 maxStackWords text.toList with
      | .error cause => .error (.badNumber text cause)
      | .ok n => .ok { a with stackWords? := some n }
  | .json | .check | .help | .version => .error (.unexpectedValue flag)

def setSwitch (a : Arguments) (flag : Flag) : Except UsageError Arguments :=
  match flag with
  | .json => if a.json then .error (.repeated flag) else .ok { a with json := true }
  | .check => if a.check then .error (.repeated flag) else .ok { a with check := true }
  | .output | .stackSize | .help | .version => .error (.missingValue flag)

def readPlain (a : Arguments) : List String → Except UsageError Arguments
  | [] => .ok a
  | text :: rest => do
    let a ← a.setInput text
    a.readPlain rest

end Arguments

namespace Request

/-- Reads on after the arguments that `a` came from. -/
def readFrom (a : Arguments) : List String → Except UsageError Request
  | [] => .ok (.compile a)
  | argument :: rest =>
    match Word.ofString argument with
    | .endOfFlags => (a.readPlain rest).map .compile
    | .unknown => .error (.unknownFlag argument)
    | .plain text =>
      match a.setInput text with
      | .error e => .error e
      | .ok a => readFrom a rest
    | .flag .help none => .ok .help
    | .flag .version none => .ok .version
    | .flag flag (some value) =>
      match a.setValue flag value with
      | .error e => .error e
      | .ok a => readFrom a rest
    | .flag flag none =>
      if flag.takesValue then
        match rest with
        | [] => .error (.missingValue flag)
        | next :: rest =>
          match Word.ofString next with
          | .plain value =>
            match a.setValue flag value with
            | .error e => .error e
            | .ok a => readFrom a rest
          | _ => .error (.missingValue flag)
      else
        match a.setSwitch flag with
        | .error e => .error e
        | .ok a => readFrom a rest

def read (arguments : List String) : Except UsageError Request := readFrom .none arguments

end Request

end ChipPascal.CommandLine
