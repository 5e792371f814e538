/-!
# Access to files

Reading and writing by name, in any monad: the command line is the same program over the files of
a running system and over a directory that is only a value.
-/

namespace ChipPascal.CommandLine

inductive FileError where
  | notFound
  | permissionDenied
  | notADirectory
  | isADirectory
  | nameTooLong
  | notText
  | system (details : String) (code : Nat)
deriving DecidableEq, Repr

namespace FileError

def systemMessage (details : String) (code : Nat) : String := s!"{details} (os error {code})"

def message : FileError → String
  | notFound => systemMessage "No such file or directory" 2
  | permissionDenied => systemMessage "Permission denied" 13
  | notADirectory => systemMessage "Not a directory" 20
  | isADirectory => systemMessage "Is a directory" 21
  | nameTooLong => systemMessage "File name too long" 36
  | notText => "stream did not contain valid UTF-8"
  | system details code => systemMessage details code

/-- The error that the system gives this number, in its words where it has no name here. -/
def ofCode (details : String) : Nat → FileError
  | 2 => notFound
  | 13 => permissionDenied
  | 20 => notADirectory
  | 21 => isADirectory
  | 36 => nameTooLong
  | code => system details code

end FileError

structure Files (m : Type → Type) where
  read : String → m (Except FileError String)
  write : String → String → m (Except FileError Unit)

end ChipPascal.CommandLine
