import ChipPascal.CommandLine.Files
import ChipPascal.Text.Split

/-!
# A directory as a value

A disk is what can be reached from a working directory. A place on it is the way there: names to
go down by, after as many `..` as the way goes up, or after a `/` if it starts at the root.
-/

namespace ChipPascal.CommandLine

inductive Entry where
  | file (bytes : ByteArray)
  | directory

abbrev Place := List String

/-- The entries that are known, by place. -/
abbrev Disk := List (Place × Entry)

namespace Place

/-- Whether the way only goes up, or stays. -/
def isUpward (place : Place) : Bool := place = ["/"] || place.all (· = "..")

def parent (place : Place) : Place :=
  if place = ["/"] then place
  else if place.isUpward then place ++ [".."]
  else place.dropLast

end Place

/-- A path, cut into names at its slashes. -/
structure Path where
  start : Place
  names : List String
  endsInSlash : Bool
deriving DecidableEq, Repr

namespace Path

/-- The length from which a path is refused, in bytes. -/
def maxLength : Nat := 4096

def ofString (path : String) : Except FileError Path :=
  if maxLength ≤ path.utf8ByteSize then .error .nameTooLong
  else
    .ok
      { start := if path.toList.head? = some '/' then ["/"] else []
        names := ((splitAtChar '/' path.toList).map String.ofList).filter (· ≠ "")
        endsInSlash := path.toList.getLast? = some '/' }

end Path

namespace Disk

/-- What stands at a place. There are directories all the way up, and a directory is also what
something else stands in. -/
def entry? (disk : Disk) (place : Place) : Option Entry :=
  match disk.find? (·.1 = place) with
  | some (_, entry) => some entry
  | none =>
    if place.isUpward || disk.any (fun e => place.isPrefixOf e.1) then some .directory else none

def maxName : Nat := 255

def stepTo (place : Place) (name : String) : Except FileError Place :=
  if name = "." then .ok place
  else if name = ".." then .ok place.parent
  else if maxName < name.utf8ByteSize then .error .nameTooLong
  else .ok (place ++ [name])

/-- Follows names, each but the last of which must lead to a directory. -/
def follow (disk : Disk) (place : Place) : List String → Except FileError Place
  | [] => .ok place
  | name :: names =>
    match disk.entry? place with
    | none => .error .notFound
    | some (.file _) => .error .notADirectory
    | some .directory =>
      match stepTo place name with
      | .error e => .error e
      | .ok place => disk.follow place names

def read (disk : Disk) (path : String) : Except FileError String := do
  let path ← Path.ofString path
  let place ← disk.follow path.start path.names
  match disk.entry? place with
  | none => .error .notFound
  | some .directory => .error .isADirectory
  | some (.file bytes) =>
    if path.endsInSlash then .error .notADirectory
    else
      match String.fromUTF8? bytes with
      | some text => .ok text
      | none => .error .notText

def put (disk : Disk) (place : Place) (bytes : ByteArray) : Disk :=
  (place, .file bytes) :: disk.filter (·.1 ≠ place)

/-- Writes a file, in a directory that must be there. A path that ends in a slash is one of a
directory, there or not, so its last name is not looked up. -/
def write (disk : Disk) (path text : String) : Except FileError Disk := do
  let path ← Path.ofString path
  if path.endsInSlash then
    let _ ← disk.follow path.start (path.names.dropLast ++ ["."])
    .error .isADirectory
  else
    let place ← disk.follow path.start path.names
    match disk.entry? place with
    | some .directory => .error .isADirectory
    | _ => .ok (disk.put place text.toUTF8)

def files : Files (StateM Disk) where
  read path := return (← get).read path
  write path text := do
    match (← get).write path text with
    | .error e => return .error e
    | .ok disk =>
      set disk
      return .ok ()

end Disk

end ChipPascal.CommandLine
