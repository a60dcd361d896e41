set_option autoImplicit false

namespace Formulary

/-- Why a file cannot be read or written. -/
inductive FileFault where
  | notFound
  | notDirectory
  | isDirectory
  | nameTooLong
  | zeroInName
  | notText
  /-- Anything else that a system reports. -/
  | other (text : String)
  deriving DecidableEq, Repr

namespace FileFault

def message : FileFault → String
  | notFound => "No such file or directory (os error 2)"
  | notDirectory => "Not a directory (os error 20)"
  | isDirectory => "Is a directory (os error 21)"
  | nameTooLong => "File name too long (os error 36)"
  | zeroInName => "file name contained an unexpected NUL byte"
  | notText => "stream did not contain valid UTF-8"
  | other text => text

end FileFault

/-- The names on the way from the working directory. A place above it starts with `..` for each
level, and a place that is given from the root of the system starts with a slash. -/
abbrev Place := List String

namespace Place

def root : Place := ["/"]

/-- The working directory, a directory above it, or the root of the system. -/
def isAbove (place : Place) : Bool := place == root || place.all (· == "..")

/-- The directory that holds a place. The root holds itself. -/
def parent (place : Place) : Place :=
  if place = root then root
  else if place.isAbove then place ++ [".."]
  else place.dropLast

end Place

/-- A tree of files around one working directory. The directories above it and the root of the
system are always there; every other directory is there because some file is in it. Paths are
followed part by part, as an operating system does. Nobody is denied access. -/
structure Files where
  entries : List (Place × ByteArray)

namespace Files

def contents? (files : Files) (place : Place) : Option ByteArray := files.entries.lookup place

/-- Whether some file lies below a place, or a place is always there. -/
def isDirectory (files : Files) (place : Place) : Bool :=
  place.isAbove ||
    files.entries.any fun entry => place.isPrefixOf entry.1 && place.length < entry.1.length

/-- The longest name of one file, in bytes. -/
def maxName : Nat := 255

/-- The longest path, in bytes. -/
def maxPath : Nat := 4095

/-- The texts between the slashes of a path. -/
def splitPath : List Char → List (List Char)
  | [] => [[]]
  | c :: cs =>
    if c = '/' then [] :: splitPath cs
    else match splitPath cs with
      | [] => [[c]]
      | part :: rest => (c :: part) :: rest

/-- A part of a path that leads to no place with a name. -/
def isDots (part : String) : Bool := part == "" || part == "." || part == ".."

/-- The place where a path starts, and its parts. -/
def parts (path : String) : Except FileFault (Place × List String) :=
  if path.toList.contains '\x00' then .error .zeroInName
  else if path = "" then .error .notFound
  else if maxPath < path.utf8ByteSize then .error .nameTooLong
  else .ok (if path.toList.head? = some '/' then .root else [],
    (splitPath path.toList).map String.ofList)

/-- Follows the parts of a path from a directory. -/
def follow (files : Files) (here : Place) : List String → Except FileFault Place
  | [] => .ok here
  | part :: rest =>
    if part = "" ∨ part = "." then follow files here rest
    else if part = ".." then follow files here.parent rest
    else if maxName < part.utf8ByteSize then .error .nameTooLong
    else if files.isDirectory (here ++ [part]) then follow files (here ++ [part]) rest
    else if (files.contents? (here ++ [part])).isNone then .error .notFound
    else if rest = [] then .ok (here ++ [part])
    else .error .notDirectory

/-- The text of a file. -/
def readText (files : Files) (path : String) : Except FileFault String := do
  let (start, parts) ← parts path
  let place ← files.follow start parts
  match files.contents? place with
  | none => .error .isDirectory
  | some bytes =>
    match String.fromUTF8? bytes with
    | some text => .ok text
    | none => .error .notText

/-- Puts contents at a place. -/
def put (files : Files) (place : Place) (bytes : ByteArray) : Files :=
  ⟨(place, bytes) :: files.entries.filter fun entry => entry.1 != place⟩

/-- The parts of a path up to its last name, without those from slashes behind it. -/
def withoutSlashes (parts : List String) : List String :=
  (parts.reverse.dropWhile (· == "")).reverse

/-- The place for a file that is to be written: a name in a directory that is there. A name with
slashes behind it can only be a directory, whatever is there. -/
def target (files : Files) (path : String) : Except FileFault Place := do
  let (start, parts) ← parts path
  let named := withoutSlashes parts
  let directory ← files.follow start (named.dropLast ++ ["."])
  let name := named.getLast?.getD ""
  if isDots name ∨ named ≠ parts ∨ files.isDirectory (directory ++ [name]) then
    .error .isDirectory
  else if maxName < name.utf8ByteSize then .error .nameTooLong
  else .ok (directory ++ [name])

/-- Writes a text to a file. -/
def writeText (files : Files) (path : String) (text : String) : Except FileFault Files :=
  (files.target path).map fun place => files.put place text.toUTF8

end Files

end Formulary
