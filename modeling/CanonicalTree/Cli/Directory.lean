import CanonicalTree.Cli.SystemString

/-!
# Files

What reading a file can lead to, and a directory of plain files in which names are looked up: a
name is a row of parts separated by slashes, where an empty part and `.` stay where they are, `..`
leads out of the directory, and nothing is found beyond a file or outside. A name that holds the
zero byte is refused, and so are parts and names that are too long.
-/

namespace CanonicalTree.Cli

/-- Why a file or stream cannot be read or written. -/
inductive IoFault where
  | notFound
  | notDirectory
  | isDirectory
  | nameTooLong
  | zeroInName
  /-- Anything else, in the words of the system. -/
  | other (text : String)
  deriving DecidableEq

/-- The fault in words. -/
def IoFault.message : IoFault → String
  | .notFound => "No such file or directory (os error 2)"
  | .notDirectory => "Not a directory (os error 20)"
  | .isDirectory => "Is a directory (os error 21)"
  | .nameTooLong => "File name too long (os error 36)"
  | .zeroInName => "file name contained an unexpected NUL byte"
  | .other text => text

/-- The greatest number of bytes in a part of a name. -/
def maxPartSize : Nat := 255

/-- The greatest number of bytes in a name. -/
def maxNameSize : Nat := 4095

/-- A directory that holds plain files only: their names and what is in them. -/
structure Directory where
  files : List (SystemString × Bytes) := []

namespace Directory

/-- Where a partial look-up stands. -/
inductive Place where
  /-- In the directory. -/
  | inside
  /-- In a directory around it. -/
  | outside
  /-- At a file. -/
  | file (content : Bytes)

/-- Take one part of a name. -/
def step (directory : Directory) (place : Place) (part : List UInt8) : Except IoFault Place :=
  match place with
  | .file _ => .error .notDirectory
  | place =>
    if part = [] ∨ part = [0x2E] then .ok place
    else if part = [0x2E, 0x2E] then .ok .outside
    else if maxPartSize < part.length then .error .nameTooLong
    else
      match place with
      | .inside =>
        match directory.files.lookup part.toArray with
        | some content => .ok (.file content)
        | none => .error .notFound
      | _ => .error .notFound

/-- The content of the file with the given name. -/
def read (directory : Directory) (name : SystemString) : Except IoFault Bytes := do
  if name.toList.contains 0 then throw .zeroInName
  if maxNameSize < name.size then throw .nameTooLong
  let start := if name.toList.head? = some 0x2F then Place.outside else .inside
  match ← (name.toList.splitOn 0x2F).foldlM directory.step start with
  | .file content => pure content
  | _ => throw .isDirectory

end Directory

end CanonicalTree.Cli
