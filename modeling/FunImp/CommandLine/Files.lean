import FunImp.Text.Position

/-!
# Files

A name leads part by part from a directory to a file. The parts stand between slashes; a part that
is empty or one dot stays where it is, and two dots go back. The walk ends at the first part that
leads nowhere, which says why the file cannot be read.
-/

namespace FunImp.CommandLine

/-- Why the bytes of a file cannot be had. -/
inductive FileError where
  | missing
  | notDirectory
  | isDirectory
  | nameTooLong
  | other (reason : String)
deriving DecidableEq

namespace FileError

def message : FileError → String
  | missing => "No such file or directory (os error 2)"
  | notDirectory => "Not a directory (os error 20)"
  | isDirectory => "Is a directory (os error 21)"
  | nameTooLong => "File name too long (os error 36)"
  | other reason => reason

end FileError

/-- Files by the parts of their full names. Every proper start of such a name is a directory, and
so are the working directory, where names without a leading slash begin, and its starts. -/
structure Files where
  contents : List (List String × ByteArray)
  workingDirectory : List String

namespace Files

def maxPartLength : Nat := 255

def maxNameLength : Nat := 4095

inductive Spot where
  | directory (path : List String)
  | file (bytes : ByteArray)

def isDirectory (fs : Files) (path : List String) : Bool :=
  path.isPrefixOf fs.workingDirectory ||
    fs.contents.any fun (file, _) => path.isPrefixOf file && path ≠ file

/-- Follows one part of a name. From a file no part leads on, not even an empty one. -/
def step (fs : Files) : Spot → String → Except FileError Spot
  | .file _, _ => .error .notDirectory
  | .directory path, part =>
    if part = "" ∨ part = "." then .ok (.directory path)
    else if part = ".." then .ok (.directory path.dropLast)
    else if maxPartLength < byteLength part.toList then .error .nameTooLong
    else
      let path := path ++ [part]
      match fs.contents.lookup path with
      | some bytes => .ok (.file bytes)
      | none => if fs.isDirectory path then .ok (.directory path) else .error .missing

def read (fs : Files) (name : String) : Except FileError ByteArray := do
  if name = "" then throw .missing
  if maxNameLength < byteLength name.toList then throw .nameTooLong
  let start := if name.toList.head? = some '/' then [] else fs.workingDirectory
  match ← (name.splitOn "/").foldlM fs.step (.directory start) with
  | .file bytes => return bytes
  | .directory _ => throw .isDirectory

end Files

end FunImp.CommandLine
