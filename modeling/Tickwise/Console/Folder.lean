import Tickwise.Console
set_option autoImplicit false

/-!
# Folders in memory

A console on files that are kept in memory and lines that are kept as printed. Paths are relative to
the folder; a folder within it exists as long as it holds a file.
-/
namespace Tickwise

/-- Files by the parts of their paths, and the lines printed, the last one first. -/
structure Folder where
  files : List (List String × List UInt8)
  printed : List String
  deriving Inhabited

namespace Folder

/-- Why a file is not read or written. -/
inductive Failure where
  | missing
  | notFolder
  | isFolder
  | nameTooLong
  deriving DecidableEq, Inhabited

def Failure.message : Failure → String
  | missing => "No such file or directory (os error 2)"
  | notFolder => "Not a directory (os error 20)"
  | isFolder => "Is a directory (os error 21)"
  | nameTooLong => "File name too long (os error 36)"

def parts (path : String) : List String :=
  let names := (path.splitOn "/").filter fun part => part ≠ "" ∧ part ≠ "."
  if "/".isPrefixOf path then "/" :: names else names

def read? (d : Folder) (path : List String) : Option (List UInt8) := d.files.lookup path

def isFolder (d : Folder) (path : List String) : Bool :=
  path.all (fun part => part = ".." ∨ part = "/") ∨
    d.files.any fun (file, _) => path.isPrefixOf file ∧ path ≠ file

def obstacle? (d : Folder) (path : List String) : Option Failure :=
  if path.any (·.utf8ByteSize > 255) then some .nameTooLong
  else if (List.range path.length).any fun n => (d.read? (path.take n)).isSome then some .notFolder
  else none

def namesFolder (path : String) : Bool := path.toList.getLast? = some '/'

def fetch (d : Folder) (path : String) : Except Failure (List UInt8) :=
  let file := parts path
  match d.obstacle? file, d.read? file with
  | some failure, _ => .error failure
  | none, some bytes => if namesFolder path then .error .notFolder else .ok bytes
  | none, none => .error (if path ≠ "" ∧ d.isFolder file then .isFolder else .missing)

def store (d : Folder) (path : String) (bytes : List UInt8) : Except Failure Folder :=
  let file := parts path
  match d.obstacle? file with
  | some failure => .error failure
  | none =>
    if path = "" ∨ ¬ d.isFolder file.dropLast then .error .missing
    else if d.isFolder file ∨ namesFolder path then .error .isFolder
    else .ok { d with files := (file, bytes) :: d.files.filter (·.1 ≠ file) }

def print (d : Folder) (line : String) : Folder := { d with printed := line :: d.printed }

def console : Console (StateM Folder) where
  fetch path := do return ((← get).fetch path).mapError Failure.message
  store path bytes := do
    match (← get).store path bytes with
    | .ok d =>
      set d
      return .ok ()
    | .error failure => return .error failure.message
  print line := modify (·.print line)

end Folder
end Tickwise
