import FencedTape.Text.Blank

/-! # Folders

A folder in memory: files by name, with nothing else in it.  `Folder.read` finds the file that a
path names, seen from the folder. -/

set_option autoImplicit false

namespace FencedTape

inductive FileError where
  | notFound
  | notFolder
  | isFolder
  | nameTooLong
  | other (cause : String)
  deriving DecidableEq, Repr

def FileError.message : FileError → String
  | .notFound => "No such file or directory (os error 2)"
  | .notFolder => "Not a directory (os error 20)"
  | .isFolder => "Is a directory (os error 21)"
  | .nameTooLong => "File name too long (os error 36)"
  | .other cause => cause

abbrev Folder := List (String × List UInt8)

namespace Folder

/-- Where a path has led to. -/
inductive Place where
  /-- The folder itself. -/
  | here
  /-- A folder that encloses it, of which nothing else is known. -/
  | outside
  | file (contents : List UInt8)
  deriving DecidableEq, Repr

def enter (f : Folder) (name : List Char) : Place → Except FileError Place
  | .file _ => .error .notFolder
  | place =>
      if name = [] ∨ name = ['.'] then .ok place
      else if name = ['.', '.'] then .ok .outside
      else if 255 < (String.ofList name).utf8ByteSize then .error .nameTooLong
      else match place, f.lookup (String.ofList name) with
        | .here, some contents => .ok (.file contents)
        | _, _ => .error .notFound

def read (f : Folder) (path : String) : Except FileError (List UInt8) := do
  if 4096 ≤ path.utf8ByteSize then throw .nameTooLong
  let start := if path.toList.head? = some '/' then Place.outside else .here
  let names := Text.pieces (· = '/') path.toList
  let place ← names.foldlM (fun place name => f.enter name place) start
  match place with
  | .file contents => return contents
  | _ => throw .isFolder

end Folder

end FencedTape
