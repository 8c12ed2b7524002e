/-!
# Trees of files

Files in memory, each at its place below the root, and how a path leads to one of
them from the working folder.

A path is followed name by name. Before each name, the empty one after a final
slash included, the way so far has to lead to a folder; so a path through a file
fails at the file, and a path through a folder that is missing fails there, even
if `..` would leave that folder again. Folders are those that hold something.
-/

namespace StackLisp

/-- Why a file cannot be read. -/
inductive FileFault where
  | missing
  | notFolder
  | isFolder
  | nameTooLong
  | notPermitted
  | notText
deriving DecidableEq, Repr

/-- What the system says about a file that cannot be read. -/
def FileFault.message : FileFault → String
  | .missing => "No such file or directory (os error 2)"
  | .notFolder => "Not a directory (os error 20)"
  | .isFolder => "Is a directory (os error 21)"
  | .nameTooLong => "File name too long (os error 36)"
  | .notPermitted => "Permission denied (os error 13)"
  | .notText => "stream did not contain valid UTF-8"

/-- A place in a tree: the names on the way to it from the root. -/
abbrev Place := List String

/-- Files with contents in `α`, and the folder where relative paths start. -/
structure FileTree (α : Type) where
  files : List (Place × α)
  working : Place := []

namespace FileTree

variable {α : Type}

/-- The most bytes that a name may have. -/
def maxNameSize : Nat := 255

/-- The most bytes that a path may have. -/
def maxPathSize : Nat := 4095

/-- Whether a name stands for the folder it is looked up in. -/
def isHere (name : String) : Bool := name = "" || name = "."

/-- The place that a path without `..` leads to from another one. -/
def placeFrom (start : Place) (path : String) : Place :=
  start ++ (path.splitOn "/").filter (!isHere ·)

/-- Whether there is a folder at a place: the root, the working folder and those
    around it, and the folders that files are in. -/
def isFolder (t : FileTree α) (p : Place) : Bool :=
  p.isPrefixOf t.working || t.files.any fun (place, _) => p.isPrefixOf place.dropLast

/-- Whether there is anything at a place. -/
def holds (t : FileTree α) (p : Place) : Bool :=
  t.isFolder p || (t.files.lookup p).isSome

/-- The place that names lead to from another one. -/
def follow (t : FileTree α) (here : Place) : List String → Except FileFault Place
  | [] => .ok here
  | name :: names =>
    if !t.isFolder here then .error .notFolder
    else if isHere name then t.follow here names
    else if name = ".." then t.follow here.dropLast names
    else if name.utf8ByteSize > maxNameSize then .error .nameTooLong
    else if t.holds (here ++ [name]) then t.follow (here ++ [name]) names
    else .error .missing

/-- What the file that a path leads to contains. -/
def read (t : FileTree α) (path : String) : Except FileFault α := do
  if path.utf8ByteSize > maxPathSize then
    throw .nameTooLong
  let place ← t.follow (if path.startsWith "/" then [] else t.working) (path.splitOn "/")
  if t.isFolder place then
    throw .isFolder
  match t.files.lookup place with
  | some content => return content
  | none => throw .missing

end FileTree

end StackLisp
