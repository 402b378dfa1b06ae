import Lox.Text.Quoted

/-!
# Files and paths

A tree of directories and files, and how a path names one of its entries.  A
path is followed part by part: from the root if it starts with a slash, else
from a working directory.  `.` stays, `..` goes up, and an empty part stays
too, so doubled slashes count once.  Every part, also an empty one at the
end, can only be followed from a directory.

`FileFault` says why a path gives no file; the wording is in
`FileFault.message`.
-/

namespace Lox

/-- Why the bytes of a file cannot be had. -/
inductive FileFault where
  /-- There is nothing of that name. -/
  | missing
  /-- A part of the path goes on from something that is no directory. -/
  | notDirectory
  /-- A name, or the path as a whole, is longer than names may be. -/
  | tooLong
  /-- The path names a directory, which can be opened but has no bytes. -/
  | directory
  | other (reason : String)
  deriving Repr, DecidableEq

namespace FileFault

/-- What could not be done with the file. -/
def attempt : FileFault → String
  | .directory => "map"
  | _ => "open"

/-- Why it could not be done. -/
def reason : FileFault → String
  | .missing => "No such file or directory (os error 2)"
  | .notDirectory => "Not a directory (os error 20)"
  | .tooLong => "File name too long (os error 36)"
  | .directory => "No such device (os error 19)"
  | .other reason => reason

/-- The message about a file that cannot be read. -/
def message (f : FileFault) (path : String) : String :=
  s!"Failed to {f.attempt} file {Text.quote path}: {f.reason}"

end FileFault

namespace Files

/-- A file, or a directory with its entries by name. -/
inductive Entry where
  | file (bytes : ByteArray)
  | directory (entries : List (String × Entry))

/-- An entry of a tree with the directories above it, innermost first. -/
structure Place where
  entry : Entry
  above : List Entry

/-- The longest name of an entry, in bytes. -/
def maxName : Nat := 255

/-- The longest path, in bytes. -/
def maxPath : Nat := 4095

namespace Place

/-- The place at the top of the tree. -/
def root (p : Place) : Place :=
  ⟨p.above.getLastD p.entry, []⟩

/-- The place one directory up.  The root is above itself. -/
def parent (p : Place) : Place :=
  match p.above with
  | [] => p
  | entry :: above => ⟨entry, above⟩

/-- The place of a name in a directory with given entries. -/
def child (p : Place) (entries : List (String × Entry)) (name : String) :
    Except FileFault Place :=
  if maxName < name.utf8ByteSize then .error .tooLong
  else match entries.lookup name with
    | some entry => .ok ⟨entry, p.entry :: p.above⟩
    | none => .error .missing

/-- The place that one part of a path leads to. -/
def follow (p : Place) (part : String) : Except FileFault Place :=
  match p.entry with
  | .file _ => .error .notDirectory
  | .directory entries =>
    match part with
    | "" => .ok p
    | "." => .ok p
    | ".." => .ok p.parent
    | name => p.child entries name

/-- The place that a path leads to. -/
def find (p : Place) (path : String) : Except FileFault Place :=
  if path.isEmpty then .error .missing
  else if maxPath < path.utf8ByteSize then .error .tooLong
  else (path.splitOn "/").foldlM follow (if path.startsWith "/" then p.root else p)

/-- The bytes of the file that a path names. -/
def bytes (p : Place) (path : String) : Except FileFault ByteArray := do
  match (← p.find path).entry with
  | .file bytes => return bytes
  | .directory _ => throw .directory

end Place

end Files

end Lox
