import Minifier.Files.Fault
import Minifier.Files.Path

/-!
A tree of directories and files, kept as a list of places and what is there. A place is the list of
names that leads to it from the top. The list is in the order of places, so that all that lies below a
directory stands together, a directory before what it holds and siblings by name.

Paths are followed name by name: a dot stays, two dots go up, and only a directory can be gone through.
Going up from the top stays at the top, and a path from the root of a file system leads nowhere.
-/

namespace Minifier

/-- What a file holds. -/
inductive FileContent where
  | text (value : String) : FileContent
  /-- Bytes that are not the UTF-8 form of any text. -/
  | binary (bytes : ByteArray) : FileContent

instance : DecidableEq FileContent
  | .text value, .text value' => decidable_of_iff (value = value') (by simp)
  | .binary bytes, .binary bytes' =>
    decidable_of_iff (bytes.data = bytes'.data) (by simp [ByteArray.ext_iff])
  | .text _, .binary _ => isFalse nofun
  | .binary _, .text _ => isFalse nofun

namespace FileContent

/-- The content that some bytes are. -/
def ofBytes (bytes : ByteArray) : FileContent :=
  match String.fromUTF8? bytes with
  | some value => text value
  | none => binary bytes

/-- How many bytes a content has. -/
def size : FileContent → Nat
  | text value => value.utf8ByteSize
  | binary bytes => bytes.size

end FileContent

/-- What can stand at a place. -/
inductive FileNode where
  | directory : FileNode
  | file (content : FileContent) : FileNode
  deriving DecidableEq

/-- What is known about a file without reading it. -/
inductive FileStatus where
  | directory : FileStatus
  | file (size : Nat) : FileStatus
  deriving DecidableEq, Repr

namespace FileStatus

/-- The size that is given for a directory. -/
def directorySize : Nat := 4096

/-- The size in bytes. -/
def size : FileStatus → Nat
  | directory => directorySize
  | file size => size

/-- Whether a file is there. -/
def isFile : FileStatus → Bool
  | file _ => true
  | directory => false

end FileStatus

/-- The status of what stands at a place. -/
def FileNode.status : FileNode → FileStatus
  | directory => .directory
  | file content => .file content.size

/-- A place in a tree: the names that lead there. -/
abbrev Place := List String

namespace Place

/-- Whether a place comes before another: by the first name in which they differ, and a directory before
what it holds. -/
def before : Place → Place → Bool
  | _, [] => false
  | [], _ :: _ => true
  | a :: as, b :: bs => a < b || (a == b && before as bs)

/-- What leads from one place to another below it. -/
def below? : (top : Place) → Place → Option Place
  | [], [] => none
  | [], rest => some rest
  | a :: as, b :: bs => if a = b then below? as bs else none
  | _ :: _, [] => none

end Place

/-- A tree of directories and files. -/
structure FileTree where
  entries : List (Place × FileNode) := []
  deriving DecidableEq

namespace FileTree

/-- What stands at a place. The top is always a directory. -/
def node? (tree : FileTree) (place : Place) : Option FileNode :=
  match place with
  | [] => some .directory
  | _ => tree.entries.lookup place

/-- Puts something at a place, in order. -/
def putInto (place : Place) (node : FileNode) : List (Place × FileNode) → List (Place × FileNode)
  | [] => [(place, node)]
  | entry :: rest =>
    if entry.1 = place then (place, node) :: rest
    else if place.before entry.1 then (place, node) :: entry :: rest
    else entry :: putInto place node rest

/-- Puts something at a place. -/
def put (tree : FileTree) (place : Place) (node : FileNode) : FileTree :=
  ⟨putInto place node tree.entries⟩

/-- The pieces of a path between slashes. -/
def pieces (path : String) : List String :=
  (Text.cutAt (· == '/') path.toList).map String.ofList

/-- Goes through the pieces of a path, each from a directory. -/
def follow (tree : FileTree) : (place : Place) → List String → Except FileFault Place
  | place, [] => .ok place
  | place, piece :: rest =>
    match tree.node? place with
    | none => .error .missing
    | some (.file _) => .error .notDirectory
    | some .directory =>
      if piece = "" || piece = "." then follow tree place rest
      else if piece = ".." then follow tree place.dropLast rest
      else follow tree (place ++ [piece]) rest

/-- Where a path leads, and what is there. -/
def find (tree : FileTree) (path : String) : Except FileFault (Place × FileNode) := do
  if path.isEmpty || Path.isAbsolute path then .error .missing
  else
    let place ← tree.follow [] (pieces path)
    match tree.node? place with
    | some node => .ok (place, node)
    | none => .error .missing

/-- The status of what a path leads to. -/
def status (tree : FileTree) (path : String) : Except FileFault FileStatus :=
  (tree.find path).map fun (_, node) => node.status

/-- The content of a file. -/
def read (tree : FileTree) (path : String) : Except FileFault FileContent := do
  match (← tree.find path).2 with
  | .directory => .error .isDirectory
  | .file content => .ok content

/-- All that lies below a directory, in order: what leads there, and whether it is a file. -/
def below (tree : FileTree) (path : String) : Except FileFault (List (Place × FileStatus)) := do
  match ← tree.find path with
  | (_, .file _) => .error .notDirectory
  | (top, .directory) =>
    .ok (tree.entries.filterMap fun (place, node) =>
      (top.below? place).map fun rest => (rest, node.status))

/-- The directory that a path leads through at last, its last name, and whether slashes follow. A path
that ends in a dot or two has no last name. -/
def split (tree : FileTree) (path : String) : Except FileFault (Place × Option String × Bool) := do
  if path.isEmpty || Path.isAbsolute path then .error .missing
  else
    let reversed := (pieces path).reverse
    let trailing := reversed.takeWhile (· == "")
    match reversed.drop trailing.length with
    | [] => .error .missing
    | last :: before =>
      let place ← tree.follow [] (before.reverse ++ ["."])
      .ok (place, if last = "." || last = ".." then none else some last, !trailing.isEmpty)

/-- Writes a file, which may be there already. Its directory must be there. -/
def write (tree : FileTree) (path : String) (content : FileContent) : Except FileFault FileTree := do
  match ← tree.split path with
  | (place, some name, false) =>
    let target := place ++ [name]
    match tree.node? target with
    | some .directory => .error .isDirectory
    | _ => .ok (tree.put target (.file content))
  | _ => .error .isDirectory

/-- Makes a directory. The directory that holds it must be there, and nothing of its name. -/
def makeDirectory (tree : FileTree) (path : String) : Except FileFault FileTree := do
  match ← tree.split path with
  | (place, some name, _) =>
    let target := place ++ [name]
    match tree.node? target with
    | some _ => .error .alreadyThere
    | none => .ok (tree.put target .directory)
  | _ => .error .alreadyThere

end FileTree

end Minifier
