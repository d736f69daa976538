import Minifier.Language

/-!
Paths of files. A path is text whose parts are set off by slashes. Repeated slashes, parts that are a
single dot and a slash at the end do not count when paths are compared, but a dot in front does.
-/

namespace Minifier.Path

/-- A part of a path. -/
inductive Component where
  /-- The slash in front. -/
  | root : Component
  /-- A single dot in front. -/
  | current : Component
  /-- Two dots. -/
  | parent : Component
  /-- Anything else. -/
  | normal (name : String) : Component
  deriving DecidableEq, Repr

/-- A component with the places where its text begins and ends. -/
structure Part where
  component : Component
  start : Nat
  stop : Nat
  deriving DecidableEq, Repr

/-- The component that a piece between two slashes is, if it counts. -/
def componentOf (first : Bool) (piece : List Char) : Option Component :=
  if piece = [] then none
  else if piece = ['.'] then if first then some .current else none
  else if piece = ['.', '.'] then some .parent
  else some (.normal (String.ofList piece))

/-- The parts among pieces that were set off by slashes, from a place on. -/
def partsOf : (first : Bool) → (start : Nat) → List (List Char) → List Part
  | _, _, [] => []
  | first, start, piece :: rest =>
    let others := partsOf false (start + piece.length + 1) rest
    match componentOf first piece with
    | some component => ⟨component, start, start + piece.length⟩ :: others
    | none => others

/-- The parts of a path. -/
def parts (path : String) : List Part :=
  let pieces := Text.cutAt (· == '/') path.toList
  match path.toList with
  | '/' :: _ => ⟨.root, 0, 1⟩ :: partsOf false 0 pieces
  | _ => partsOf true 0 pieces

def components (path : String) : List Component := (parts path).map Part.component

def same (path other : String) : Bool := components path == components other

/-- The text between two places of a path. -/
def slice (path : String) (start stop : Nat) : String :=
  String.ofList ((path.toList.drop start).take (stop - start))

/-- The name of the file that a path leads to, if its last component is a name. -/
def fileName? (path : String) : Option String :=
  match (components path).getLast? with
  | some (.normal name) => some name
  | _ => none

/-- A name without what follows its last dot, and that; nothing if there is no dot or it comes first. -/
def splitExtension? (name : List Char) : Option (List Char × List Char) :=
  let ending := name.reverse.takeWhile (· != '.')
  match name.reverse.drop ending.length with
  | '.' :: stem => if stem = [] then none else some (stem.reverse, ending.reverse)
  | _ => none

/-- The extension of the file that a path leads to. -/
def extension? (path : String) : Option String :=
  (fileName? path).bind fun name =>
    (splitExtension? name.toList).map fun (_, ending) => String.ofList ending

/-- The path without its last component; nothing if that is the root or there is none. -/
def parent? (path : String) : Option String :=
  match (parts path).reverse with
  | [] => none
  | last :: before =>
    if last.component = .root then none
    else
      match before with
      | [] => some ""
      | previous :: _ => some (slice path 0 previous.stop)

def isAbsolute (path : String) : Bool := path.toList.head? == some '/'

/-- A path taken from a directory. An absolute path stays what it is. -/
def join (directory path : String) : String :=
  if isAbsolute path then path
  else if directory.isEmpty || directory.toList.getLast? == some '/' then directory ++ path
  else directory ++ "/" ++ path

/-- What is left of a path after the components of another, if it begins with them. -/
def stripPrefix? (path base : String) : Option String :=
  let all := parts path
  let count := (components base).length
  if (all.take count).map Part.component = components base then
    match all.drop count, all.getLast? with
    | first :: _, some last => some (slice path first.start last.stop)
    | _, _ => some ""
  else none

end Minifier.Path

namespace Minifier.Language

/-- The language of the file that a path leads to, by its extension. -/
def ofPath? (path : String) : Option Language :=
  (Path.extension? path).bind ofExtension?

end Minifier.Language
