import Minifier.Content.Check
import Minifier.Files.Name
import Minifier.Host

/-!
Which files a run takes in, and where it puts the minified ones. Out of a directory a run takes the
files that look like sources, in the order of places; directories that hold nothing of a project's own
are not gone into. A single file is taken whatever it is called.
-/

namespace Minifier.Files

/-- The names of directories that are not gone into. -/
def skippedDirectories : List String := [".git", "node_modules", "target", "dist"]

/-- The path that leads from a directory to a place below it. -/
def pathTo (directory : String) (place : Place) : String := place.foldl Path.join directory

/-- Whether a place below a directory is within reach: directly in the directory unless the run descends,
and never through a skipped directory. -/
def inReach (recursive : Bool) (place : Place) : Bool :=
  (recursive || place.length == 1) &&
    place.dropLast.all fun name => !skippedDirectories.contains name

/-- The sources among all that lies below a directory. -/
def sourcesAmong (directory : String) (recursive : Bool) (found : List (Place × FileStatus)) :
    List String :=
  found.filterMap fun (place, status) =>
    let path := pathTo directory place
    if status.isFile && inReach recursive place && FileName.isSource path then some path else none

variable {m : Type → Type} [Monad m] [Host m]

/-- The files that a run takes in. -/
def discover (root : String) (recursive : Bool) : ExceptT Error m (List String) := do
  match ← Host.status root with
  | .error _ => throw (.io s!"{root} does not exist")
  | .ok (.file _) => return [root]
  | .ok .directory =>
    let enters (name : String) : Bool := recursive && !skippedDirectories.contains name
    return sourcesAmong root recursive (← orFail (Host.below enters root))

/-- Refuses a file that is not there, empty or too large, and gives its size otherwise. -/
def checkedSize (path : String) : ExceptT Error m Nat := do
  let status ← orFail (Host.status path)
  MonadExcept.ofExcept (Check.fileSize path status.size)
  return status.size

/-- Where the minified copy of a file goes. Without an output it stands beside the file. If the run takes
in a single file, the output is that copy; otherwise it is a directory in which the copy lies as the file
lies in the root. -/
def outputPath (input root : String) (rootIsFile : Bool) (output : Option String) : String :=
  match output with
  | none => FileName.minified input
  | some target =>
    if rootIsFile || Path.same input root then target
    else Path.join target ((Path.stripPrefix? input root).getD ((Path.fileName? input).getD input))

end Minifier.Files
