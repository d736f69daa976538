import Minifier.Files.Name
import Minifier.Host

/-!
Watching files for changes: which reported changes call for another run, and what has to hold before
watching can begin.
-/

namespace Minifier.Watch

/-- What a report says has happened. -/
inductive Change where
  | any | accessed | created | modified | renamed | metadata | removed | other
  deriving DecidableEq, Repr

namespace Change

def all : List Change := [any, accessed, created, modified, renamed, metadata, removed, other]

/-- Whether a change may have left a new content behind. -/
def mayBringContent : Change → Bool
  | accessed | removed | other => false
  | any | created | modified | renamed | metadata => true

end Change

/-- Whether a path is not worth a look: it belongs to version control, to installed packages, or to an
editor's own files. -/
def isIgnored (path : String) : Bool :=
  let text := path.toList
  Text.contains ".git".toList text || Text.contains "node_modules".toList text ||
    "~".toList.isSuffixOf text || ".swp".toList.isSuffixOf text || Text.contains ".tmp".toList text

/-- The sources among the paths of a report. -/
def changedSources (change : Change) (paths : List String) : List String :=
  if change.mayBringContent then paths.filter fun path => !isIgnored path && FileName.isSource path
  else []

variable {m : Type → Type} [Monad m] [Host m]

/-- Begins to watch paths. Each must lead to something. -/
def start (paths : List String) : ExceptT Error m Unit := do
  Host.info "Watch mode started - monitoring for changes..."
  let shown := ", ".intercalate paths
  Host.info s!"   Watching: {shown}"
  Host.info "   Press Ctrl+C to stop"
  for path in paths do
    unless ← Files.isThere path do throw (.watch s!"{path} does not exist")

end Minifier.Watch
