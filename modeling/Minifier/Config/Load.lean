import Minifier.Config.Format
import Minifier.Host

/-!
The layer of settings that a file holds: a file that the user names, which must be there, or else the
one of the usual name, if it is there.
-/

namespace Minifier.Layer

variable {m : Type → Type} [Monad m] [Host m]

/-- Loads the layer that applies in a directory. -/
def load (named : Option String) (directory : String) : ExceptT Error m (Option Layer) := do
  let path := named.getD (Path.join directory fileName)
  if ← Files.isThere path then
    Host.debug s!"Loading config from {path}"
    return some (← MonadExcept.ofExcept (parse (← Files.readText path)))
  else
    match named with
    | some path => throw (.config s!"Config file not found: {path}")
    | none =>
      Host.debug s!"No {fileName} found, using defaults"
      return none

end Minifier.Layer
