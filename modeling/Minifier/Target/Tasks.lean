import Minifier.Config.Format
import Minifier.Target.Shell

/-!
A run as a table of scripts for a package and as a file of rules for make. Both hold the command as it
is and three variants of it.
-/

namespace Minifier.Target

def atLevel (config : RunConfig) (level : Level) : String := command (config.withLevel level)

/-- The names of the variants, without what the target puts before them, and their commands. -/
def variants (config : RunConfig) : List (String × String) :=
  [("", command config),
   ("watch", command { config with watch := true }),
   ("aggressive", atLevel config .aggressive),
   ("light", atLevel config .light)]

/-- The name of a variant after a separator. -/
def taskName (separator variant : String) : String :=
  if variant.isEmpty then "minify" else "minify" ++ separator ++ variant

/-- The scripts of a package. -/
def packageScripts (config : RunConfig) : String :=
  let scripts := (variants config).map fun (variant, text) => (taskName ":" variant, Json.string text)
  (Json.object [("scripts", .object scripts)]).pretty

/-- Rules for make, with one that removes minified files. -/
def makefile (config : RunConfig) : String :=
  let header := ".PHONY: minify minify-watch minify-aggressive minify-light clean\n\n"
  let rules := (variants config).foldl (fun text (variant, command) =>
    text ++ taskName "-" variant ++ ":\n\t" ++ command ++ "\n\n") header
  rules ++ "clean:\n\tfind . -name \"*.min.*\" -type f -delete\n"

end Minifier.Target
