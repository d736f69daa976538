import Minifier.Target.Bundler
import Minifier.Target.Deploy
import Minifier.Target.Help
import Minifier.Target.Tasks

/-!
The forms in which a run can be written for another tool.
-/

namespace Minifier

/-- A form in which a run can be written. -/
inductive Target where
  | cli | batch | npm | make | gulp | webpack | github | docker | config | help
  deriving DecidableEq, Repr

namespace Target

def all : List Target := [cli, batch, npm, make, gulp, webpack, github, docker, config, help]

/-- The name of a target. -/
def name : Target → String
  | cli => "cli"
  | batch => "batch"
  | npm => "npm"
  | make => "make"
  | gulp => "gulp"
  | webpack => "webpack"
  | github => "github"
  | docker => "docker"
  | config => "config"
  | help => "help"

/-- The target with a name, if asked for also in another case of ASCII letters. -/
def ofName? (ignoreCase : Bool) (text : String) : Option Target :=
  let fold (text : String) : List Char :=
    if ignoreCase then text.toList.map Char.toLower else text.toList
  all.find? fun target => target.name.toList == fold text

/-- Writes a run. The files matter to the batch script only. -/
def render (target : Target) (run : RunConfig) (files : List String) : String :=
  match target with
  | cli => command run
  | batch => batchScript files run
  | npm => packageScripts run
  | make => makefile run
  | gulp => taskFile run
  | webpack => pluginFile run
  | github => workflow run
  | docker => imageRecipe run
  | config => configFile run
  | help => helpText

end Target

end Minifier
