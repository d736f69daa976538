import Minifier.Config.Basic
import Minifier.Files.Name

/-!
A run as a command: its arguments in a fixed order, the command as shell text, and a script with one
command for each file. What has its default is left out, but the input always stands.
-/

namespace Minifier.Target

def program : String := "codeshrink"

/-- An argument of the command line. -/
inductive Argument where
  /-- A flag and a path, which is quoted in shell text. -/
  | path (flag value : String) : Argument
  /-- A flag and a word that needs no quotes. -/
  | word (flag value : String) : Argument
  /-- A flag on its own. -/
  | switch (flag : String) : Argument
  deriving DecidableEq, Repr

def flagIf (condition : Bool) (flag : String) : List String := if condition then [flag] else []

/-- The flags for the options that differ from their defaults. -/
def optionFlags (options : Options) : List String :=
  let defaults : Options := {}
  flagIf (options.removeComments != defaults.removeComments) "--keep-comments" ++
    flagIf (options.removeWhitespace != defaults.removeWhitespace) "--keep-whitespace" ++
    flagIf (options.mangleVariables != defaults.mangleVariables) "--mangle-variables" ++
    flagIf (options.removeConsoleLog != defaults.removeConsoleLog) "--remove-console" ++
    flagIf (options.removeDebugger != defaults.removeDebugger) "--keep-debugger" ++
    flagIf (options.preserveLineBreaks != defaults.preserveLineBreaks) "--preserve-linebreaks" ++
    flagIf (options.removeEmptyLines != defaults.removeEmptyLines) "--keep-empty-lines"

/-- The arguments of a run. -/
def argumentsOf (config : RunConfig) : List Argument :=
  let defaults : Options := {}
  [Argument.path "--input" config.input] ++
    config.output.toList.map (Argument.path "--output") ++
    config.language.toList.map (fun language => .word "--language" language.name) ++
    (if config.options.level = defaults.level then []
      else [.word "--level" config.options.level.name]) ++
    ((flagIf config.recursive "--recursive" ++ flagIf config.watch "--watch" ++
      optionFlags config.options).map .switch)

/-- The arguments of a run as a program receives them. -/
def commandArguments (config : RunConfig) : List String :=
  (argumentsOf config).flatMap fun
    | .path flag value => [flag, value]
    | .word flag value => [flag, value]
    | .switch flag => [flag]

/-- Puts a backslash before the characters that keep their meaning between double quotes. -/
def escapeDoubleQuoted (value : String) : String :=
  String.ofList (value.toList.flatMap fun c =>
    if c == '\\' || c == '"' || c == '$' || c == '\x60' then ['\\', c] else [c])

/-- An argument in shell text. -/
def Argument.shell : Argument → String
  | path flag value => flag ++ " \"" ++ escapeDoubleQuoted value ++ "\""
  | word flag value => flag ++ " " ++ value
  | switch flag => flag

/-- The shell command for a run. -/
def command (config : RunConfig) : String :=
  (argumentsOf config).foldl (fun text argument => text ++ " " ++ argument.shell) program

def once (config : RunConfig) : RunConfig := { config with watch := false }

/-- The run for one file of a batch. -/
def perFile (config : RunConfig) (file : String) : RunConfig :=
  { config with
    input := file
    output := some (FileName.inBatch file config.output)
    recursive := false
    watch := false }

/-- A shell script with one command for each file. -/
def batchScript (files : List String) (config : RunConfig) : String :=
  files.foldl (fun script file => script ++ command (perFile config file) ++ "\n")
    "#!/bin/sh\n# Generated by codeshrink\nset -e\n\n"

end Minifier.Target
