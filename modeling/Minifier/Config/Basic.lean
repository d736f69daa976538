import Minifier.Options

/-!
The configuration of a run, and layers of settings it is put together from. A layer sets some fields
and leaves others open; where two layers set a field, the upper one wins, and what no layer sets has a
default.
-/

namespace Minifier

/-- What a run is to do: where to read and write, and how to minify. -/
structure RunConfig where
  input : String := ""
  output : Option String := none
  language : Option Language := none
  recursive : Bool := false
  watch : Bool := false
  options : Options := {}
  deriving DecidableEq, Repr

namespace RunConfig

/-- The same run at another level. -/
def withLevel (config : RunConfig) (level : Level) : RunConfig :=
  { config with options := config.options.withLevel level }

/-- The same run with an output directory or file. -/
def withOutput (config : RunConfig) (output : String) : RunConfig :=
  { config with output := some output }

end RunConfig

/-- One layer of settings. -/
structure Layer where
  input : Option String := none
  output : Option String := none
  language : Option Language := none
  level : Option Level := none
  recursive : Option Bool := none
  watch : Option Bool := none
  removeComments : Option Bool := none
  removeWhitespace : Option Bool := none
  removeEmptyLines : Option Bool := none
  preserveLineBreaks : Option Bool := none
  mangleVariables : Option Bool := none
  removeConsoleLog : Option Bool := none
  removeDebugger : Option Bool := none
  deriving DecidableEq, Repr

namespace Layer

/-- The fields of the upper layer, and of the lower one where the upper leaves them open. -/
def onTopOf (upper lower : Layer) : Layer where
  input := upper.input.or lower.input
  output := upper.output.or lower.output
  language := upper.language.or lower.language
  level := upper.level.or lower.level
  recursive := upper.recursive.or lower.recursive
  watch := upper.watch.or lower.watch
  removeComments := upper.removeComments.or lower.removeComments
  removeWhitespace := upper.removeWhitespace.or lower.removeWhitespace
  removeEmptyLines := upper.removeEmptyLines.or lower.removeEmptyLines
  preserveLineBreaks := upper.preserveLineBreaks.or lower.preserveLineBreaks
  mangleVariables := upper.mangleVariables.or lower.mangleVariables
  removeConsoleLog := upper.removeConsoleLog.or lower.removeConsoleLog
  removeDebugger := upper.removeDebugger.or lower.removeDebugger

/-- The run that a layer describes, with defaults for what is open. -/
def resolve (layer : Layer) : RunConfig :=
  let defaults : Options := {}
  { input := layer.input.getD ""
    output := layer.output
    language := layer.language
    recursive := layer.recursive.getD false
    watch := layer.watch.getD false
    options :=
      { level := layer.level.getD defaults.level
        removeComments := layer.removeComments.getD defaults.removeComments
        removeWhitespace := layer.removeWhitespace.getD defaults.removeWhitespace
        removeEmptyLines := layer.removeEmptyLines.getD defaults.removeEmptyLines
        preserveLineBreaks := layer.preserveLineBreaks.getD defaults.preserveLineBreaks
        mangleVariables := layer.mangleVariables.getD defaults.mangleVariables
        removeConsoleLog := layer.removeConsoleLog.getD defaults.removeConsoleLog
        removeDebugger := layer.removeDebugger.getD defaults.removeDebugger } }

/-- The layer that sets every field of a run. -/
def ofRun (config : RunConfig) : Layer where
  input := some config.input
  output := config.output
  language := config.language
  level := some config.options.level
  recursive := some config.recursive
  watch := some config.watch
  removeComments := some config.options.removeComments
  removeWhitespace := some config.options.removeWhitespace
  removeEmptyLines := some config.options.removeEmptyLines
  preserveLineBreaks := some config.options.preserveLineBreaks
  mangleVariables := some config.options.mangleVariables
  removeConsoleLog := some config.options.removeConsoleLog
  removeDebugger := some config.options.removeDebugger

/-- The run that the command line describes on top of a file, if there is one. -/
def resolveOver (file : Option Layer) (commandLine : Layer) : RunConfig :=
  (commandLine.onTopOf (file.getD {})).resolve

end Layer

end Minifier
