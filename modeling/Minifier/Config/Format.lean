import Minifier.Config.Basic
import Minifier.Error
import Minifier.Json.Decoder

/-!
Options, runs and layers as JSON. Every field may be missing. A field that is not known is passed over;
one that is there twice is refused.
-/

namespace Minifier

open Json

def Language.decoder : Decoder Language := .choice (Language.all.map Language.name) Language.ofName?

def Level.decoder : Decoder Level := .choice (Level.all.map Level.name) Level.ofName?

/-- A field that may be missing. -/
def Json.Field.optional {ρ α : Type} (name : String) (decoder : Decoder α) (set : α → ρ → ρ) : Field ρ :=
  ⟨name, false, decoder.map set⟩

namespace Options

/-- The fields of options. -/
def record : Record Options where
  name := "MinificationOptions"
  start := {}
  fields :=
    [.optional "level" Level.decoder fun v o => { o with level := v },
     .optional "removeComments" .bool fun v o => { o with removeComments := v },
     .optional "removeWhitespace" .bool fun v o => { o with removeWhitespace := v },
     .optional "removeEmptyLines" .bool fun v o => { o with removeEmptyLines := v },
     .optional "preserveLineBreaks" .bool fun v o => { o with preserveLineBreaks := v },
     .optional "mangleVariables" .bool fun v o => { o with mangleVariables := v },
     .optional "removeConsoleLog" .bool fun v o => { o with removeConsoleLog := v },
     .optional "removeDebugger" .bool fun v o => { o with removeDebugger := v }]

def decoder : Decoder Options := record.decoder

/-- The members of options. -/
def members (options : Options) : Members :=
  [("level", .string options.level.name),
   ("removeComments", .bool options.removeComments),
   ("removeWhitespace", .bool options.removeWhitespace),
   ("removeEmptyLines", .bool options.removeEmptyLines),
   ("preserveLineBreaks", .bool options.preserveLineBreaks),
   ("mangleVariables", .bool options.mangleVariables),
   ("removeConsoleLog", .bool options.removeConsoleLog),
   ("removeDebugger", .bool options.removeDebugger)]

def toJson (options : Options) : Json := .object options.members

end Options

/-- A member if there is a value for it. -/
def Json.Members.given {α : Type} (name : String) (write : α → Json) : Option α → Members
  | some value => [(name, write value)]
  | none => []

namespace RunConfig

/-- The fields of a run apart from its options. -/
def record : Record RunConfig where
  name := "CliConfig"
  start := {}
  fields :=
    [.optional "input" .string fun v c => { c with input := v },
     .optional "output" (.optional .string) fun v c => { c with output := v },
     .optional "language" (.optional Language.decoder) fun v c => { c with language := v },
     .optional "recursive" .bool fun v c => { c with recursive := v },
     .optional "watch" .bool fun v c => { c with watch := v }]

/-- A run from a JSON object that holds the options among its own members. -/
def decoder : Decoder RunConfig :=
  (record.flattened Options.record).map fun (config, options) => { config with options }

/-- A run as a JSON object, with the options among its own members. -/
def toJson (config : RunConfig) : Json :=
  .object
    ([("input", .string config.input)] ++
      Members.given "output" .string config.output ++
      Members.given "language" (fun language => .string language.name) config.language ++
      [("recursive", .bool config.recursive), ("watch", .bool config.watch)] ++
      config.options.members)

end RunConfig

namespace Layer

def fileName : String := "codeshrink.config.json"

/-- The fields of a layer. -/
def record : Record Layer where
  name := "ConfigFile"
  start := {}
  fields :=
    [.optional "input" (.optional .string) fun v l => { l with input := v },
     .optional "output" (.optional .string) fun v l => { l with output := v },
     .optional "language" (.optional Language.decoder) fun v l => { l with language := v },
     .optional "level" (.optional Level.decoder) fun v l => { l with level := v },
     .optional "recursive" (.optional .bool) fun v l => { l with recursive := v },
     .optional "watch" (.optional .bool) fun v l => { l with watch := v },
     .optional "removeComments" (.optional .bool) fun v l => { l with removeComments := v },
     .optional "removeWhitespace" (.optional .bool) fun v l => { l with removeWhitespace := v },
     .optional "removeEmptyLines" (.optional .bool) fun v l => { l with removeEmptyLines := v },
     .optional "preserveLineBreaks" (.optional .bool) fun v l => { l with preserveLineBreaks := v },
     .optional "mangleVariables" (.optional .bool) fun v l => { l with mangleVariables := v },
     .optional "removeConsoleLog" (.optional .bool) fun v l => { l with removeConsoleLog := v },
     .optional "removeDebugger" (.optional .bool) fun v l => { l with removeDebugger := v }]

def decoder : Decoder Layer := record.decoder

/-- A layer as a JSON object of the fields that it sets. -/
def toJson (layer : Layer) : Json :=
  .object
    (Members.given "input" .string layer.input ++
      Members.given "output" .string layer.output ++
      Members.given "language" (fun language => .string language.name) layer.language ++
      Members.given "level" (fun level => .string level.name) layer.level ++
      Members.given "recursive" .bool layer.recursive ++
      Members.given "watch" .bool layer.watch ++
      Members.given "removeComments" .bool layer.removeComments ++
      Members.given "removeWhitespace" .bool layer.removeWhitespace ++
      Members.given "removeEmptyLines" .bool layer.removeEmptyLines ++
      Members.given "preserveLineBreaks" .bool layer.preserveLineBreaks ++
      Members.given "mangleVariables" .bool layer.mangleVariables ++
      Members.given "removeConsoleLog" .bool layer.removeConsoleLog ++
      Members.given "removeDebugger" .bool layer.removeDebugger)

/-- The layer in the text of a file. -/
def parse (text : String) : Except Error Layer :=
  (decoder.parse text).mapError fun error => .config s!"Failed to parse {fileName}: {error.message}"

end Layer

end Minifier
