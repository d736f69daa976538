import Minifier.Proofs.Config.Options

/-!
Layers on top of each other. Put together they are a monoid: it does not matter how they are grouped, and the layer that
sets nothing adds nothing, on either side. Of a stack of layers each field is what the first layer has for it that sets
it at all.

A field is a value here, so that a law is said once for all of them: what a layer has for it (`Field.of`), what a run
has for it (`Field.inRun`), and what a run has for it if no layer sets it (`Field.start`).
-/

namespace Minifier.Layer

/-- A field of a layer. -/
inductive Field where
  | input | output | language | level | recursive | watch | removeComments | removeWhitespace | removeEmptyLines
  | preserveLineBreaks | mangleVariables | removeConsoleLog | removeDebugger
  deriving DecidableEq, Repr

namespace Field

/-- What a field is set to. -/
def Value : Field → Type
  | input | output => String
  | language => Language
  | level => Level
  | _ => Bool

/-- What a layer has for a field. -/
def of : (field : Field) → Layer → Option field.Value
  | input => Layer.input
  | output => Layer.output
  | language => Layer.language
  | level => Layer.level
  | recursive => Layer.recursive
  | watch => Layer.watch
  | removeComments => Layer.removeComments
  | removeWhitespace => Layer.removeWhitespace
  | removeEmptyLines => Layer.removeEmptyLines
  | preserveLineBreaks => Layer.preserveLineBreaks
  | mangleVariables => Layer.mangleVariables
  | removeConsoleLog => Layer.removeConsoleLog
  | removeDebugger => Layer.removeDebugger

/-- What a run has for a field. Only an output and a language may be missing there. -/
def inRun : (field : Field) → RunConfig → Option field.Value
  | input => fun config => some config.input
  | output => RunConfig.output
  | language => RunConfig.language
  | level => fun config => some config.options.level
  | recursive => fun config => some config.recursive
  | watch => fun config => some config.watch
  | removeComments => fun config => some config.options.removeComments
  | removeWhitespace => fun config => some config.options.removeWhitespace
  | removeEmptyLines => fun config => some config.options.removeEmptyLines
  | preserveLineBreaks => fun config => some config.options.preserveLineBreaks
  | mangleVariables => fun config => some config.options.mangleVariables
  | removeConsoleLog => fun config => some config.options.removeConsoleLog
  | removeDebugger => fun config => some config.options.removeDebugger

/-- What a field is in a run for which no layer sets it. -/
def start : (field : Field) → Option field.Value
  | input => some ""
  | output | language => none
  | level => some Level.moderate
  | recursive | watch | preserveLineBreaks | mangleVariables | removeConsoleLog => some false
  | removeComments | removeWhitespace | removeEmptyLines | removeDebugger => some true

theorem of_empty (field : Field) : field.of {} = none := by
  cases field <;> rfl

theorem of_onTopOf (field : Field) (upper lower : Layer) :
    field.of (upper.onTopOf lower) = (field.of upper).or (field.of lower) := by
  cases field <;> rfl

theorem inRun_resolve (field : Field) (layer : Layer) :
    field.inRun layer.resolve = (field.of layer).or field.start := by
  cases field
  case output | language => exact Option.or_none.symm
  all_goals exact (Option.or_some ..).symm

end Field

/-- A layer is told by its fields. -/
theorem eq_of_fields {first second : Layer} (h : ∀ field : Field, field.of first = field.of second) :
    first = second := by
  obtain ⟨⟩ := first
  obtain ⟨⟩ := second
  exact mk.injEq .. ▸ ⟨h .input, h .output, h .language, h .level, h .recursive, h .watch, h .removeComments,
    h .removeWhitespace, h .removeEmptyLines, h .preserveLineBreaks, h .mangleVariables, h .removeConsoleLog,
    h .removeDebugger⟩

theorem onTopOf_assoc (upper middle lower : Layer) :
    (upper.onTopOf middle).onTopOf lower = upper.onTopOf (middle.onTopOf lower) :=
  eq_of_fields fun field => by simp only [Field.of_onTopOf, Option.or_assoc]

theorem empty_onTopOf (layer : Layer) : onTopOf {} layer = layer :=
  eq_of_fields fun field => by rw [Field.of_onTopOf, Field.of_empty, Option.none_or]

/-- A run that is made a layer again leaves only its output and its language to what is below it, if they are open. -/
theorem ofRun_onTopOf (config : RunConfig) (below : Layer) :
    (ofRun config).onTopOf below =
      { ofRun config with
        output := config.output.or below.output, language := config.language.or below.language } := by
  simp only [onTopOf, ofRun, Option.some_or]

/-!
## Stacks

A grouping says in which order the layers of a list are put together, two stacks at a time.
-/

/-- A way to put layers together: nothing, one layer, or one stack on another. -/
inductive Grouping where
  | none
  | one (layer : Layer)
  | two (upper lower : Grouping)

namespace Grouping

/-- The layers from the top to the bottom. -/
def layers : Grouping → List Layer
  | none => []
  | one layer => [layer]
  | two upper lower => upper.layers ++ lower.layers

/-- The one layer that they make up. -/
def together : Grouping → Layer
  | none => {}
  | one layer => layer
  | two upper lower => upper.together.onTopOf lower.together

theorem of_together (grouping : Grouping) (field : Field) :
    field.of grouping.together = grouping.layers.findSome? field.of := by
  induction grouping with
  | none => exact field.of_empty
  | one layer => rw [layers, List.findSome?_singleton, together]
  | two upper lower upper_ih lower_ih =>
    rw [together, layers, Field.of_onTopOf, upper_ih, lower_ih, List.findSome?_append]

end Grouping

/-!
## Layers in texts

Layers may come as texts, one after the other, each to go below those that are there already. A text that holds no layer
is an error, and the layers that are there stay as they are.
-/

/-- What comes of a text: the run that its layer and those above describe, and the layers that are there then. -/
def take (above : Layer) (text : String) : Except Error RunConfig × Layer :=
  match parse text with
  | .ok layer => (.ok (resolveOver (some layer) above), above.onTopOf layer)
  | .error error => (.error error, above)

/-- The layers that are there when some texts are through. -/
def takeAll (above : Layer) : List String → Layer
  | [] => above
  | text :: texts => takeAll (take above text).2 texts

/-- The layers of the texts that hold one. -/
def parsed (texts : List String) : List Layer := texts.filterMap fun text => (parse text).toOption

theorem of_takeAll (field : Field) (above : Layer) (texts : List String) :
    field.of (takeAll above texts) = (field.of above).or ((parsed texts).findSome? field.of) := by
  induction texts generalizing above with
  | nil => exact Option.or_none.symm
  | cons text texts ih =>
    rw [takeAll, ih, take, parsed, parsed, List.filterMap_cons]
    cases parse text with
    | error => rfl
    | ok layer =>
      rw [Field.of_onTopOf, Option.or_assoc, Except.toOption, List.findSome?_cons]
      cases field.of layer <;> rfl

/-- All that layering promises. Grouping does not matter, and the empty layer does not either; a stack has for a field
what its first layer has that sets it; a run has it from the command line, else from the file, else the default; a run
that is made a layer again is changed by what is below only in its output and its language; and of texts that are read
one after the other, those that hold no layer might as well not be there. -/
theorem stacks_of_layers :
    (∀ upper middle lower : Layer,
      (upper.onTopOf middle).onTopOf lower = upper.onTopOf (middle.onTopOf lower)) ∧
    (∀ layer : Layer, onTopOf {} layer = layer ∧ layer.onTopOf {} = layer) ∧
    (∀ (grouping : Grouping) (field : Field),
      field.of grouping.together = grouping.layers.findSome? field.of) ∧
    (∀ (file : Option Layer) (commandLine : Layer) (field : Field),
      field.inRun (resolveOver file commandLine) =
        ((field.of commandLine).or (file.bind field.of)).or field.start) ∧
    (∀ layer below : Layer,
      (ofRun layer.resolve).onTopOf below =
          { ofRun layer.resolve with
            output := layer.output.or below.output, language := layer.language.or below.language } ∧
        ((ofRun layer.resolve).onTopOf below).resolve =
          { layer.resolve with
            output := layer.output.or below.output, language := layer.language.or below.language }) ∧
    (∀ (above : Layer) (before after : List String) (text : String) (error : Error),
      parse text = .error error →
        (takeAll above before).take text = (.error error, takeAll above before) ∧
        takeAll above (before ++ text :: after) = takeAll above (before ++ after)) := by
  refine ⟨onTopOf_assoc, fun layer => ⟨empty_onTopOf layer, onTopOf_empty layer⟩, Grouping.of_together, ?_, ?_, ?_⟩
  · intro file commandLine field
    rw [resolveOver, Field.inRun_resolve, Field.of_onTopOf]
    cases file with
    | none => rw [Option.getD_none, Field.of_empty, Option.bind_none]
    | some layer => rfl
  · intro layer below
    have hback := ofRun_onTopOf layer.resolve below
    exact ⟨hback, by rw [hback]; rfl⟩
  · intro above before after text error herror
    refine ⟨by rw [take, herror], eq_of_fields fun field => ?_⟩
    have hparsed : parsed (before ++ text :: after) = parsed (before ++ after) := by
      simp only [parsed, List.filterMap_append, List.filterMap_cons, herror, Except.toOption]
    rw [of_takeAll, of_takeAll, hparsed]

/-- A text that breaks off between two that hold a layer. -/
theorem stacks_around_broken_text :
    parse "\x7b level: " =
        .error (.config
          "Failed to parse codeshrink.config.json: key must be a string at line 1 column 3") ∧
      takeAll {} ["\x7b\"level\":\"light\"\x7d", "\x7b level: ", "\x7b\"watch\":true\x7d"] =
        takeAll {} ["\x7b\"level\":\"light\"\x7d", "\x7b\"watch\":true\x7d"] := by
  have hbroken :
      parse "\x7b level: " =
        .error (.config
          "Failed to parse codeshrink.config.json: key must be a string at line 1 column 3") := by
    decide +kernel
  obtain ⟨-, -, -, -, -, htexts⟩ := stacks_of_layers
  exact ⟨hbroken, (htexts {} ["\x7b\"level\":\"light\"\x7d"] ["\x7b\"watch\":true\x7d"] _ _ hbroken).2⟩

/-- The upper layer wins, the lower one fills what is open, and the default fills the rest. -/
example :
    resolveOver (some { output := some "build", level := some .light, removeConsoleLog := some true })
      { input := some "src", level := some .aggressive } =
    { input := "src", output := some "build", options := { level := .aggressive, removeConsoleLog := true } } := rfl

end Minifier.Layer
