import Minifier.Config.Basic
import Minifier.Config.Format
import Minifier.Proofs.Json.Decoding

/-!
Options that are written and read again, and layers of settings. Languages and levels are known by their names, and
options are read back from what is written for them.
-/

namespace Minifier

open Json

theorem Language.ofName?_name (language : Language) : Language.ofName? language.name = some language := by
  cases language <;> rfl

theorem Level.ofName?_name (level : Level) : Level.ofName? level.name = some level := by
  cases level <;> rfl

theorem Language.decodes_name (language : Language) :
    Language.decoder.Decodes (.string language.name) language :=
  Decoder.decodes_choice language.ofName?_name

theorem Level.decodes_name (level : Level) : Level.decoder.Decodes (.string level.name) level :=
  Decoder.decodes_choice level.ofName?_name

namespace Options

/-- The fields of options as they are written. -/
def written (options : Options) : List (Written Options) :=
  [.of "level" false Level.decoder (fun v o => { o with level := v }) (.string options.level.name) options.level,
   .of "removeComments" false .bool (fun v o => { o with removeComments := v }) (.bool options.removeComments)
     options.removeComments,
   .of "removeWhitespace" false .bool (fun v o => { o with removeWhitespace := v })
     (.bool options.removeWhitespace) options.removeWhitespace,
   .of "removeEmptyLines" false .bool (fun v o => { o with removeEmptyLines := v })
     (.bool options.removeEmptyLines) options.removeEmptyLines,
   .of "preserveLineBreaks" false .bool (fun v o => { o with preserveLineBreaks := v })
     (.bool options.preserveLineBreaks) options.preserveLineBreaks,
   .of "mangleVariables" false .bool (fun v o => { o with mangleVariables := v })
     (.bool options.mangleVariables) options.mangleVariables,
   .of "removeConsoleLog" false .bool (fun v o => { o with removeConsoleLog := v })
     (.bool options.removeConsoleLog) options.removeConsoleLog,
   .of "removeDebugger" false .bool (fun v o => { o with removeDebugger := v }) (.bool options.removeDebugger)
     options.removeDebugger]

theorem map_member_written (options : Options) : options.written.map Written.member = options.members := by
  simp only [written, List.map_cons, List.map_nil]
  rfl

/-- All fields together make up the options, whatever they are set on. -/
theorem foldl_written (options start : Options) :
    options.written.foldl (fun value entry => entry.set value) start = options := by
  simp only [written, Written.of, List.foldl_cons, List.foldl_nil]

theorem decodedIn_written (options : Options) :
    ∀ entry ∈ options.written, entry.DecodedIn record ∧ entry.json.IsPlain := by
  simp only [written, List.forall_mem_cons]
  refine ⟨⟨Written.decodedIn_of rfl (Level.decodes_name _), trivial⟩, ?_, ?_, ?_, ?_, ?_, ?_, ?_,
    List.forall_mem_nil _⟩
  all_goals exact ⟨Written.decodedIn_of rfl (Decoder.decodes_bool _), trivial⟩

theorem fits_written (options : Options) : record.Fits options.written where
  decoded entry hentry := (options.decodedIn_written entry hentry).1
  names := by simp [written, Written.of]
  required := by simp [record, Field.optional]

theorem reads_toJson (options : Options) : decoder.Reads options.toJson options := by
  have hread : ∀ entry ∈ options.written, entry.ReadIn record := fun entry hentry =>
    (options.decodedIn_written entry hentry).1.readIn (options.decodedIn_written entry hentry).2
  have hreads := record.reads_written hread options.fits_written.names options.fits_written.required
  rw [map_member_written, foldl_written] at hreads
  exact hreads

/-- What is written for options holds no call. -/
theorem not_mem_pretty (options : Options) : '(' ∉ options.toJson.pretty.toList := by
  refine not_mem_pretty_object (by decide) ?_
  have hflag {key : String} (hkey : '(' ∉ (quote key).toList) (value : Bool) :
      (Json.bool value).IsPlain ∧ '(' ∉ (quote key).toList ∧ '(' ∉ (Json.bool value).compact.toList :=
    ⟨trivial, hkey, by cases value <;> decide⟩
  simp only [Options.members, List.forall_mem_cons]
  refine ⟨⟨trivial, by decide, ?_⟩, hflag (by decide) _, hflag (by decide) _, hflag (by decide) _,
    hflag (by decide) _, hflag (by decide) _, hflag (by decide) _, hflag (by decide) _, nofun⟩
  cases options.level <;> decide

end Options

end Minifier

/-!
## Layers of settings

The layer that sets nothing leaves any other as it is, a layer describes a run if each of
its fields, or else the default, is as the run has it, and the layer of a run describes that run.
-/

namespace Minifier.Layer

theorem onTopOf_empty (layer : Layer) : layer.onTopOf {} = layer := by
  simp only [onTopOf, Option.or_none]

theorem resolve_ofRun (config : RunConfig) : (ofRun config).resolve = config := rfl

theorem resolve_eq_iff {layer : Layer} {config : RunConfig} :
    layer.resolve = config ↔
      layer.input.getD "" = config.input ∧ layer.output = config.output ∧ layer.language = config.language ∧
      layer.recursive.getD false = config.recursive ∧ layer.watch.getD false = config.watch ∧
      layer.level.getD .moderate = config.options.level ∧
      layer.removeComments.getD true = config.options.removeComments ∧
      layer.removeWhitespace.getD true = config.options.removeWhitespace ∧
      layer.removeEmptyLines.getD true = config.options.removeEmptyLines ∧
      layer.preserveLineBreaks.getD false = config.options.preserveLineBreaks ∧
      layer.mangleVariables.getD false = config.options.mangleVariables ∧
      layer.removeConsoleLog.getD false = config.options.removeConsoleLog ∧
      layer.removeDebugger.getD true = config.options.removeDebugger := by
  obtain ⟨input, output, language, recursive, watch, ⟨⟩⟩ := config
  simp only [resolve, RunConfig.mk.injEq, Options.mk.injEq]

end Minifier.Layer
