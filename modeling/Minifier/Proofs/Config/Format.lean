import Minifier.Proofs.Config.Options
import Minifier.Target.Deploy

/-!
Runs and layers that are written and read again. Every layer is read back from what is written for it, and so
is every run, whether its JSON is at hand or in a text.
-/

namespace Minifier

open Json

variable {α ρ : Type}

/-! ### Fields that may be left out -/

namespace Json.Written

/-- A field that is written if there is a value for it. -/
def given (name : String) (decoder : Decoder α) (set : Option α → ρ → ρ) (write : α → Json) :
    Option α → List (Written ρ)
  | some value => [.of name false (.optional decoder) set (write value) (some value)]
  | none => []

variable {name : String} {decoder : Decoder α} {set : Option α → ρ → ρ} {write : α → Json} {value : Option α}

theorem map_member_given : (given name decoder set write value).map member = Members.given name write value := by
  cases value <;> rfl

theorem sublist_given : ((given name decoder set write value).map fun entry => entry.field.name).Sublist [name] := by
  cases value with
  | none => exact List.nil_sublist _
  | some value => exact List.Sublist.refl _

/-- A field that is left out is as good as set to nothing, where it was not set before. -/
theorem foldl_given {start : ρ} (h : set none start = start) :
    (given name decoder set write value).foldl (fun value entry => entry.set value) start = set value start := by
  cases value with
  | none => exact h.symm
  | some value => rfl

theorem decodedIn_given {record : Record ρ}
    (hfound : record.field? name = some ⟨name, false, (Decoder.optional decoder).map set⟩)
    (hdecodes : ∀ value, decoder.Decodes (write value) value) (hplain : ∀ value, (write value).IsPlain) :
    ∀ entry ∈ given name decoder set write value, entry.DecodedIn record ∧ entry.json.IsPlain := by
  cases value with
  | none => nofun
  | some value =>
    rw [given, List.forall_mem_singleton]
    exact ⟨decodedIn_of hfound ((hdecodes value).optional (hplain value).ne_null), hplain value⟩

end Json.Written

/-- What holds of what is written for each field holds of the value of each member. -/
theorem Json.Written.forall_mem_map_member {motive : Json → Prop} {written : List (Written ρ)}
    (h : ∀ entry ∈ written, motive entry.json) : ∀ found ∈ written.map member, motive found.2 := by
  intro found hfound
  obtain ⟨entry, hentry, rfl⟩ := List.mem_map.mp hfound
  exact h entry hentry

/-! ### Layers -/

namespace Layer

/-- The fields of a layer as they are written. -/
def written (layer : Layer) : List (Written Layer) :=
  Written.given "input" .string (fun v l => { l with input := v }) .string layer.input ++
    Written.given "output" .string (fun v l => { l with output := v }) .string layer.output ++
    Written.given "language" Language.decoder (fun v l => { l with language := v }) (fun v => .string v.name)
      layer.language ++
    Written.given "level" Level.decoder (fun v l => { l with level := v }) (fun v => .string v.name) layer.level ++
    Written.given "recursive" .bool (fun v l => { l with recursive := v }) .bool layer.recursive ++
    Written.given "watch" .bool (fun v l => { l with watch := v }) .bool layer.watch ++
    Written.given "removeComments" .bool (fun v l => { l with removeComments := v }) .bool layer.removeComments ++
    Written.given "removeWhitespace" .bool (fun v l => { l with removeWhitespace := v }) .bool layer.removeWhitespace ++
    Written.given "removeEmptyLines" .bool (fun v l => { l with removeEmptyLines := v }) .bool layer.removeEmptyLines ++
    Written.given "preserveLineBreaks" .bool (fun v l => { l with preserveLineBreaks := v }) .bool
      layer.preserveLineBreaks ++
    Written.given "mangleVariables" .bool (fun v l => { l with mangleVariables := v }) .bool layer.mangleVariables ++
    Written.given "removeConsoleLog" .bool (fun v l => { l with removeConsoleLog := v }) .bool layer.removeConsoleLog ++
    Written.given "removeDebugger" .bool (fun v l => { l with removeDebugger := v }) .bool layer.removeDebugger

theorem toJson_eq (layer : Layer) : layer.toJson = .object (layer.written.map Written.member) := by
  simp only [written, List.map_append, Written.map_member_given]
  rfl

/-- All fields together make up the layer. -/
theorem foldl_written (layer : Layer) :
    layer.written.foldl (fun value entry => entry.set value) record.start = layer := by
  rw [record]
  simp (disch := rfl) only [written, List.foldl_append, Written.foldl_given]

theorem decodedIn_written (layer : Layer) :
    ∀ entry ∈ layer.written, entry.DecodedIn record ∧ entry.json.IsPlain := by
  simp only [written, List.forall_mem_append, and_assoc]
  refine ⟨?_, ?_, ?_, ?_, ?_⟩
  · exact Written.decodedIn_given rfl Decoder.decodes_string fun _ => trivial
  · exact Written.decodedIn_given rfl Decoder.decodes_string fun _ => trivial
  · exact Written.decodedIn_given rfl Language.decodes_name fun _ => trivial
  · exact Written.decodedIn_given rfl Level.decodes_name fun _ => trivial
  · refine ⟨?_, ?_, ?_, ?_, ?_, ?_, ?_, ?_, ?_⟩
    all_goals exact Written.decodedIn_given rfl Decoder.decodes_bool fun _ => trivial

/-- The fields that are written are fields of the record in its order. -/
theorem sublist_written (layer : Layer) :
    (layer.written.map fun entry => entry.field.name).Sublist (record.fields.map Field.name) := by
  simp only [written, List.map_append]
  change List.Sublist _ (["input"] ++ ["output"] ++ ["language"] ++ ["level"] ++ ["recursive"] ++ ["watch"] ++
    ["removeComments"] ++ ["removeWhitespace"] ++ ["removeEmptyLines"] ++ ["preserveLineBreaks"] ++
    ["mangleVariables"] ++ ["removeConsoleLog"] ++ ["removeDebugger"])
  repeat refine List.Sublist.append ?_ Written.sublist_given
  exact Written.sublist_given

theorem fits_written (layer : Layer) : record.Fits layer.written where
  decoded entry hentry := (layer.decodedIn_written entry hentry).1
  names := layer.sublist_written.nodup (by simp [record, Field.optional])
  required := by simp [record, Field.optional]

/-- A layer is read back from every document that gives the members that are written for it. -/
theorem parse_document (layer : Layer) {document : Document} {inner : Blanks} {fields : Fields}
    (hsource : document.source = .object inner fields)
    (hgiven : fields.given? = some (layer.written.map Written.member)) : parse document.text = .ok layer := by
  have hparse : decoder.parse document.text = .ok layer := by
    refine Decoder.parse_document fun rest => ?_
    rw [hsource, decoder, layer.fits_written.read document.before inner hgiven rest, foldl_written]
  rw [parse, hparse]
  rfl

theorem parse_pretty (layer : Layer) : parse layer.toJson.pretty = .ok layer := by
  have hplain := Written.forall_mem_map_member fun entry hentry => (layer.decodedIn_written entry hentry).2
  obtain ⟨fields, hgiven, htext⟩ := exists_text_eq_pretty hplain
  rw [toJson_eq, ← htext]
  exact layer.parse_document rfl hgiven

end Layer

/-! ### Runs -/

namespace RunConfig

/-- The fields of a run apart from its options as they are written. -/
def written (config : RunConfig) : List (Written RunConfig) :=
  [.of "input" false .string (fun v c => { c with input := v }) (.string config.input) config.input] ++
    Written.given "output" .string (fun v c => { c with output := v }) .string config.output ++
    Written.given "language" Language.decoder (fun v c => { c with language := v }) (fun v => .string v.name)
      config.language ++
    [.of "recursive" false .bool (fun v c => { c with recursive := v }) (.bool config.recursive) config.recursive,
      .of "watch" false .bool (fun v c => { c with watch := v }) (.bool config.watch) config.watch]

/-- The fields of a run and those of its options make up what is written for it. -/
theorem toJson_eq (config : RunConfig) :
    config.toJson =
      .object (config.written.map Written.member ++ config.options.written.map Written.member) := by
  simp only [written, List.map_append, Written.map_member_given, Options.map_member_written]
  rfl

theorem foldl_written (config : RunConfig) :
    config.written.foldl (fun value entry => entry.set value) record.start = { config with options := {} } := by
  rw [record]
  simp (disch := rfl) only [written, Written.of, List.foldl_append, Written.foldl_given, List.foldl_cons,
    List.foldl_nil]

theorem decodedIn_written (config : RunConfig) :
    ∀ entry ∈ config.written, entry.DecodedIn record ∧ entry.json.IsPlain := by
  simp only [written, List.forall_mem_append, List.forall_mem_cons, and_assoc]
  refine ⟨Written.decodedIn_of rfl (Decoder.decodes_string _), trivial, nofun,
    Written.decodedIn_given rfl Decoder.decodes_string fun _ => trivial,
    Written.decodedIn_given rfl Language.decodes_name fun _ => trivial,
    Written.decodedIn_of rfl (Decoder.decodes_bool _), trivial,
    Written.decodedIn_of rfl (Decoder.decodes_bool _), trivial, nofun⟩

theorem sublist_written (config : RunConfig) :
    (config.written.map fun entry => entry.field.name).Sublist (record.fields.map Field.name) := by
  simp only [written, List.map_append]
  change List.Sublist _ (["input"] ++ ["output"] ++ ["language"] ++ ["recursive", "watch"])
  exact (((List.Sublist.refl _).append Written.sublist_given).append Written.sublist_given).append
    (List.Sublist.refl _)

theorem fits_written (config : RunConfig) : record.Fits config.written where
  decoded entry hentry := (config.decodedIn_written entry hentry).1
  names := config.sublist_written.nodup (by simp [record, Field.optional])
  required := by simp [record, Field.optional]

/-- No option has the name of another field of a run. -/
theorem fitsFlattened_written (config : RunConfig) :
    Record.FitsFlattened record Options.record config.written config.options.written where
  own := config.fits_written
  kept := config.options.fits_written
  apart := by
    rw [Options.map_member_written]
    simp [Options.members, record, Record.field?, Field.optional]
  scalar := Written.forall_mem_map_member fun entry hentry =>
    (config.options.decodedIn_written entry hentry).2.isScalar

theorem take_toJson (config : RunConfig) : decoder.take config.toJson = .ok config := by
  have htake := config.fitsFlattened_written.take
  rw [← toJson_eq, foldl_written, Options.foldl_written] at htake
  exact congrArg (Except.map _) htake

/-- A run is read back from every document that gives the members that are written for it. -/
theorem parse_document (config : RunConfig) {document : Document} {inner : Blanks} {fields : Fields}
    (hsource : document.source = .object inner fields)
    (hgiven : fields.given? =
      some (config.written.map Written.member ++ config.options.written.map Written.member)) :
    decoder.parse document.text = .ok config := by
  refine Decoder.parse_document fun rest => ?_
  have hread := config.fitsFlattened_written.read document.before inner hgiven rest
  rw [foldl_written, Options.foldl_written] at hread
  rw [hsource]
  exact congrArg (Except.map _) hread

/-- What a run is written as is a configuration file that describes the run, and a JSON object that is taken for
the run, at hand as well as in a text. -/
theorem exists_parse_configFile (config : RunConfig) :
    (∃ layer, Layer.parse (Target.configFile config) = .ok layer ∧ layer.resolve = config) ∧
      decoder.take config.toJson = .ok config ∧
      decoder.parse config.toJson.compact = .ok config ∧
      decoder.parse config.toJson.pretty = .ok config := by
  have hplain : ∀ member ∈ config.written.map Written.member ++ config.options.written.map Written.member,
      member.2.IsPlain := List.forall_mem_append.mpr
    ⟨Written.forall_mem_map_member fun entry hentry => (config.decodedIn_written entry hentry).2,
      Written.forall_mem_map_member fun entry hentry => (config.options.decodedIn_written entry hentry).2⟩
  obtain ⟨bare, hbare, hcompact⟩ := exists_text_eq_compact hplain
  obtain ⟨laid, hlaid, hpretty⟩ := exists_text_eq_pretty hplain
  rw [← toJson_eq] at hcompact hpretty
  refine ⟨⟨Layer.ofRun config, (Layer.ofRun config).parse_pretty, Layer.resolve_ofRun config⟩,
    config.take_toJson, ?_, ?_⟩
  · rw [← hcompact]
    exact config.parse_document rfl hbare
  · rw [← hpretty]
    exact config.parse_document rfl hlaid

end RunConfig

end Minifier
