import Mathlib.Data.List.Nodup
import Minifier.CommandLine.Parser
import Minifier.Proofs.Config.Options
import Minifier.Proofs.Entries
import Minifier.Proofs.Target.Command

/-!
Command lines on which every flag stands under its long name, with its value, if it takes one, in the next
argument. Such a line is read as setting each of its flags, whatever their order, and what begins with no dash
is never taken for a flag or a command. So the arguments that are written for a run are read back: flag by flag, what
is written is what the command line takes it to set, and what is left out has its default.
-/

namespace Minifier.CommandLine

variable {parameter : Parameter} {name value : String} {entries : List (Parameter × String)}

/-! ### Flags and values -/

/-- The arguments that set a flag. -/
def Parameter.spelled (parameter : Parameter) (value : String) : List String :=
  match parameter.long? with
  | none => []
  | some name => if parameter.takesValue then ["--" ++ name, value] else ["--" ++ name]

/-- What a flag of a run can be set to: something that its check lets pass, that is not taken for a flag itself,
and nothing if it takes no value. -/
structure Parameter.Settable (parameter : Parameter) (value : String) : Prop where
  ofRun : parameter ∈ ofRun
  noDash : value.toList.head? ≠ some '-'
  checked : parameter.check value = .ok ()
  alone : parameter.takesValue = false → value = ""

theorem Parameter.exists_long? (h : parameter ∈ ofRun) : ∃ name, parameter.long? = some name := by
  have hsome : ∀ parameter ∈ ofRun, parameter.long?.isSome = true := by decide
  exact Option.isSome_iff_exists.mp (hsome parameter h)

/-- A long name has no equals sign, and it is the name of one flag only. -/
theorem Parameter.longName (h : parameter ∈ ofRun) (hname : parameter.long? = some name) :
    name.toList ≠ [] ∧ name.toList.takeWhile (· != '=') = name.toList ∧
      Verb.minify.long? name = some parameter := by
  have hnames : ∀ parameter ∈ ofRun, ∀ name ∈ parameter.long?, name.toList ≠ [] ∧
      name.toList.takeWhile (· != '=') = name.toList ∧ Verb.minify.long? name = some parameter := by
    decide
  exact hnames parameter h name hname

/-- What begins with a dash is no word of a command. -/
theorem ofWord?_eq_none {text : String} (h : text.toList.head? = some '-') :
    Verb.ofWord? text = none ∧ (text == "help") = false := by
  have hne {word : String} (hword : word.toList.head? ≠ some '-') : text ≠ word := by
    rintro rfl
    exact hword h
  refine ⟨?_, beq_false_of_ne (hne (by decide))⟩
  rw [Verb.ofWord?]
  · exact hne (by decide)
  · exact hne (by decide)
  · exact hne (by decide)

namespace Reading

variable {reading : Reading}

theorem take_long (h : parameter ∈ Parameter.ofRun) (hname : parameter.long? = some name)
    (hoperands : reading.operandsOnly = false) :
    reading.take .minify ("--" ++ name) = reading.takeFlag parameter none := by
  obtain ⟨hne, hwhole, hflag⟩ := Parameter.longName h hname
  have hlong : reading.takeLong .minify name.toList = reading.takeFlag parameter none := by
    rw [takeLong, hwhole, String.ofList_toList, hflag, List.drop_length]
  have htext : ("--" ++ name).toList = '-' :: '-' :: name.toList := by
    rw [String.toList_append]
    rfl
  obtain ⟨c, rest, hcons⟩ := List.exists_cons_of_ne_nil hne
  rw [← hlong, take, hoperands, htext, hcons]
  rfl

theorem readLine_long (h : parameter ∈ Parameter.ofRun) (hname : parameter.long? = some name)
    (hoperands : reading.operandsOnly = false) (rest : List String) :
    readLine (("--" ++ name) :: rest) reading = reading.takeFlag parameter none >>= readLine rest := by
  have hword : Verb.ofWord? ("--" ++ name) = none ∧ ("--" ++ name == "help") = false := by
    refine ofWord?_eq_none ?_
    rw [String.toList_append]
    rfl
  rw [readLine, hword.1, hword.2, Bool.and_false, ite_self, take_long h hname hoperands]
  rfl

/-- A value is what follows the flag, also if it is the word of a command. -/
theorem readLine_value (hvalue : value.toList.head? ≠ some '-') (rest : List String) :
    readLine (value :: rest) { accepted := entries, pending := some (parameter, none), begun := true } =
      readLine rest { accepted := entries, pending := some (parameter, some value), begun := true } := by
  rw [readLine, take]
  cases htext : value.toList with
  | nil => rfl
  | cons c text =>
    have hdash : c ≠ '-' := by
      rintro rfl
      exact hvalue (by rw [htext]; rfl)
    simp [hdash]
    rfl

/-! ### One flag after the other -/

theorem accept_eq (h : parameter.Settable value) (hnew : parameter ∉ entries.map Prod.fst) (begun : Bool) :
    accept { accepted := entries, begun } parameter value =
      .ok { accepted := (parameter, value) :: entries, begun } := by
  have hhas : has { accepted := entries, begun } parameter = false := by
    rw [has, List.any_eq_false]
    intro entry hentry heq
    exact hnew (List.mem_map.mpr ⟨entry, hentry, beq_iff_eq.mp heq⟩)
  have hofRun := h.ofRun
  rw [accept, hhas, h.checked]
  case x_1 =>
    rintro rfl
    exact absurd hofRun (by decide)
  case x_2 =>
    rintro rfl
    exact absurd hofRun (by decide)
  rfl

/-- What has been read sets these entries, the last of which may still wait for its value to be looked at. -/
inductive Sets : Reading → List (Parameter × String) → Prop where
  | settled (accepted : List (Parameter × String)) (begun : Bool) : Sets { accepted, begun } accepted
  | waiting {accepted : List (Parameter × String)} {flag : Parameter} {text : String}
      (h : flag.Settable text) (hnew : flag ∉ accepted.map Prod.fst) :
      Sets { accepted, pending := some (flag, some text), begun := true } ((flag, text) :: accepted)

theorem Sets.operandsOnly (h : reading.Sets entries) : reading.operandsOnly = false := by
  cases h <;> rfl

theorem Sets.settle_begun (h : reading.Sets entries) :
    { reading with begun := true }.settle = .ok { accepted := entries, begun := true } := by
  cases h with
  | settled => rfl
  | waiting h hnew => exact accept_eq h hnew true

theorem Sets.exists_settle (h : reading.Sets entries) :
    ∃ begun, reading.settle = .ok { accepted := entries, begun } := by
  cases h with
  | settled _ begun => exact ⟨begun, rfl⟩
  | waiting h hnew => exact ⟨true, accept_eq h hnew true⟩

theorem Sets.exists_readLine_spelled (hsets : reading.Sets entries) (h : parameter.Settable value)
    (hnew : parameter ∉ entries.map Prod.fst) (rest : List String) :
    ∃ next, readLine (parameter.spelled value ++ rest) reading = readLine rest next ∧
      next.Sets ((parameter, value) :: entries) := by
  obtain ⟨name, hname⟩ := Parameter.exists_long? h.ofRun
  rw [Parameter.spelled, hname]
  cases htakes : parameter.takesValue with
  | true =>
    refine ⟨_, ?_, .waiting h hnew⟩
    simp only [if_true, List.cons_append, List.nil_append]
    rw [readLine_long h.ofRun hname hsets.operandsOnly, takeFlag, hsets.settle_begun]
    simp only [bind, Except.bind, htakes, if_true]
    exact readLine_value h.noDash rest
  | false =>
    refine ⟨_, ?_, .settled _ true⟩
    obtain rfl := h.alone htakes
    simp only [Bool.false_eq_true, if_false, List.cons_append, List.nil_append]
    rw [readLine_long h.ofRun hname hsets.operandsOnly, takeFlag, hsets.settle_begun]
    simp only [bind, Except.bind, htakes, Bool.false_eq_true, if_false, accept_eq h hnew true]

/-- The induction is on the flags. What was set before stays, so each flag has to be a new one. -/
theorem Sets.exists_readLine {given : List (Parameter × String)} (hsets : reading.Sets entries)
    (h : ∀ entry ∈ given, entry.1.Settable entry.2) (hnodup : ((given.reverse ++ entries).map Prod.fst).Nodup) :
    ∃ last, readLine (given.flatMap fun entry => entry.1.spelled entry.2) reading = readLine [] last ∧
      last.Sets (given.reverse ++ entries) := by
  induction given generalizing reading entries with
  | nil => exact ⟨reading, rfl, hsets⟩
  | cons entry given ih =>
    rw [List.forall_mem_cons] at h
    rw [List.reverse_cons, List.append_assoc, List.singleton_append] at hnodup ⊢
    have hnew : entry.1 ∉ entries.map Prod.fst := by
      rw [List.map_append, List.map_cons] at hnodup
      exact (List.nodup_cons.mp (List.nodup_append.mp hnodup).2.1).1
    obtain ⟨next, hread, hnext⟩ := hsets.exists_readLine_spelled h.1 hnew
      (given.flatMap fun entry => entry.1.spelled entry.2)
    obtain ⟨last, hrest, hlast⟩ := ih hnext h.2 hnodup
    exact ⟨last, by rw [List.flatMap_cons, hread, hrest], hlast⟩

/-- No flag of a run asks to be told more or less. -/
theorem Sets.finish_eq (hsets : reading.Sets entries) (h : ∀ entry ∈ entries, entry.1 ∈ Parameter.ofRun) :
    reading.finish .minify = .ok entries := by
  obtain ⟨begun, hsettle⟩ := hsets.exists_settle
  have hverbose : has { accepted := entries, begun } .verbose = false := by
    rw [has, List.any_eq_false]
    intro entry hentry hbeq
    have hofRun := h entry hentry
    rw [beq_iff_eq.mp hbeq] at hofRun
    exact absurd hofRun (by decide)
  rw [finish, hsettle]
  simp only [bind, Except.bind, hverbose, Bool.false_and, Bool.false_eq_true, if_false]
  rfl

end Reading

/-! ### Whole lines -/

theorem valueOf_eq_none (h : ∀ entry ∈ entries, entry.1 ∈ Parameter.ofRun)
    (hparameter : parameter ∉ Parameter.ofRun) : valueOf entries parameter = none := by
  rw [valueOf, List.lookup_eq_none_iff]
  intro entry hentry
  rw [bne_iff_ne]
  rintro rfl
  exact hparameter (h entry hentry)

/-- A line that sets flags of a run, each once, asks for that run and nothing else. -/
theorem parse_spelled {given : List (Parameter × String)} (h : ∀ entry ∈ given, entry.1.Settable entry.2)
    (hnodup : (given.map Prod.fst).Nodup) :
    parse (given.flatMap fun entry => entry.1.spelled entry.2) =
      .ok { command := .minify (runRequest given.reverse) } := by
  have hreverse : ((given.reverse ++ []).map Prod.fst).Nodup := by
    rwa [List.append_nil, List.map_reverse, List.nodup_reverse]
  obtain ⟨last, hread, hlast⟩ := (Reading.Sets.settled [] false).exists_readLine h hreverse
  rw [List.append_nil] at hlast
  have hofRun : ∀ entry ∈ given.reverse, entry.1 ∈ Parameter.ofRun :=
    fun entry hentry => (h entry (List.mem_reverse.mp hentry)).ofRun
  have hverbose : valueOf given.reverse .verbose = none := valueOf_eq_none hofRun (by decide)
  have hquiet : valueOf given.reverse .quiet = none := valueOf_eq_none hofRun (by decide)
  rw [parse, hread, Reading.readLine, hlast.finish_eq hofRun]
  simp only [Except.map, bind, Except.bind, commandOf, hverbose, hquiet]
  rfl

end Minifier.CommandLine

namespace Minifier

theorem Language.ofSpelling?_name (language : Language) : ofSpelling? language.name = some language := by
  cases language <;> rfl

theorem Level.ofSpelling?_name (level : Level) : ofSpelling? level.name = some level := by
  cases level <;> rfl

namespace CommandLine

open Target

/-! ### Flags that are set once -/

/-- The flags among some that have a value, with their values. -/
def settingsOf (value? : Parameter → Option String) (flags : List Parameter) : List (Parameter × String) :=
  flags.flatMap fun flag => ((value? flag).map fun value => (flag, value)).toList

variable {value? : Parameter → Option String} {flags : List Parameter} {flag : Parameter}

theorem mem_settingsOf {entry : Parameter × String} :
    entry ∈ settingsOf value? flags ↔ entry.1 ∈ flags ∧ value? entry.1 = some entry.2 := by
  obtain ⟨flag, value⟩ := entry
  simp [settingsOf]

theorem map_fst_settingsOf_sublist (value? : Parameter → Option String) (flags : List Parameter) :
    ((settingsOf value? flags).map Prod.fst).Sublist flags := by
  induction flags with
  | nil => exact .slnil
  | cons flag flags ih =>
    rw [settingsOf, List.flatMap_cons, List.map_append]
    cases value? flag with
    | none => exact ih.cons flag
    | some value => exact ih.cons_cons flag

/-- Since no flag is there twice, each has its own value also when the latest counts. -/
theorem valueOf_reverse_settingsOf (hnodup : flags.Nodup) (hflag : flag ∈ flags) :
    valueOf (settingsOf value? flags).reverse flag = value? flag := by
  have hlookup (value : String) :
      (settingsOf value? flags).reverse.lookup flag = some value ↔ value? flag = some value := by
    have hkeys : ((settingsOf value? flags).reverse.map Prod.fst).Nodup := by
      rw [List.map_reverse, List.nodup_reverse]
      exact hnodup.sublist (map_fst_settingsOf_sublist value? flags)
    rw [Entries.lookup_eq_some_iff_mem hkeys, List.mem_reverse, mem_settingsOf]
    exact and_iff_right hflag
  exact Option.ext hlookup

/-! ### What a run sets -/

/-- The flags of a run in the order in which they are written. -/
def writtenFlags : List Parameter :=
  [.input, .output, .language, .level, .recursive, .watch, .keepComments, .keepWhitespace, .mangleVariables,
   .removeConsole, .keepDebugger, .preserveLineBreaks, .keepEmptyLines, .config]

/-- A flag without a value. It is written if a switch is not as it is without the flag. -/
def onlyIf (condition : Bool) : Option String := if condition then some "" else none

/-- What a run sets a flag to. It names no file of further settings, since it has them all. -/
def settingIn (config : RunConfig) : Parameter → Option String
  | .input => some config.input
  | .output => config.output
  | .language => config.language.map Language.name
  | .level =>
    if config.options.level = ({} : Options).level then none else some config.options.level.name
  | .recursive => onlyIf config.recursive
  | .watch => onlyIf config.watch
  | .keepComments => onlyIf (config.options.removeComments != ({} : Options).removeComments)
  | .keepWhitespace => onlyIf (config.options.removeWhitespace != ({} : Options).removeWhitespace)
  | .mangleVariables => onlyIf (config.options.mangleVariables != ({} : Options).mangleVariables)
  | .removeConsole => onlyIf (config.options.removeConsoleLog != ({} : Options).removeConsoleLog)
  | .keepDebugger => onlyIf (config.options.removeDebugger != ({} : Options).removeDebugger)
  | .preserveLineBreaks => onlyIf (config.options.preserveLineBreaks != ({} : Options).preserveLineBreaks)
  | .keepEmptyLines => onlyIf (config.options.removeEmptyLines != ({} : Options).removeEmptyLines)
  | _ => none

theorem words_flagIf (condition : Bool) (flag : String) :
    (flagIf condition flag).flatMap (fun flag => (Argument.switch flag).words) =
      (onlyIf condition).toList.flatMap fun _ => [flag] := by
  cases condition <;> rfl

theorem spelled_setting (flag : Parameter) (value : Option String) :
    (value.map fun value => (flag, value)).toList.flatMap (fun entry => entry.1.spelled entry.2) =
      value.toList.flatMap flag.spelled := by
  cases value <;> rfl

/-- Each argument of a run is the spelling of what the run sets its flag to. -/
theorem commandArguments_eq_spelled (config : RunConfig) :
    commandArguments config =
      (settingsOf (settingIn config) writtenFlags).flatMap fun entry => entry.1.spelled entry.2 := by
  have hlevel : (if config.options.level = ({} : Options).level then []
      else [Argument.word "--level" config.options.level.name]).flatMap Argument.words =
        (settingIn config .level).toList.flatMap Parameter.level.spelled := by
    rw [settingIn]
    split <;> rfl
  have hlanguage : config.language.toList.flatMap (fun language =>
      (Argument.word "--language" language.name).words) =
        (settingIn config .language).toList.flatMap Parameter.language.spelled := by
    rw [settingIn]
    cases config.language <;> rfl
  have hconfig : (settingIn config .config).toList.flatMap Parameter.config.spelled = [] := rfl
  rw [commandArguments_eq]
  simp only [argumentsOf, optionFlags, List.map_append, List.flatMap_append, words_flagIf, hlanguage,
    hlevel, hconfig, settingsOf, writtenFlags, List.flatMap_cons, List.flatMap_nil, spelled_setting, List.append_assoc,
    List.append_nil, List.flatMap_map]
  rfl

/-! ### Every setting is taken -/

theorem settable_settingIn {config : RunConfig} (hinput : config.input.toList.head? ≠ some '-')
    (houtput : ∀ output ∈ config.output, output.toList.head? ≠ some '-') {flag : Parameter} {value : String}
    (hvalue : settingIn config flag = some value) : flag.Settable value := by
  have halone {condition : Bool} (h : onlyIf condition = some value) : value = "" := by
    cases condition with
    | false => exact absurd h nofun
    | true => exact (Option.some.inj h).symm
  cases flag with
  | input =>
    obtain rfl : config.input = value := Option.some.inj hvalue
    exact ⟨by decide, hinput, rfl, nofun⟩
  | output => exact ⟨by decide, houtput value hvalue, rfl, nofun⟩
  | language =>
    obtain ⟨language, -, rfl⟩ := Option.map_eq_some_iff.mp hvalue
    refine ⟨by decide, ?_, ?_, nofun⟩
    · cases language <;> decide
    · rw [Parameter.check, language.ofSpelling?_name]
      rfl
  | level =>
    simp only [settingIn] at hvalue
    split at hvalue
    · exact absurd hvalue nofun
    · obtain rfl := Option.some.inj hvalue
      refine ⟨by decide, ?_, ?_, nofun⟩
      · cases config.options.level <;> decide
      · rw [Parameter.check, Level.ofSpelling?_name]
        rfl
  | config | verbose | quiet | help | version | target | file => exact absurd hvalue nofun
  | recursive | watch | keepComments | keepWhitespace | mangleVariables | removeConsole | keepDebugger
    | preserveLineBreaks | keepEmptyLines =>
    obtain rfl := halone hvalue
    exact ⟨by decide, by decide, rfl, fun _ => rfl⟩

/-! ### What the settings make up -/


/-- A switch that is written exactly if it is not as it is by default gets its own value back. -/
theorem getD_map_onlyIf (condition default : Bool) :
    ((onlyIf (condition != default)).map fun _ => !default).getD default = condition := by
  cases condition <;> cases default <;> rfl

theorem bind_ofSpelling?_language (language : Option Language) :
    (language.map Language.name).bind Language.ofSpelling? = language := by
  cases language with
  | none => rfl
  | some language => rw [Option.map_some, Option.bind_some, language.ofSpelling?_name]

theorem getD_bind_ofSpelling?_level (level default : Level) :
    ((if level = default then none else some level.name).bind Level.ofSpelling?).getD default = level := by
  split
  case isTrue hdefault => exact hdefault.symm
  case isFalse => rw [Option.bind_some, Level.ofSpelling?_name, Option.getD_some]

theorem resolveOver_runRequest {config : RunConfig} {accepted : List (Parameter × String)}
    (h : ∀ flag ∈ writtenFlags, valueOf accepted flag = settingIn config flag) :
    Layer.resolveOver none (runRequest accepted).settings = config := by
  simp only [writtenFlags, List.forall_mem_cons] at h
  obtain ⟨hinput, houtput, hlanguage, hlevel, hrecursive, hwatch, hcomments, hwhitespace, hmangle, hconsole,
    hdebugger, hbreaks, hlines, -⟩ := h
  rw [Layer.resolveOver, Option.getD_none, Layer.onTopOf_empty, Layer.resolve_eq_iff]
  simp only [runRequest, switch, hinput, houtput, hlanguage, hlevel, hrecursive, hwatch, hcomments,
    hwhitespace, hmangle, hconsole, hdebugger, hbreaks, hlines, settingIn]
  refine ⟨rfl, trivial, bind_ofSpelling?_language _, ?_, ?_, getD_bind_ofSpelling?_level _ _, ?_⟩
  · cases config.recursive <;> rfl
  · cases config.watch <;> rfl
  · exact ⟨getD_map_onlyIf _ true, getD_map_onlyIf _ true, getD_map_onlyIf _ true, getD_map_onlyIf _ false,
      getD_map_onlyIf _ false, getD_map_onlyIf _ false, getD_map_onlyIf _ true⟩

/-- The arguments that are written for a run whose paths begin with no dash are read as asking for that run: no
other command is meant, no file of settings is named, and on top of the defaults they set every field as the run
has it. -/
theorem parse_commandArguments (config : RunConfig) (hinput : config.input.toList.head? ≠ some '-')
    (houtput : ∀ output ∈ config.output, output.toList.head? ≠ some '-') :
    ∃ settings, parse (commandArguments config) = .ok { command := .minify { settings, config := none } } ∧
      Layer.resolveOver none settings = config := by
  have hnodup : writtenFlags.Nodup := by decide
  have hvalue (flag : Parameter) (hflag : flag ∈ writtenFlags) :
      valueOf (settingsOf (settingIn config) writtenFlags).reverse flag = settingIn config flag :=
    valueOf_reverse_settingsOf hnodup hflag
  have hsettable : ∀ entry ∈ settingsOf (settingIn config) writtenFlags, entry.1.Settable entry.2 :=
    fun entry hentry => settable_settingIn hinput houtput (mem_settingsOf.mp hentry).2
  have hkeys := hnodup.sublist (map_fst_settingsOf_sublist (settingIn config) writtenFlags)
  refine ⟨_, ?_, resolveOver_runRequest hvalue⟩
  have hconfig : (runRequest (settingsOf (settingIn config) writtenFlags).reverse).config = none :=
    hvalue .config (by decide)
  rw [commandArguments_eq_spelled, parse_spelled hsettable hkeys, ← hconfig]

/-- A run that differs from the defaults everywhere, and whose paths are the word of a command and nothing. -/
def everySetting : RunConfig where
  input := "worker"
  output := some ""
  language := some .cpp
  recursive := true
  watch := true
  options :=
    { level := .light, removeComments := false, removeWhitespace := false, removeEmptyLines := false,
      preserveLineBreaks := true, mangleVariables := true, removeConsoleLog := true, removeDebugger := false }

theorem parse_commandArguments_everySetting :
    commandArguments everySetting =
        ["--input", "worker", "--output", "", "--language", "cpp", "--level", "light", "--recursive", "--watch",
          "--keep-comments", "--keep-whitespace", "--mangle-variables", "--remove-console", "--keep-debugger",
          "--preserve-linebreaks", "--keep-empty-lines"] ∧
      everySetting.input.toList.head? ≠ some '-' ∧
      (∀ output ∈ everySetting.output, output.toList.head? ≠ some '-') ∧
      ∃ settings, parse (commandArguments everySetting) = .ok { command := .minify { settings, config := none } } ∧
        Layer.resolveOver none settings = everySetting := by
  have hinput : everySetting.input.toList.head? ≠ some '-' := by decide
  have houtput : ∀ output ∈ everySetting.output, output.toList.head? ≠ some '-' := by decide
  exact ⟨rfl, hinput, houtput, parse_commandArguments everySetting hinput houtput⟩

end CommandLine

end Minifier
