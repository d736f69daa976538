import Minifier.Proofs.Files.Name
import Minifier.Proofs.Target.ShellText

/-!
What a shell makes of the commands that are written for it. A command is read as the program and the arguments
of the run, and a batch script as one such command for every file, whatever characters the paths hold.
-/

namespace Minifier

open Shell Target

/-- No path of a run holds the null character, which no argument of a program can hold. -/
structure RunConfig.NullFree (config : RunConfig) : Prop where
  input : '\x00' ∉ config.input.toList
  output : ∀ output ∈ config.output, '\x00' ∉ output.toList

namespace Target

variable {before : List String} {commands : List (List String)}

/-! ### Arguments -/

/-- The words of an argument as a program receives them. -/
def Argument.words : Argument → List String
  | path flag value => [flag, value]
  | word flag value => [flag, value]
  | switch flag => [flag]

theorem commandArguments_eq (config : RunConfig) :
    commandArguments config = (argumentsOf config).flatMap Argument.words :=
  rfl

/-- What is written without quotes needs none. -/
def Argument.Readable : Argument → Prop
  | path flag value => Reading.IsBare flag ∧ '\x00' ∉ value.toList
  | word flag value => Reading.IsBare flag ∧ Reading.IsBare value
  | switch flag => Reading.IsBare flag

/-- An argument is read as its words. -/
theorem Argument.exists_run_shell (before : List String) (commands : List (List String)) {argument : Argument}
    (h : argument.Readable) :
    ∃ next, Reading.run { words := before, commands } argument.shell.toList = .ok next ∧
      next.At (before ++ argument.words) commands := by
  have hend (flag value : String) : Reading.At { word := some value.toList, words := before ++ [flag], commands }
      (before ++ [flag, value]) commands := by
    have hword : Reading.At { word := some value.toList, words := before ++ [flag], commands }
        (before ++ [flag] ++ [value]) commands := Reading.at_word value
    rwa [List.append_assoc] at hword
  cases argument with
  | path flag value =>
    obtain ⟨hflag, hvalue⟩ := h
    refine ⟨_, ?_, hend flag value⟩
    have htext : (path flag value).shell.toList =
        flag.toList ++ ' ' :: ('"' :: (escapeDoubleQuoted value).toList ++ ['"']) := by
      simp [Argument.shell]
    rw [htext, Reading.run_append_of_run (Reading.run_isBare hflag),
      Reading.run_cons_of_step (Reading.at_word flag).step_space, Reading.run_quoted hvalue]
  | word flag value =>
    obtain ⟨hflag, hvalue⟩ := h
    refine ⟨_, ?_, hend flag value⟩
    have htext : (word flag value).shell.toList = flag.toList ++ ' ' :: value.toList := by
      simp [Argument.shell]
    rw [htext, Reading.run_append_of_run (Reading.run_isBare hflag),
      Reading.run_cons_of_step (Reading.at_word flag).step_space, Reading.run_isBare hvalue]
  | switch flag => exact ⟨_, Reading.run_isBare h, Reading.at_word flag⟩

/-- The induction is on the arguments: each finds the words of the ones before it. -/
theorem exists_run_arguments {arguments : List Argument} (h : ∀ argument ∈ arguments, argument.Readable)
    {reading : Reading} (hreading : reading.At before commands) :
    ∃ next, reading.run (arguments.flatMap fun argument => ' ' :: argument.shell.toList) = .ok next ∧
      next.At (before ++ arguments.flatMap Argument.words) commands := by
  induction arguments generalizing reading before with
  | nil => exact ⟨reading, rfl, by simpa using hreading⟩
  | cons argument arguments ih =>
    rw [List.forall_mem_cons] at h
    obtain ⟨next, hrun, hnext⟩ := Argument.exists_run_shell before commands h.1
    obtain ⟨last, hrest, hlast⟩ := ih h.2 hnext
    refine ⟨last, ?_, by simpa using hlast⟩
    rw [List.flatMap_cons, List.cons_append, Reading.run_cons_of_step hreading.step_space,
      Reading.run_append_of_run hrun, hrest]

/-! ### The arguments of a run -/

theorem isBare_language (language : Language) : Reading.IsBare language.name := by
  cases language <;> decide

theorem isBare_level (level : Level) : Reading.IsBare level.name := by
  cases level <;> decide

/-- The flags that stand on their own. -/
def switches : List String :=
  ["--recursive", "--watch", "--keep-comments", "--keep-whitespace", "--mangle-variables", "--remove-console",
    "--keep-debugger", "--preserve-linebreaks", "--keep-empty-lines"]

/-- The arguments of a run behind its paths. -/
def furtherArguments (config : RunConfig) : List Argument :=
  config.language.toList.map (fun language => .word "--language" language.name) ++
    (if config.options.level = ({} : Options).level then []
      else [.word "--level" config.options.level.name]) ++
    ((flagIf config.recursive "--recursive" ++ flagIf config.watch "--watch" ++
      optionFlags config.options).map .switch)

theorem argumentsOf_eq (config : RunConfig) :
    argumentsOf config =
      .path "--input" config.input ::
        (config.output.toList.map (Argument.path "--output") ++ furtherArguments config) := by
  simp [argumentsOf, furtherArguments]

theorem forall_flagIf {motive : Argument → Prop} (h : ∀ flag ∈ switches, motive (.switch flag)) {flag : String}
    (hflag : flag ∈ switches) (condition : Bool) :
    ∀ argument ∈ (flagIf condition flag).map Argument.switch, motive argument := by
  cases condition with
  | false => exact nofun
  | true => exact List.forall_mem_singleton.mpr (h flag hflag)

/-- What holds of every argument that may stand behind the paths holds of those of a run. -/
theorem forall_furtherArguments {motive : Argument → Prop}
    (hlanguage : ∀ language : Language, motive (.word "--language" language.name))
    (hlevel : ∀ level : Level, motive (.word "--level" level.name))
    (hswitch : ∀ flag ∈ switches, motive (.switch flag)) (config : RunConfig) :
    ∀ argument ∈ furtherArguments config, motive argument := by
  simp only [furtherArguments, optionFlags, List.map_append, List.forall_mem_append]
  refine ⟨⟨?_, ?_⟩, ⟨?_, ?_⟩, ⟨⟨⟨⟨⟨?_, ?_⟩, ?_⟩, ?_⟩, ?_⟩, ?_⟩, ?_⟩
  case refine_1 =>
    rw [List.forall_mem_map]
    exact fun language _ => hlanguage language
  case refine_2 =>
    split
    · exact nofun
    · exact List.forall_mem_singleton.mpr (hlevel _)
  all_goals exact forall_flagIf hswitch (by decide) _

theorem readable_argumentsOf {config : RunConfig} (h : config.NullFree) :
    ∀ argument ∈ argumentsOf config, argument.Readable := by
  rw [argumentsOf_eq, List.forall_mem_cons, List.forall_mem_append, List.forall_mem_map]
  refine ⟨⟨by decide, h.input⟩, ?_, ?_⟩
  · exact fun output houtput => ⟨by decide, h.output output (Option.mem_toList.mp houtput)⟩
  · refine forall_furtherArguments ?_ ?_ ?_ config
    · exact fun language => ⟨by decide, isBare_language language⟩
    · exact fun level => ⟨by decide, isBare_level level⟩
    · change ∀ flag ∈ switches, Reading.IsBare flag
      decide

/-! ### Commands -/

/-- A text built up piece by piece holds the pieces in order. -/
theorem toList_foldl_append {α : Type} (piece : α → String) (items : List α) (text : String) :
    (items.foldl (fun text item => text ++ piece item) text).toList =
      text.toList ++ items.flatMap fun item => (piece item).toList := by
  induction items generalizing text with
  | nil => simp
  | cons item items ih =>
    rw [List.foldl_cons, ih]
    simp

theorem toList_command (config : RunConfig) :
    (command config).toList =
      program.toList ++ (argumentsOf config).flatMap fun argument => ' ' :: argument.shell.toList := by
  have h := toList_foldl_append (fun argument : Argument => " " ++ argument.shell) (argumentsOf config) program
  simpa [command, String.append_assoc] using h

theorem exists_run_command {config : RunConfig} (h : config.NullFree) (commands : List (List String)) :
    ∃ next, Reading.run { commands } (command config).toList = .ok next ∧
      next.At (program :: commandArguments config) commands := by
  have hprogram : Reading.IsBare program := by decide
  have hstart : Reading.At { word := some program.toList, commands } [program] commands := Reading.at_word program
  obtain ⟨next, hrun, hnext⟩ := exists_run_arguments (readable_argumentsOf h) hstart
  refine ⟨next, ?_, ?_⟩
  · rw [toList_command, Reading.run_append_of_run (Reading.run_isBare hprogram), hrun]
  · rw [commandArguments_eq]
    exact hnext

/-! ### Scripts -/

theorem nullFree_perFile {config : RunConfig} {file : String} (hfile : '\x00' ∉ file.toList)
    (houtput : ∀ output ∈ config.output, '\x00' ∉ output.toList) : (perFile config file).NullFree where
  input := hfile
  output := by
    intro output houtput' hnull
    obtain rfl : FileName.inBatch file config.output = output := Option.some.inj houtput'
    rcases FileName.mem_inBatch hnull with hname | hmark | ⟨directory, hdirectory, hmem⟩
    · exact hfile hname
    · exact absurd hmark (by decide)
    · exact houtput directory hdirectory hmem

theorem toList_batchScript (files : List String) (config : RunConfig) :
    (batchScript files config).toList =
      "#!/bin/sh\n# Generated by codeshrink\nset -e\n\n".toList ++
        files.flatMap fun file => (command (perFile config file)).toList ++ ['\n'] := by
  have h := toList_foldl_append (fun file => command (perFile config file) ++ "\n") files
    "#!/bin/sh\n# Generated by codeshrink\nset -e\n\n"
  simpa [batchScript, String.append_assoc] using h

/-- The induction is on the files: each line ends its command, so the next one begins anew. -/
theorem run_lines {config : RunConfig} {files : List String}
    (h : ∀ file ∈ files, (perFile config file).NullFree) (commands : List (List String)) :
    Reading.run { commands } (files.flatMap fun file => (command (perFile config file)).toList ++ ['\n']) =
      .ok { commands := commands ++
        files.map fun file => program :: commandArguments (perFile config file) } := by
  induction files generalizing commands with
  | nil =>
    rw [List.map_nil, List.append_nil]
    rfl
  | cons file files ih =>
    rw [List.forall_mem_cons] at h
    obtain ⟨next, hrun, hnext⟩ := exists_run_command h.1 commands
    rw [List.flatMap_cons, List.append_assoc, Reading.run_append_of_run hrun, List.singleton_append,
      Reading.run_cons_of_step (hnext.step_break (List.cons_ne_nil _ _)), ih h.2, List.map_cons,
      List.append_assoc, List.singleton_append]

/-- The arguments that all files of a batch share. -/
def sharedArguments (config : RunConfig) : List Argument :=
  config.language.toList.map (fun language => .word "--language" language.name) ++
    (if config.options.level = ({} : Options).level then []
      else [.word "--level" config.options.level.name]) ++
    (optionFlags config.options).map .switch

theorem argumentsOf_perFile (config : RunConfig) (file : String) :
    argumentsOf (perFile config file) =
      .path "--input" file :: .path "--output" (FileName.inBatch file config.output) ::
        sharedArguments config :=
  rfl

theorem sharedArguments_eq (config : RunConfig) :
    sharedArguments config = furtherArguments { config with recursive := false, watch := false } :=
  rfl

theorem not_mem_sharedArguments (config : RunConfig) :
    ∀ argument ∈ sharedArguments config, "--input" ∉ argument.words ∧ "--output" ∉ argument.words := by
  rw [sharedArguments_eq]
  refine forall_furtherArguments ?_ ?_ ?_ _
  · intro language
    cases language <;> decide +kernel
  · intro level
    cases level <;> decide
  · decide

/-- A shell takes the command for a run apart into the program and the arguments of that run. It takes a batch
script apart into one such command for every file, in order, after the one that makes it stop at a failure.
Each names its file and where the copy goes, and names them once. -/
theorem read_commands (config : RunConfig) (files : List String) (hconfig : config.NullFree)
    (hfiles : ∀ file ∈ files, '\x00' ∉ file.toList) :
    Shell.read (command config) = .ok [program :: commandArguments config] ∧
      Shell.read (batchScript files config) =
        .ok (["set", "-e"] :: files.map fun file => program :: commandArguments (perFile config file)) ∧
      ∃ options, "--input" ∉ options ∧ "--output" ∉ options ∧ ∀ file,
        commandArguments (perFile config file) =
          ["--input", file, "--output", FileName.inBatch file config.output] ++ options := by
  refine ⟨?_, ?_, (sharedArguments config).flatMap Argument.words, ?_, ?_, ?_⟩
  · obtain ⟨next, hrun, hnext⟩ := exists_run_command hconfig []
    rw [Shell.read, hrun]
    exact hnext.finish_eq (List.cons_ne_nil _ _)
  · have hheader : Reading.run {} "#!/bin/sh\n# Generated by codeshrink\nset -e\n\n".toList =
        .ok { commands := [["set", "-e"]] } := by
      decide
    rw [Shell.read, toList_batchScript, Reading.run_append_of_run hheader,
      run_lines (fun file hfile => nullFree_perFile (hfiles file hfile) hconfig.output)]
    rfl
  · simpa using fun argument hargument => (not_mem_sharedArguments config argument hargument).1
  · simpa using fun argument hargument => (not_mem_sharedArguments config argument hargument).2
  · intro file
    rw [commandArguments_eq, argumentsOf_perFile]
    rfl

/-- A run whose paths hold every character that is special between double quotes, and a line break. -/
def specialPaths : RunConfig where
  input := "my \"dir\"/$HOME\\\n\x60ls\x60"
  output := some ""
  options := { level := .aggressive }

theorem read_commands_specialPaths :
    specialPaths.NullFree ∧ (∀ file ∈ ["$a b.js", "'c\n.css"], '\x00' ∉ file.toList) ∧
      Shell.read (command specialPaths) =
        .ok [["codeshrink", "--input", "my \"dir\"/$HOME\\\n\x60ls\x60", "--output", "", "--level",
          "aggressive"]] ∧
      Shell.read (batchScript ["$a b.js", "'c\n.css"] specialPaths) =
        .ok [["set", "-e"],
          ["codeshrink", "--input", "$a b.js", "--output", "/$a b.js", "--level", "aggressive"],
          ["codeshrink", "--input", "'c\n.css", "--output", "/'c\n.css", "--level", "aggressive"]] ∧
      ∃ options, "--input" ∉ options ∧ "--output" ∉ options ∧ ∀ file,
        commandArguments (perFile specialPaths file) =
          ["--input", file, "--output", FileName.inBatch file (some "")] ++ options := by
  have hconfig : specialPaths.NullFree := ⟨by decide, by decide⟩
  have hfiles : ∀ file ∈ ["$a b.js", "'c\n.css"], '\x00' ∉ file.toList := by decide
  exact ⟨hconfig, hfiles, read_commands specialPaths _ hconfig hfiles⟩

end Target

end Minifier
