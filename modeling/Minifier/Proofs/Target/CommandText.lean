import Minifier.Proofs.Target.Command
import Minifier.Proofs.Text.CodeLines

/-!
A command as text. Around the escaped paths of a run stand words of small letters and hyphens only, so what another
tool makes of a command depends on the paths alone.
-/

namespace Minifier

/-- The paths of a run, which may hold any characters. -/
def RunConfig.paths (config : RunConfig) : List String := config.input :: config.output.toList

/-- No path of a run holds a character that ends a line. -/
def RunConfig.Unbroken (config : RunConfig) : Prop :=
  ∀ path ∈ config.paths, '\n' ∉ path.toList ∧ '\r' ∉ path.toList

namespace Target

open Shell

/-- A character of the words of a command, or between them. -/
def isWordChar (c : Char) : Bool := c.isLower || c == '-' || c == ' '

/-- What stands in a command behind its paths. -/
def furtherText (config : RunConfig) : List Char :=
  (furtherArguments config).flatMap fun argument => ' ' :: argument.shell.toList

theorem isWordChar_of_mem_furtherText {config : RunConfig} :
    ∀ c ∈ furtherText config, isWordChar c = true := by
  have hword : ∀ argument ∈ furtherArguments config, argument.shell.toList.all isWordChar = true := by
    refine forall_furtherArguments ?_ ?_ ?_ config
    · intro language
      cases language <;> decide
    · intro level
      cases level <;> decide
    · decide
  intro c hc
  obtain ⟨argument, hargument, hmem⟩ := List.mem_flatMap.mp hc
  rcases List.mem_cons.mp hmem with rfl | hmem
  · rfl
  · exact List.all_eq_true.mp (hword argument hargument) c hmem

theorem getLast?_furtherText {config : RunConfig} {c : Char} (h : (furtherText config).getLast? = some c) :
    c.isLower = true := by
  have hword : ∀ argument ∈ furtherArguments config,
      (' ' :: argument.shell.toList).getLast?.all Char.isLower = true := by
    refine forall_furtherArguments ?_ ?_ ?_ config
    · intro language
      cases language <;> decide
    · intro level
      cases level <;> decide
    · decide
  rw [furtherText, List.getLast?_flatMap] at h
  obtain ⟨argument, hargument, hlast⟩ := List.exists_of_findSome?_eq_some h
  have hall := hword argument (List.mem_reverse.mp hargument)
  rwa [hlast, Option.all_some] at hall

/-- What stands in a command for a path. -/
def pathText (path : String) : List Char := (escapeDoubleQuoted path).toList ++ ['"']

/-- What stands in a command for the output, if there is one. -/
def outputText (output : Option String) : List Char :=
  output.elim [] fun path => " --output \"".toList ++ pathText path

theorem toList_command_eq (config : RunConfig) :
    (command config).toList =
      "codeshrink --input \"".toList ++ pathText config.input ++ outputText config.output ++ furtherText config := by
  rw [toList_command, argumentsOf_eq, List.flatMap_cons, List.flatMap_append, ← furtherText]
  cases config.output with
  | none => simp [Argument.shell, pathText, outputText, program]
  | some output => simp [Argument.shell, pathText, outputText, program]

/-! ### The characters of a command -/

/-- A command ends with a quote or with a word. -/
theorem exists_getLast?_command (config : RunConfig) :
    ∃ c, (command config).toList.getLast? = some c ∧ (c = '"' ∨ c.isLower = true) := by
  have hpath (text : List Char) (path : String) : (text ++ pathText path).getLast? = some '"' := by
    rw [pathText, ← List.append_assoc, List.getLast?_concat]
  have hpaths : ("codeshrink --input \"".toList ++ pathText config.input ++ outputText config.output).getLast? =
      some '"' := by
    cases config.output with
    | none => rw [outputText, Option.elim_none, List.append_nil, hpath]
    | some output => rw [outputText, Option.elim_some, ← List.append_assoc, hpath]
  rw [toList_command_eq, List.getLast?_append, hpaths]
  cases hfurther : (furtherText config).getLast? with
  | none => exact ⟨'"', rfl, .inl rfl⟩
  | some c => exact ⟨c, rfl, .inr (getLast?_furtherText hfurther)⟩

theorem mem_escaped {c d : Char} (hc : c ≠ '\\') : c ∈ escaped d ↔ c = d := by
  rw [escaped]
  split <;> simp [hc]

theorem mem_pathText {path : String} {c : Char} (hbackslash : c ≠ '\\') (hquote : c ≠ '"') :
    c ∈ pathText path ↔ c ∈ path.toList := by
  rw [pathText, toList_escapeDoubleQuoted, List.mem_append, List.mem_singleton, or_iff_left hquote, List.mem_flatMap]
  simp [mem_escaped hbackslash]

/-- A character that is part of no word and of no escape comes from a path. -/
theorem mem_command_iff {config : RunConfig} {c : Char} (hword : isWordChar c = false) (hbackslash : c ≠ '\\')
    (hquote : c ≠ '"') : c ∈ (command config).toList ↔ ∃ path ∈ config.paths, c ∈ path.toList := by
  have hfixed {text : String} (htext : text.toList.all (fun d => d == '"' || isWordChar d) = true) :
      c ∉ text.toList := by
    intro hmem
    have hc := List.all_eq_true.mp htext c hmem
    rw [hword, Bool.or_false, beq_iff_eq] at hc
    exact hquote hc
  have hprogram : c ∉ "codeshrink --input \"".toList := hfixed (by decide)
  have hflag : c ∉ " --output \"".toList := hfixed (by decide)
  have hfurther : c ∉ furtherText config := by
    intro hmem
    rw [isWordChar_of_mem_furtherText c hmem] at hword
    exact Bool.noConfusion hword
  have houtput : c ∈ outputText config.output ↔ ∃ path ∈ config.output.toList, c ∈ path.toList := by
    cases config.output with
    | none => simp [outputText]
    | some output =>
      rw [outputText, Option.elim_some, List.mem_append, or_iff_right hflag, mem_pathText hbackslash hquote]
      simp
  rw [toList_command_eq, List.mem_append, List.mem_append, List.mem_append, or_iff_right hprogram,
    or_iff_left hfurther, mem_pathText hbackslash hquote, houtput]
  simp [RunConfig.paths]

/-- A command stands on one line if and only if the paths of its run do. -/
theorem unbroken_iff_command {config : RunConfig} :
    config.Unbroken ↔ '\n' ∉ (command config).toList ∧ '\r' ∉ (command config).toList := by
  rw [mem_command_iff (by decide) (by decide) (by decide), mem_command_iff (by decide) (by decide) (by decide),
    RunConfig.Unbroken]
  simp only [not_exists, not_and]
  exact ⟨fun h => ⟨fun path hpath => (h path hpath).1, fun path hpath => (h path hpath).2⟩,
    fun h path hpath => ⟨h.1 path hpath, h.2 path hpath⟩⟩

/-! ### Files of lines -/

theorem toList_ofLines (lines : List String) :
    (Text.ofLines lines).toList = lines.flatMap fun line => line.toList ++ ['\n'] := by
  have h := toList_foldl_append (fun line : String => line ++ "\n") lines ""
  simpa [Text.ofLines, String.append_assoc] using h

/-- A file of lines is cut at the ends of its lines, behind the last of which nothing stands. -/
theorem cutLines_ofLines {lines : List String} (h : ∀ line ∈ lines, '\n' ∉ line.toList) :
    Text.cutLines (Text.ofLines lines).toList = lines.map String.toList ++ [[]] := by
  have hjoin : (Text.ofLines lines).toList = Text.joinLines (lines.map String.toList) [] := by
    rw [toList_ofLines]
    clear h
    induction lines with
    | nil => rfl
    | cons line lines ih => rw [List.flatMap_cons, ih, List.map_cons, Text.joinLines_cons, List.append_assoc,
        List.singleton_append]
  rw [hjoin, Text.cutLines_joinLines ⟨List.forall_mem_map.mpr h, List.not_mem_nil⟩]

end Target

end Minifier
