import Minifier.Proofs.Target.CommandText
import Minifier.Proofs.Target.ScalarText
import Minifier.Target.Deploy
import Minifier.Target.Tasks

/-!
The commands of a run in a makefile and in a workflow, which hold them as they are. Make looks for dollars before a
shell sees a line: two dollars stand for one, and a dollar with anything else behind it is a reference, which gives way
to whatever it stands for. Read by the rules of their files the commands are what they were, unless a path holds a
character that the rules give another meaning.
-/

namespace Minifier.Make

open Target

/-! ### Lines -/

/-- The lines of a recipe, without the tab in front: those that stand behind the line of a target and begin with a
tab. -/
def recipe (target text : String) : List (List Char) :=
  ((((Text.cutLines text.toList).dropWhile (· != target.toList ++ [':'])).drop 1).takeWhile
    fun line => line.head? == some '\t').map (·.drop 1)

example : recipe "b" "a:\n\tc\n\nb:\n\td\n\te\n\n" = [['d'], ['e']] := by decide

/-! ### Expansion -/

/-- What the next character is part of. -/
inductive Mode where
  | plain : Mode
  /-- A dollar stands in front. -/
  | dollar : Mode
  /-- A name between brackets, in which so many more of them are open. -/
  | name (opening closing : Char) (depth : Nat) (read : List Char) : Mode

/-- How many brackets are open behind a character. -/
def depthBehind (opening closing c : Char) (depth : Nat) : Nat :=
  if c = closing then depth - 1 else if c = opening then depth + 1 else depth

/-- What make makes of a text if references stand for these values. A name whose bracket is not closed is refused. -/
def expandFrom (value : List Char → List Char) : Mode → List Char → Option (List Char)
  | .plain, [] => some []
  | .plain, c :: rest =>
    if c = '$' then expandFrom value .dollar rest
    else (expandFrom value .plain rest).map (c :: ·)
  | .dollar, [] => some ['$']
  | .dollar, c :: rest =>
    if c = '$' then (expandFrom value .plain rest).map ('$' :: ·)
    else if c = '(' then expandFrom value (.name '(' ')' 0 []) rest
    else if c = '\x7b' then expandFrom value (.name '\x7b' '\x7d' 0 []) rest
    else (expandFrom value .plain rest).map (value [c] ++ ·)
  | .name _ _ _ _, [] => none
  | .name opening closing depth read, c :: rest =>
    if c = closing ∧ depth = 0 then (expandFrom value .plain rest).map (value read ++ ·)
    else expandFrom value (.name opening closing (depthBehind opening closing c depth) (read ++ [c])) rest

/-- A line of a recipe as make hands it to a shell. -/
def expand (value : List Char → List Char) (line : List Char) : Option String :=
  (expandFrom value .plain line).map String.ofList

/-- The commands of a target. -/
def commands (value : List Char → List Char) (target text : String) : List (Option String) :=
  (recipe target text).map (expand value)

/-- No reference stands for anything. -/
def unset (_ : List Char) : List Char := []

example : expand (fun name => if name = ['c', 'c'] then ['g'] else []) "a$$b $(cc) $d.".toList = some "a$b g ." := by
  decide

theorem expandFrom_plain {text : List Char} (h : '$' ∉ text) (value : List Char → List Char) :
    expandFrom value .plain text = some text := by
  induction text with
  | nil => rfl
  | cons c text ih =>
    obtain ⟨hc, htext⟩ := not_or.mp (mt List.mem_cons.mpr h)
    rw [expandFrom, if_neg (Ne.symm hc), ih htext, Option.map_some]

/-- If references stand for nothing, a text does not grow. At its end a dollar stands for itself. -/
theorem length_le_of_expandFrom {mode : Mode} {text new : List Char} (h : expandFrom unset mode text = some new)
    (hend : mode = .dollar → text ≠ []) : new.length ≤ text.length := by
  induction text generalizing mode new with
  | nil =>
    cases mode with
    | plain =>
      obtain rfl := Option.some.inj h
      exact le_rfl
    | dollar => exact absurd rfl (hend rfl)
    | name opening closing depth read => exact absurd h nofun
  | cons c text ih =>
    have hplain {onto : List Char → List Char} (honto : ∀ more, (onto more).length ≤ more.length + 1)
        (hnew : (expandFrom unset .plain text).map onto = some new) : new.length ≤ (c :: text).length := by
      obtain ⟨more, hmore, rfl⟩ := Option.map_eq_some_iff.mp hnew
      exact (honto more).trans (Nat.succ_le_succ (ih hmore nofun))
    have hname {opening closing : Char} {depth : Nat} {read : List Char}
        (hnew : expandFrom unset (.name opening closing depth read) text = some new) :
        new.length ≤ (c :: text).length :=
      (ih hnew nofun).trans (Nat.le_succ _)
    cases mode with
    | plain =>
      rw [expandFrom] at h
      split_ifs at h
      · cases text with
        | nil =>
          obtain rfl := Option.some.inj h
          exact le_rfl
        | cons d text => exact (ih h fun _ => List.cons_ne_nil _ _).trans (Nat.le_succ _)
      · exact hplain (fun _ => le_rfl) h
    | dollar =>
      rw [expandFrom] at h
      split_ifs at h
      · exact hplain (fun _ => le_rfl) h
      · exact hname h
      · exact hname h
      · exact hplain (fun _ => Nat.le_succ _) h
    | name opening closing depth read =>
      rw [expandFrom] at h
      split_ifs at h
      · exact hplain (fun _ => Nat.le_succ _) h
      · exact hname h

/-- If references stand for nothing, only a text without dollars is left as it is. The text gets shorter at the first
dollar, if that is not its last character. -/
theorem expandFrom_unset_eq_self_iff {text : List Char} (hlast : text.getLast? ≠ some '$') :
    expandFrom unset .plain text = some text ↔ '$' ∉ text := by
  refine ⟨?_, fun h => expandFrom_plain h unset⟩
  intro h
  induction text with
  | nil => exact List.not_mem_nil
  | cons c text ih =>
    rw [expandFrom] at h
    split_ifs at h with hc
    · subst hc
      cases text with
      | nil => exact absurd rfl hlast
      | cons d text =>
        have hle := length_le_of_expandFrom h fun _ => List.cons_ne_nil _ _
        simp at hle
    · obtain ⟨new, hnew, heq⟩ := Option.map_eq_some_iff.mp h
      rw [(List.cons.inj heq).2] at hnew
      have hrest : text.getLast? ≠ some '$' := by
        cases text with
        | nil => simp
        | cons d text => rwa [List.getLast?_cons_cons] at hlast
      rw [List.mem_cons, not_or]
      exact ⟨Ne.symm hc, ih hrest hnew⟩

end Minifier.Make

namespace Minifier.Target

/-! ### A makefile -/

/-- The lines of a rule with one command. -/
def ruleLines (rule : String × String) : List String := [rule.1 ++ ":", "\t" ++ rule.2, ""]

/-- A rule is found behind lines that are not the line of its target. -/
theorem recipe_ofLines {rule : String × String} {front back : List String}
    (hlines : ∀ line ∈ front ++ ruleLines rule ++ back, '\n' ∉ line.toList) (hfront : rule.1 ++ ":" ∉ front) :
    Make.recipe rule.1 (Text.ofLines (front ++ ruleLines rule ++ back)) = [rule.2.toList] := by
  have hskip : ∀ line ∈ front.map String.toList, (line != rule.1.toList ++ [':']) = true := by
    refine List.forall_mem_map.mpr fun line hline => ?_
    rw [bne_iff_ne]
    intro heq
    have htarget : line = rule.1 ++ ":" := by
      rw [← String.toList_inj, String.toList_append]
      exact heq
    rw [htarget] at hline
    exact hfront hline
  rw [Make.recipe, cutLines_ofLines hlines, List.map_append, List.map_append, List.append_assoc, List.append_assoc,
    List.dropWhile_append_of_pos hskip]
  simp [ruleLines]

/-- A rule is found among rules for other targets. -/
theorem recipe_of_mem {rules : List (String × String)} {front back : List String}
    (hlines : ∀ line ∈ front ++ rules.flatMap ruleLines ++ back, '\n' ∉ line.toList)
    (hnodup : (rules.map Prod.fst).Nodup) {rule : String × String} (hrule : rule ∈ rules)
    (hfront : rule.1 ++ ":" ∉ front) (htab : rule.1.toList.head? ≠ some '\t') :
    Make.recipe rule.1 (Text.ofLines (front ++ rules.flatMap ruleLines ++ back)) = [rule.2.toList] := by
  obtain ⟨before, after, rfl⟩ := List.append_of_mem hrule
  have hbefore : rule.1 ++ ":" ∉ before.flatMap ruleLines := by
    intro hmem
    obtain ⟨other, hother, hline⟩ := List.mem_flatMap.mp hmem
    rw [List.map_append, List.map_cons, List.perm_middle.nodup_iff, List.nodup_cons, List.mem_append,
      not_or] at hnodup
    simp only [ruleLines, List.mem_cons, List.not_mem_nil, or_false, ← String.toList_inj, String.toList_append] at hline
    rcases hline with heq | heq | heq
    · rw [List.append_left_inj, String.toList_inj] at heq
      exact hnodup.1.1 (List.mem_map.mpr ⟨other, hother, heq.symm⟩)
    · have hfirst : rule.1.toList.head?.or (some ':') = some '\t' := by
        simpa [List.head?_append] using congrArg List.head? heq
      rcases Option.or_eq_some_iff.mp hfirst with htarget | ⟨-, hcolon⟩
      · exact htab htarget
      · exact absurd hcolon (by decide)
    · simp at heq
  have hsplit : front ++ (before ++ rule :: after).flatMap ruleLines ++ back =
      (front ++ before.flatMap ruleLines) ++ ruleLines rule ++ (after.flatMap ruleLines ++ back) := by
    simp
  rw [hsplit] at hlines ⊢
  exact recipe_ofLines hlines (by simp [hfront, hbefore])

/-- The targets of a makefile that minify, and their commands. -/
def makeTargets (config : RunConfig) : List (String × String) :=
  [("minify", command config),
    ("minify-watch", command { config with watch := true }),
    ("minify-aggressive", command (config.withLevel .aggressive)),
    ("minify-light", command (config.withLevel .light))]

theorem makefile_eq (config : RunConfig) :
    makefile config = Text.ofLines
      ([".PHONY: minify minify-watch minify-aggressive minify-light clean", ""] ++
        (makeTargets config).flatMap ruleLines ++ ["clean:", "\tfind . -name \"*.min.*\" -type f -delete"]) := by
  rw [← String.toList_inj, toList_ofLines]
  simp [makefile, variants, makeTargets, taskName, atLevel, ruleLines]

/-- The commands of a makefile are those of the run with other settings, whose paths are the same. -/
theorem exists_of_mem_makeTargets {config : RunConfig} :
    ∀ rule ∈ makeTargets config, ∃ other : RunConfig, rule.2 = command other ∧ other.paths = config.paths := by
  simp only [makeTargets, List.forall_mem_cons]
  exact ⟨⟨config, rfl, rfl⟩, ⟨{ config with watch := true }, rfl, rfl⟩, ⟨config.withLevel .aggressive, rfl, rfl⟩,
    ⟨config.withLevel .light, rfl, rfl⟩, nofun⟩

theorem recipe_makefile {config : RunConfig} (h : config.Unbroken) :
    ∀ rule ∈ makeTargets config, Make.recipe rule.1 (makefile config) = [rule.2.toList] := by
  have hbreak : ∀ rule ∈ makeTargets config, '\n' ∉ rule.2.toList := by
    intro rule hrule
    obtain ⟨other, hother, hpaths⟩ := exists_of_mem_makeTargets rule hrule
    have hunbroken : other.Unbroken := by
      rw [RunConfig.Unbroken, hpaths]
      exact h
    rw [hother]
    exact (unbroken_iff_command.mp hunbroken).1
  have hnames : ∀ rule ∈ makeTargets config, '\n' ∉ rule.1.toList ∧ rule.1.toList.head? ≠ some '\t' ∧
      rule.1 ++ ":" ∉ [".PHONY: minify minify-watch minify-aggressive minify-light clean", ""] := by
    simp only [makeTargets, List.forall_mem_cons]
    exact ⟨by decide, by decide, by decide, by decide, List.forall_mem_nil _⟩
  intro rule hrule
  rw [makefile_eq]
  refine recipe_of_mem ?_ ?_ hrule (hnames rule hrule).2.2 (hnames rule hrule).2.1
  · simp only [List.forall_mem_append]
    refine ⟨⟨by decide, ?_⟩, by decide⟩
    intro line hline
    obtain ⟨other, hother, hline⟩ := List.mem_flatMap.mp hline
    have hlines : ∀ line ∈ ruleLines other, '\n' ∉ line.toList := by
      simp [ruleLines, hbreak other hother, (hnames other hother).1]
    exact hlines line hline
  · change ["minify", "minify-watch", "minify-aggressive", "minify-light"].Nodup
    decide

theorem commands_makefile {config : RunConfig} (h : config.Unbroken) {rule : String × String}
    (hrule : rule ∈ makeTargets config) (value : List Char → List Char) :
    Make.commands value rule.1 (makefile config) = [some rule.2] ↔
      Make.expandFrom value .plain rule.2.toList = some rule.2.toList := by
  rw [Make.commands, recipe_makefile h rule hrule, List.map_singleton, List.singleton_inj, Make.expand,
    Option.map_eq_some_iff]
  constructor
  · rintro ⟨new, hnew, heq⟩
    rw [hnew, ← heq, String.toList_ofList]
  · exact fun hnew => ⟨_, hnew, String.ofList_toList⟩

theorem dollar_mem_iff {config : RunConfig} {rule : String × String} (hrule : rule ∈ makeTargets config) :
    '$' ∈ rule.2.toList ↔ ∃ path ∈ config.paths, '$' ∈ path.toList := by
  obtain ⟨other, hother, hpaths⟩ := exists_of_mem_makeTargets rule hrule
  rw [hother, mem_command_iff (by decide) (by decide) (by decide), hpaths]

/-- If references stand for nothing, make hands on the command of a rule just if no path holds a dollar. -/
theorem commands_unset_makefile {config : RunConfig} (h : config.Unbroken) {rule : String × String}
    (hrule : rule ∈ makeTargets config) :
    Make.commands Make.unset rule.1 (makefile config) = [some rule.2] ↔ ∀ path ∈ config.paths, '$' ∉ path.toList := by
  have hlast : rule.2.toList.getLast? ≠ some '$' := by
    obtain ⟨other, hother, -⟩ := exists_of_mem_makeTargets rule hrule
    obtain ⟨c, hc, hend⟩ := exists_getLast?_command other
    rw [hother, hc]
    rintro ⟨⟩
    revert hend
    decide
  rw [commands_makefile h hrule, Make.expandFrom_unset_eq_self_iff hlast, dollar_mem_iff hrule]
  simp

/-! ### A workflow -/

theorem isNeutral_of_isQuotedSpecial {c : Char} (h : Shell.isQuotedSpecial c = true) :
    Yaml.isNeutral c = true ∧ Yaml.isPrintable c = true := by
  have hall : ['$', '\x60', '"', '\\'].all (fun c => Yaml.isNeutral c && Yaml.isPrintable c) = true := by decide
  exact Bool.and_eq_true_iff.mp (List.all_eq_true.mp hall c (List.contains_iff_mem.mp h))

/-- The escapes of a shell change nothing around spaces, colons and hashes. The induction is on the path. -/
theorem isPlain_flatMap_escaped {path : List Char} :
    Yaml.IsPlain (path.flatMap Shell.escaped) ↔ Yaml.IsPlain path := by
  induction path with
  | nil => rfl
  | cons c path ih =>
    have hnext : (∀ d ∈ (path.flatMap Shell.escaped).head?, Yaml.GoesOn c d) ↔ ∀ d ∈ path.head?, Yaml.GoesOn c d := by
      cases path with
      | nil => rfl
      | cons d path =>
        rw [List.flatMap_cons, Shell.escaped]
        split_ifs with hspecial
        · have hd := isNeutral_of_isQuotedSpecial hspecial
          refine iff_of_true ?_ ?_
          · rintro e ⟨⟩
            exact Yaml.goesOn_of_isNeutral (.inr (by decide))
          · rintro e ⟨⟩
            exact Yaml.goesOn_of_isNeutral (.inr hd.1)
        · rfl
    rw [List.flatMap_cons, Yaml.isPlain_cons, ← ih, ← hnext, Shell.escaped]
    split_ifs with hspecial
    · have hbackslash : Yaml.IsPlain ['\\'] := Yaml.isPlain_of_isInert (by decide)
      rw [show ['\\', c] ++ path.flatMap Shell.escaped = ['\\'] ++ c :: path.flatMap Shell.escaped from rfl,
        Yaml.isPlain_append_of_isNeutral (.inl (by decide)), and_iff_right hbackslash, Yaml.isPlain_cons]
    · rw [List.singleton_append, Yaml.isPlain_cons]

theorem isPlain_pathText {path : String} : Yaml.IsPlain (pathText path) ↔ Yaml.IsPlain path.toList := by
  have hquote : Yaml.IsPlain ['"'] := Yaml.isPlain_of_isInert (by decide)
  rw [pathText, Shell.toList_escapeDoubleQuoted, Yaml.isPlain_append_of_isNeutral (.inr (by decide)),
    isPlain_flatMap_escaped, and_iff_left hquote]

theorem isInert_of_isWordChar {c : Char} (h : isWordChar c = true) : Yaml.isInert c = true := by
  simp only [isWordChar, Bool.or_eq_true, beq_iff_eq] at h
  rcases h with (hlower | rfl) | rfl
  · have hrange : 97 ≤ c.toNat ∧ c.toNat ≤ 122 := by
      obtain ⟨hleast, hmost⟩ := Bool.and_eq_true_iff.mp hlower
      exact ⟨of_decide_eq_true hleast, of_decide_eq_true hmost⟩
    have hprintable : Yaml.isPrintable c = true := by
      simp [Yaml.isPrintable]
      omega
    have hne : c ≠ '#' ∧ c ≠ ':' := by
      constructor
      all_goals
        rintro rfl
        revert hrange
        decide
    simp [Yaml.isInert, hprintable, hne]
  · decide
  · decide

/-- A command is plain just if the paths of its run are. -/
theorem isPlain_command {config : RunConfig} :
    Yaml.IsPlain (command config).toList ↔ ∀ path ∈ config.paths, Yaml.IsPlain path.toList := by
  have hprogram : Yaml.IsPlain "codeshrink --input \"".toList := Yaml.isPlain_of_isInert (by decide)
  have hflag : Yaml.IsPlain " --output \"".toList := Yaml.isPlain_of_isInert (by decide)
  have hfurther : Yaml.IsPlain (furtherText config) :=
    Yaml.isPlain_of_isInert
      (List.all_eq_true.mpr fun c hc => isInert_of_isWordChar (isWordChar_of_mem_furtherText c hc))
  -- Every part but the last ends with a quote, next to which nothing begins.
  have hend (text : List Char) (path : String) : (text ++ pathText path).getLast?.any Yaml.isNeutral = true := by
    rw [pathText, ← List.append_assoc, List.getLast?_concat]
    decide
  have hinput : Yaml.IsPlain ("codeshrink --input \"".toList ++ pathText config.input) ↔
      Yaml.IsPlain config.input.toList := by
    rw [Yaml.isPlain_append_of_isNeutral (.inl (by decide)), and_iff_right hprogram, isPlain_pathText]
  rw [toList_command_eq, RunConfig.paths, List.forall_mem_cons]
  cases config.output with
  | none =>
    rw [outputText, Option.elim_none, List.append_nil, Yaml.isPlain_append_of_isNeutral (.inl (hend _ _)), hinput,
      and_iff_left hfurther]
    simp
  | some output =>
    have houtput : Yaml.IsPlain (" --output \"".toList ++ pathText output) ↔ Yaml.IsPlain output.toList := by
      rw [Yaml.isPlain_append_of_isNeutral (.inl (by decide)), and_iff_right hflag, isPlain_pathText]
    rw [outputText, Option.elim_some, Yaml.isPlain_append_of_isNeutral, Yaml.isPlain_append_of_isNeutral, hinput,
      houtput, and_iff_left hfurther]
    · simp
    · exact .inl (hend _ _)
    · rw [← List.append_assoc]
      exact .inl (hend _ _)

theorem values_ofLines {key : String} {lines : List String} (h : ∀ line ∈ lines, '\n' ∉ line.toList) :
    Yaml.values key (Text.ofLines lines) = lines.filterMap fun line => Yaml.valueOf? key line.toList := by
  have hend : Yaml.valueOf? key [] = none := by
    rw [Yaml.valueOf?, List.dropWhile_nil]
    cases key.toList <;> rfl
  rw [Yaml.values, cutLines_ofLines h, List.filterMap_append, List.filterMap_map, List.filterMap_cons_none hend,
    List.filterMap_nil, List.append_nil]
  rfl

/-- The line of a workflow that names the level of a run. -/
def levelLine (config : RunConfig) : String := "      - name: Minify (" ++ config.options.level.name ++ ")"

/-- The line of a workflow for the command of a run. -/
def runLine (config : RunConfig) : String := "        run: " ++ command (once config)

/-- The line of a workflow for what a run writes. -/
def pathLine (config : RunConfig) : String := "          path: \"" ++ config.output.getD "**/*.min.*" ++ "\""

theorem valueOf?_levelLine (config : RunConfig) :
    '\n' ∉ (levelLine config).toList ∧ Yaml.valueOf? "run" (levelLine config).toList = none ∧
      Yaml.valueOf? "path" (levelLine config).toList = none := by
  unfold levelLine
  cases config.options.level <;> decide

theorem valueOf?_runLine {config : RunConfig} (h : config.Unbroken) :
    '\n' ∉ (runLine config).toList ∧
      Yaml.valueOf? "run" (runLine config).toList = some (command (once config)).toList ∧
      Yaml.valueOf? "path" (runLine config).toList = none := by
  have hcommand := unbroken_iff_command.mp (show (once config).Unbroken from h)
  rw [runLine, String.toList_append, List.mem_append, not_or]
  refine ⟨⟨by decide, hcommand.1⟩, ?_⟩
  rw [toList_command_eq]
  exact ⟨rfl, rfl⟩

theorem valueOf?_pathLine {config : RunConfig} (h : config.Unbroken) :
    '\n' ∉ (pathLine config).toList ∧ Yaml.valueOf? "run" (pathLine config).toList = none ∧
      Yaml.valueOf? "path" (pathLine config).toList =
        some ('"' :: ((config.output.getD "**/*.min.*").toList ++ ['"'])) := by
  have hvalue : '\n' ∉ (config.output.getD "**/*.min.*").toList := by
    cases hoption : config.output with
    | none => decide
    | some output => exact (h output (by simp [RunConfig.paths, hoption])).1
  unfold pathLine
  rw [String.toList_append, String.toList_append, List.append_assoc, List.mem_append, List.mem_append, not_or,
    not_or]
  exact ⟨⟨by decide, hvalue, by decide⟩, rfl, rfl⟩

/-- What a workflow says behind its keys for commands and paths: two commands, and one path between quotes. -/
theorem values_workflow {config : RunConfig} (h : config.Unbroken) :
    Yaml.values "run" (workflow config) = ["cargo install codeshrink".toList, (command (once config)).toList] ∧
    Yaml.values "path" (workflow config) = ['"' :: ((config.output.getD "**/*.min.*").toList ++ ['"'])] := by
  obtain ⟨front, middle, hfile, hlines, hfront, hmiddle⟩ : ∃ front middle : List String,
      workflow config =
        Text.ofLines (front ++ [levelLine config, runLine config] ++ middle ++ [pathLine config]) ∧
      (∀ line ∈ front ++ middle, '\n' ∉ line.toList) ∧
      (front.filterMap (fun line => Yaml.valueOf? "run" line.toList) = ["cargo install codeshrink".toList] ∧
        front.filterMap (fun line => Yaml.valueOf? "path" line.toList) = []) ∧
      middle.filterMap (fun line => Yaml.valueOf? "run" line.toList) = [] ∧
        middle.filterMap (fun line => Yaml.valueOf? "path" line.toList) = [] :=
    ⟨[_, _, _, _, _, _, _, _, _, _, _, _, _, _, _], [_, _, _], rfl, by decide, by decide, by decide⟩
  obtain ⟨hlevel, hlevelRun, hlevelPath⟩ := valueOf?_levelLine config
  obtain ⟨hrun, hrunRun, hrunPath⟩ := valueOf?_runLine h
  obtain ⟨hpath, hpathRun, hpathPath⟩ := valueOf?_pathLine h
  have hall : ∀ line ∈ front ++ [levelLine config, runLine config] ++ middle ++ [pathLine config],
      '\n' ∉ line.toList := by
    simp only [List.forall_mem_append, List.forall_mem_cons] at hlines ⊢
    exact ⟨⟨⟨hlines.1, hlevel, hrun, nofun⟩, hlines.2⟩, hpath, nofun⟩
  rw [hfile, values_ofLines hall, values_ofLines hall]
  simp only [List.filterMap_append, List.filterMap_cons, List.filterMap_nil, hfront, hmiddle, hlevelRun, hlevelPath,
    hrunRun, hrunPath, hpathRun, hpathPath]
  exact ⟨rfl, rfl⟩

/-- A command is read as a plain scalar just if its paths could be. -/
theorem plain?_command {config : RunConfig} :
    Yaml.plain? (command config).toList = some (command config) ↔
      ∀ path ∈ config.paths, Yaml.IsPlain path.toList := by
  obtain ⟨rest, hrest⟩ : ∃ rest, (command config).toList = 'c' :: rest := by
    rw [toList_command_eq]
    exact ⟨_, rfl⟩
  obtain ⟨last, hlast, hend⟩ := exists_getLast?_command config
  have hallowed : (Yaml.isWhite last || last == ':') = false := by
    rw [Bool.eq_false_iff]
    intro hnot
    have hcases : (last = ' ' ∨ last = '\t') ∨ last = ':' := by simpa [Yaml.isWhite] using hnot
    rcases hcases with (rfl | rfl) | rfl
    all_goals exact absurd hend (by decide)
  rw [hrest] at hlast
  rw [← isPlain_command, hrest, ← Yaml.plain?_eq_self_iff (by decide) (by rw [hlast, Option.any_some, hallowed]),
    ← hrest, String.ofList_toList]

/-- A makefile and a workflow hold the commands of a run, and where its copies are, as they are. So make hands the
command of a rule on just if no path holds a dollar, and then it does not matter what references stand for. A workflow
says the command just if in no path a comment or a value begins, and where the copies are just if every character of
the output stands for itself between double quotes. -/
theorem commands_verbatim (config : RunConfig) (h : config.Unbroken) :
    (∀ rule ∈ [("minify", command config), ("minify-watch", command { config with watch := true }),
        ("minify-aggressive", command (config.withLevel .aggressive)),
        ("minify-light", command (config.withLevel .light))],
      (Make.commands Make.unset rule.1 (makefile config) = [some rule.2] ↔
        ∀ path ∈ config.paths, '$' ∉ path.toList) ∧
      ((∀ path ∈ config.paths, '$' ∉ path.toList) →
        ∀ value, Make.commands value rule.1 (makefile config) = [some rule.2])) ∧
    ((Yaml.values "run" (workflow config)).map Yaml.plain? =
        [some "cargo install codeshrink", some (command { config with watch := false })] ↔
      ∀ path ∈ config.paths, Yaml.IsPlain path.toList) ∧
    ((Yaml.values "path" (workflow config)).map Yaml.quoted? = [some (config.output.getD "**/*.min.*")] ↔
      ∀ output ∈ config.output, ∀ c ∈ output.toList, Yaml.IsQuotable c) := by
  refine ⟨fun rule hrule => ⟨commands_unset_makefile h hrule, fun hdollar value => ?_⟩, ?_, ?_⟩
  · have hplain : '$' ∉ rule.2.toList := by
      rw [dollar_mem_iff hrule]
      rintro ⟨path, hpath, hmem⟩
      exact hdollar path hpath hmem
    exact (commands_makefile h hrule value).mpr (Make.expandFrom_plain hplain value)
  · have hinstall : Yaml.plain? "cargo install codeshrink".toList = some "cargo install codeshrink" := by decide
    have hpaths : (once config).paths = config.paths := rfl
    rw [(values_workflow h).1, List.map_cons, List.map_singleton, hinstall, ← hpaths, ← plain?_command]
    simp [once]
  · have hdefault : ∀ c ∈ "**/*.min.*".toList, Yaml.IsQuotable c := Yaml.quoted?_eq_self_iff.mp (by decide)
    rw [(values_workflow h).2, List.map_singleton, List.singleton_inj]
    have hread (text : String) : Yaml.quoted? ('"' :: (text.toList ++ ['"'])) = some text ↔
        ∀ c ∈ text.toList, Yaml.IsQuotable c := by
      rw [← Yaml.quoted?_eq_self_iff, String.ofList_toList]
    rw [hread]
    cases config.output with
    | none => simpa using hdefault
    | some output => simp

theorem commands_verbatim_site :
    RunConfig.Unbroken { input := "my site", output := some "dist" } ∧
    (∀ value, Make.commands value "minify-light" (makefile { input := "my site", output := some "dist" }) =
      [some "codeshrink --input \"my site\" --output \"dist\" --level light"]) ∧
    (Yaml.values "run" (workflow { input := "my site", output := some "dist" })).map Yaml.plain? =
      [some "cargo install codeshrink", some "codeshrink --input \"my site\" --output \"dist\""] ∧
    (Yaml.values "path" (workflow { input := "my site", output := some "dist" })).map Yaml.quoted? = [some "dist"] := by
  have h : RunConfig.Unbroken { input := "my site", output := some "dist" } := by
    unfold RunConfig.Unbroken
    decide
  obtain ⟨hmake, hrun, hpath⟩ := commands_verbatim { input := "my site", output := some "dist" } h
  refine ⟨h, ?_, ?_, ?_⟩
  · have hlight : ("minify-light", command (RunConfig.withLevel { input := "my site", output := some "dist" } .light)) =
        ("minify-light", "codeshrink --input \"my site\" --output \"dist\" --level light") := by decide
    have hrule := hmake (_, _) (List.mem_cons_of_mem _ (List.mem_cons_of_mem _ (List.mem_cons_of_mem _
      (List.mem_singleton.mpr hlight.symm))))
    exact hrule.2 (by decide)
  · have hcommand : command { input := "my site", output := some "dist" } =
        "codeshrink --input \"my site\" --output \"dist\"" := by decide
    rw [← hcommand]
    refine hrun.mpr ?_
    simp only [RunConfig.paths, Option.toList_some, List.forall_mem_cons]
    refine ⟨?_, ?_, List.forall_mem_nil _⟩
    all_goals exact Yaml.isPlain_of_isInert (by decide)
  · refine hpath.mpr ?_
    rintro output ⟨⟩
    exact Yaml.quoted?_eq_self_iff.mp (by decide)

/-- A home directory loses its first letter, a comment cuts the command short, and a quote ends the path. -/
theorem commands_verbatim_lost :
    Make.commands Make.unset "minify" (makefile { input := "$HOME.js" }) =
      [some "codeshrink --input \"\\OME.js\""] ∧
    command { input := "$HOME.js" } = "codeshrink --input \"\\$HOME.js\"" ∧
    (Yaml.values "run" (workflow { input := "a #1.js" })).map Yaml.plain? =
      [some "cargo install codeshrink", some "codeshrink --input \"a"] ∧
    (Yaml.values "path" (workflow { input := "a.js", output := some "a\"b.js" })).map Yaml.quoted? = [none] := by
  have hunbroken : RunConfig.Unbroken { input := "$HOME.js" } ∧ RunConfig.Unbroken { input := "a #1.js" } ∧
      RunConfig.Unbroken { input := "a.js", output := some "a\"b.js" } := by
    unfold RunConfig.Unbroken
    decide
  obtain ⟨hdollar, hhash, hquote⟩ := hunbroken
  refine ⟨?_, by decide, ?_, ?_⟩
  · rw [Make.commands, recipe_makefile hdollar ("minify", command { input := "$HOME.js" }) List.mem_cons_self]
    decide
  · rw [(values_workflow hhash).1]
    decide
  · rw [(values_workflow hquote).2]
    decide

end Minifier.Target
