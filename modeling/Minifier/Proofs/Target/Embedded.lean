import Minifier.Proofs.Config.Options
import Minifier.Proofs.Json.Grammar
import Minifier.Proofs.Target.CommandText
import Minifier.Proofs.Text.Basic
import Minifier.Target.Bundler
import Minifier.Target.Deploy
import Minifier.Target.Tasks

/-!
The commands of a run inside the files of other tools that quote them once more. A table of scripts and the recipe
of an image hold them as JSON, the files for a task runner and a bundler as strings of a script. Read by the rules of
their files, they are the commands again. What a backslash makes of a number or of the end of a line is not looked at
in a script, such strings are refused; so the text of a string that is read is what the language takes it for.
-/

namespace Minifier.Literal

open Target

/-! ### Strings -/

/-- Whether a string in quotes ends badly at a character, if no backslash stands before it. The two separators of
lines and paragraphs may stand in a string. -/
def endsLine (c : Char) : Bool := c == '\n' || c == '\r'

/-- What a character means behind a backslash. -/
def meaning? (c : Char) : Option Char :=
  if c = 'b' then some '\x08'
  else if c = 'f' then some '\x0c'
  else if c = 'n' then some '\n'
  else if c = 'r' then some '\r'
  else if c = 't' then some '\t'
  else if c = 'v' then some '\x0b'
  else if c.isDigit || ['x', 'u', '\n', '\r', '\u2028', '\u2029'].contains c then none
  else some c

/-- What a string says up to its closing quote, and what stands behind that. -/
def readBody : List Char → Option (List Char × List Char)
  | [] => none
  | '\'' :: rest => some ([], rest)
  | '\\' :: c :: rest => do
    let meant ← meaning? c
    let (value, behind) ← readBody rest
    return (meant :: value, behind)
  | c :: rest =>
    if endsLine c then none
    else (readBody rest).map fun (value, behind) => (c :: value, behind)

/-- A string in single quotes at the beginning of a text. -/
def read? : List Char → Option (List Char × List Char)
  | '\'' :: rest => readBody rest
  | _ => none

example : (read? "'it\\'s\\n', 1".toList) = some ("it's\n".toList, ", 1".toList) := by decide

/-- A character of a string in single quotes. -/
def escaped (c : Char) : List Char := if c = '\\' ∨ c = '\'' then ['\\', c] else [c]

theorem toList_singleQuoted (text : String) :
    (singleQuoted text).toList = '\'' :: (text.toList.flatMap escaped ++ ['\'']) := by
  simp only [singleQuoted, String.toList_append, String.toList_ofList]
  have hescape : (fun c => if c == '\\' || c == '\'' then ['\\', c] else [c]) = escaped := by
    funext c
    simp [escaped]
  rw [hescape]
  rfl

theorem readBody_escaped_append {c : Char} (hc : endsLine c = false) (rest : List Char) :
    readBody (escaped c ++ rest) = (readBody rest).map fun (value, behind) => (c :: value, behind) := by
  rw [escaped]
  split
  case isTrue h =>
    rcases h with rfl | rfl
    · change (readBody rest).bind _ = _
      cases readBody rest <;> rfl
    · change (readBody rest).bind _ = _
      cases readBody rest <;> rfl
  case isFalse h =>
    obtain ⟨hbackslash, hquote⟩ := not_or.mp h
    rw [List.singleton_append, readBody]
    · rw [hc]
      rfl
    · exact hquote
    · rintro - - rfl
      exact absurd rfl hbackslash

/-- What is written in single quotes is read back, unless it holds the end of a line. The induction is on the text,
whose characters are read one by one. -/
theorem readBody_flatMap_escaped (text rest : List Char) :
    readBody (text.flatMap escaped ++ '\'' :: rest) =
      if '\n' ∉ text ∧ '\r' ∉ text then some (text, rest) else none := by
  induction text with
  | nil => rfl
  | cons c text ih =>
    rw [List.flatMap_cons, List.append_assoc]
    cases hc : endsLine c with
    | false =>
      obtain ⟨hbreak, hreturn⟩ : c ≠ '\n' ∧ c ≠ '\r' := by simpa [endsLine] using hc
      rw [readBody_escaped_append hc, ih]
      simp only [List.mem_cons, Ne.symm hbreak, Ne.symm hreturn, false_or]
      split <;> rfl
    | true =>
      have hend : c = '\n' ∨ c = '\r' := by simpa [endsLine] using hc
      rcases hend with rfl | rfl <;> simp [escaped, readBody, endsLine]

/-! ### Calls -/

/-- What stands behind the first place where a mark stands. -/
def behind? (mark : List Char) : List Char → Option (List Char)
  | [] => none
  | c :: rest => if mark.isPrefixOf (c :: rest) then some ((c :: rest).drop mark.length) else behind? mark rest

/-- The string that a function is given where a text first calls it, if its first argument is nothing but a string
in single quotes. -/
def argument? (function text : String) : Option String := do
  let behind ← behind? (function.toList ++ ['(']) text.toList
  let (value, rest) ← read? behind
  if rest.head?.any fun c => c == ',' || c == ')' then some (String.ofList value) else none

variable {mark line rest : List Char}

/-- A mark on one line that begins before the end of a line ends before it. -/
theorem prefix_of_prefix_append_break (hmark : '\n' ∉ mark) (h : mark <+: line ++ '\n' :: rest) : mark <+: line := by
  rcases Nat.le_total mark.length line.length with hle | hle
  · exact List.prefix_of_prefix_length_le h (List.prefix_append _ _) hle
  · have hline : line <+: mark := List.prefix_of_prefix_length_le (List.prefix_append _ _) h hle
    obtain ⟨more, rfl⟩ := hline
    cases more with
    | nil => simp
    | cons c more =>
      obtain ⟨rfl, -⟩ := List.cons_prefix_cons.mp ((List.prefix_append_right_inj line).mp h)
      exact absurd (List.mem_append_right line List.mem_cons_self) hmark

/-- Lines without the mark are passed over. -/
theorem behind?_line (hne : mark ≠ []) (hmark : '\n' ∉ mark) (hline : Text.contains mark line = false) :
    behind? mark (line ++ '\n' :: rest) = behind? mark rest := by
  have hinfix : ¬ mark <:+: line := by
    rw [← Text.contains_iff, hline]
    exact Bool.false_ne_true
  clear hline
  induction line with
  | nil =>
    rw [List.nil_append, behind?, if_neg]
    rw [List.isPrefixOf_iff_prefix]
    intro hprefix
    have hnil : mark <+: [] := prefix_of_prefix_append_break hmark hprefix
    exact hne (List.prefix_nil.mp hnil)
  | cons c line ih =>
    rw [List.infix_cons_iff, not_or] at hinfix
    rw [List.cons_append, behind?, if_neg, ih hinfix.2]
    rw [List.isPrefixOf_iff_prefix, ← List.cons_append]
    exact fun hprefix => hinfix.1 (prefix_of_prefix_append_break hmark hprefix)

theorem behind?_ofLines (hne : mark ≠ []) (hmark : '\n' ∉ mark) {front : List String}
    (hfront : ∀ line ∈ front, Text.contains mark line.toList = false) (rest : List Char) :
    behind? mark ((Text.ofLines front).toList ++ rest) = behind? mark rest := by
  rw [toList_ofLines]
  induction front with
  | nil => rfl
  | cons line front ih =>
    rw [List.forall_mem_cons] at hfront
    rw [List.flatMap_cons, List.append_assoc, List.append_assoc, List.singleton_append,
      behind?_line hne hmark hfront.1, ih hfront.2]

/-- A string is read in a call that stands on the first line that calls its function. -/
theorem argument?_ofLines {function : String} (hfunction : '\n' ∉ function.toList) {front : List String}
    (hfront : ∀ line ∈ front, Text.contains (function.toList ++ ['(']) line.toList = false) {lead more : String}
    (hcall : ∀ rest, behind? (function.toList ++ ['(']) (lead.toList ++ rest) = some rest)
    (hmore : more.toList.head? = some ',') (text : String) (back : List String) :
    argument? function (Text.ofLines (front ++ (lead ++ singleQuoted text ++ more) :: back)) =
      if '\n' ∉ text.toList ∧ '\r' ∉ text.toList then some text else none := by
  have hmark : '\n' ∉ function.toList ++ ['('] := by simp [hfunction]
  have htext : (Text.ofLines (front ++ (lead ++ singleQuoted text ++ more) :: back)).toList =
      (Text.ofLines front).toList ++ (lead.toList ++ ('\'' :: (text.toList.flatMap escaped ++
        '\'' :: (more.toList ++ '\n' :: (Text.ofLines back).toList)))) := by
    simp [toList_ofLines, toList_singleQuoted]
  rw [argument?, htext, behind?_ofLines (by simp) hmark hfront, hcall]
  simp only [Option.bind_eq_bind, Option.bind_some, read?, readBody_flatMap_escaped]
  split
  · simp [hmore]
  · rfl

end Minifier.Literal

namespace Minifier.Target

open Json

/-! ### A table of scripts -/

/-- The scripts of a package. -/
def scripts (config : RunConfig) : Members :=
  (variants config).map fun (variant, text) => (taskName ":" variant, .string text)

theorem nodup_scripts (config : RunConfig) : ((scripts config).map Prod.fst).Nodup := by
  change ["minify", "minify:watch", "minify:aggressive", "minify:light"].Nodup
  decide

theorem parse_packageScripts (config : RunConfig) :
    Json.parse (packageScripts config) = .ok (.object [("scripts", .object (scripts config))]) := by
  have hstrings : ∀ member ∈ scripts config, ∃ source : Source, source.Lays 2 member.2 ∧ source.depth ≤ 0 := by
    intro member hmember
    obtain ⟨⟨variant, text⟩, -, rfl⟩ := List.mem_map.mp hmember
    exact Source.exists_lays_string text 2
  have hscripts : ∀ member ∈ [("scripts", Json.object (scripts config))],
      ∃ source : Source, source.Lays 1 member.2 ∧ source.depth ≤ 1 :=
    List.forall_mem_singleton.mpr (Source.exists_lays_of_members (nodup_scripts config) hstrings)
  obtain ⟨table, htable, hdepth⟩ := Source.exists_lays_of_members (by simp) hscripts
  exact htable.parse_pretty (hdepth.trans (by decide))

/-! ### The recipe of an image -/

/-- What a line says behind a keyword, if it begins with it. -/
def said? (keyword : String) (line : List Char) : Option String :=
  (line.dropPrefix? (keyword.toList ++ [' '])).map String.ofList

/-- What an image recipe says behind a keyword, for each line that begins with it. -/
def instructions (keyword text : String) : List String := (Text.cutLines text.toList).filterMap (said? keyword)

example : instructions "RUN" "RUN a b\nCMD c\nRUN d\n" = ["a b", "d"] := by decide

theorem said?_nil (keyword : String) : said? keyword [] = none := by
  rw [said?]
  cases keyword.toList <;> rfl

theorem said?_append (keyword text : String) : said? keyword (keyword ++ " " ++ text).toList = some text := by
  have hdrop : (keyword.toList ++ [' '] ++ text.toList).dropPrefix? (keyword.toList ++ [' ']) = some text.toList :=
    List.dropPrefix?_append_of_beq text.toList BEq.rfl
  have htext : (keyword ++ " " ++ text).toList = keyword.toList ++ [' '] ++ text.toList := by simp
  rw [said?, htext, hdrop, Option.map_some, String.ofList_toList]

theorem instructions_ofLines {keyword : String} {lines : List String} (h : ∀ line ∈ lines, '\n' ∉ line.toList) :
    instructions keyword (Text.ofLines lines) = lines.filterMap fun line => said? keyword line.toList := by
  rw [instructions, cutLines_ofLines h, List.filterMap_append, List.filterMap_map,
    List.filterMap_cons_none (said?_nil keyword), List.filterMap_nil, List.append_nil]
  rfl

theorem instructions_imageRecipe (config : RunConfig) :
    instructions "CMD" (imageRecipe config) = [(Json.strings (commandArguments (once config))).compact] := by
  obtain ⟨front, hfile, hlines, hother⟩ : ∃ front : List String,
      imageRecipe config =
        Text.ofLines (front ++ ["CMD" ++ " " ++ (Json.strings (commandArguments (once config))).compact]) ∧
      (∀ line ∈ front, '\n' ∉ line.toList) ∧ front.filterMap (fun line => said? "CMD" line.toList) = [] :=
    ⟨[_, _, _, _, _, _, _], rfl, by decide, by decide⟩
  have hbreak : '\n' ∉ (Json.strings (commandArguments (once config))).compact.toList := fun hmem =>
    absurd (IsText.le_of_mem (isText_compact _) _ hmem) (by decide)
  rw [hfile, instructions_ofLines, List.filterMap_append, hother, List.nil_append]
  · exact List.filterMap_cons_some (said?_append "CMD" _)
  rw [List.forall_mem_append, List.forall_mem_singleton, String.toList_append, List.mem_append, not_or]
  exact ⟨hlines, by decide, hbreak⟩

/-! ### Scripts -/

theorem not_mem_optionsLiteral (config : RunConfig) (indent : Nat) : '(' ∉ (optionsLiteral config indent).toList := by
  have hline : ∀ line ∈ Text.lines config.options.toJson.pretty.toList, '(' ∉ line := fun line hline hmem =>
    config.options.not_mem_pretty (Text.mem_of_mem_lines hline hmem)
  have hfold (lines : List (List Char)) (text : List Char) (hlines : ∀ line ∈ lines, '(' ∉ line) (htext : '(' ∉ text) :
      '(' ∉ lines.foldl (fun text line => text ++ '\n' :: (List.replicate indent ' ' ++ line)) text := by
    induction lines generalizing text with
    | nil => exact htext
    | cons line lines ih =>
      rw [List.forall_mem_cons] at hlines
      exact ih _ hlines.2 (by simp [htext, hlines.1])
  rw [optionsLiteral]
  split
  case h_1 => decide
  case h_2 first rest heq =>
    rw [heq, List.forall_mem_cons] at hline
    rw [String.toList_ofList]
    exact hfold rest first hline.2 hline.1

/-- A line without a call is none that calls a function. -/
theorem contains_eq_false {function : List Char} {line : String} (h : '(' ∉ line.toList) :
    Text.contains (function ++ ['(']) line.toList = false := by
  rw [Bool.eq_false_iff, ne_eq, Text.contains_iff]
  exact fun hpiece => h (hpiece.subset (List.mem_append_right _ List.mem_cons_self))

/-- A command is read where it stands as a string in a call, if it stands on one line. -/
theorem argument?_command {function : String} (hfunction : '\n' ∉ function.toList) {front : List String}
    (hfront : ∀ line ∈ front, Text.contains (function.toList ++ ['(']) line.toList = false) {lead more : String}
    (hcall : ∀ rest, Literal.behind? (function.toList ++ ['(']) (lead.toList ++ rest) = some rest)
    (hmore : more.toList.head? = some ',') (config : RunConfig) (back : List String) :
    Literal.argument? function (Text.ofLines (front ++ (lead ++ singleQuoted (command config) ++ more) :: back)) =
      some (command config) ↔ config.Unbroken := by
  rw [Literal.argument?_ofLines hfunction hfront hcall hmore, Option.ite_none_right_eq_some, and_iff_left rfl,
    ← unbroken_iff_command]

theorem argument?_taskFile (config : RunConfig) :
    Literal.argument? "exec" (taskFile config) = some (command (once config)) ↔ config.Unbroken := by
  obtain ⟨front, back, hfile, hfront⟩ : ∃ front back : List String,
      taskFile config = Text.ofLines (front ++
        ("  exec(" ++ singleQuoted (command (once config)) ++ ", (err, stdout, stderr) => \x7b") :: back) ∧
      ∀ line ∈ front, Text.contains ("exec".toList ++ ['(']) line.toList = false := by
    refine ⟨[_, _, _, _, _, _, _], _, rfl, ?_⟩
    simp only [List.forall_mem_cons]
    refine ⟨by decide, by decide, by decide, by decide, contains_eq_false ?_, by decide, by decide, nofun⟩
    simpa using not_mem_optionsLiteral config 0
  rw [hfile]
  exact argument?_command (by decide) hfront (fun _ => rfl) rfl (once config) back

theorem argument?_pluginFile (config : RunConfig) :
    Literal.argument? "execSync" (pluginFile config) = some (command (once config)) ↔ config.Unbroken := by
  obtain ⟨front, back, hfile, hfront⟩ : ∃ front back : List String,
      pluginFile config = Text.ofLines (front ++
        ("      execSync(" ++ singleQuoted (command (once config)) ++ ", \x7b stdio: 'inherit' \x7d);") :: back) ∧
      ∀ line ∈ front, Text.contains ("execSync".toList ++ ['(']) line.toList = false := by
    refine ⟨[_, _, _, _, _, _, _, _, _], _, rfl, ?_⟩
    simp only [List.forall_mem_cons]
    refine ⟨by decide, by decide, by decide, by decide, contains_eq_false ?_, by decide, by decide, by decide,
      by decide, nofun⟩
    simpa using not_mem_optionsLiteral config 4
  rw [hfile]
  exact argument?_command (by decide) hfront (fun _ => rfl) rfl (once config) back

/-- Read by the rules of the files that hold them, the commands of a run are the commands again. A table of scripts
holds the command as it is, with watching, and at the two levels, the recipe of an image the arguments of a run that
does not watch. The files for a task runner and for a bundler pass the command of that run to a shell just if no path
holds a line break, which a string of a script cannot hold. -/
theorem commands_embedded (config : RunConfig) :
    Json.parse (packageScripts config) = .ok (.object [("scripts", .object
      [("minify", .string (command config)),
        ("minify:watch", .string (command { config with watch := true })),
        ("minify:aggressive", .string (command (config.withLevel .aggressive))),
        ("minify:light", .string (command (config.withLevel .light)))])]) ∧
    (instructions "CMD" (imageRecipe config)).map Json.parse =
      [.ok (Json.strings (commandArguments { config with watch := false }))] ∧
    (Literal.argument? "exec" (taskFile config) = some (command { config with watch := false }) ↔
      config.Unbroken) ∧
    (Literal.argument? "execSync" (pluginFile config) = some (command { config with watch := false }) ↔
      config.Unbroken) := by
  refine ⟨parse_packageScripts config, ?_, argument?_taskFile config, argument?_pluginFile config⟩
  obtain ⟨source, hsource, hdepth⟩ := Source.exists_writes_strings (commandArguments (once config))
  rw [instructions_imageRecipe, List.map_singleton, hsource.parse_compact (hdepth.trans (by decide))]
  rfl

end Minifier.Target
