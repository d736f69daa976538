import Minifier.Target.Shell

/-!
Shell text as a shell takes it apart: commands, set off by line breaks, whose words are set off by blanks and
put together from plain, quoted and escaped characters. Whatever would stand for other text is refused, so
the words of a text that is read hold its own characters and nothing else.
-/

namespace Minifier.Shell

/-- Why a text is not a list of commands whose words stand for themselves. -/
inductive Fault where
  /-- The text ends in quotes or after a backslash. -/
  | unfinished : Fault
  /-- A character that stands for other text, or may do so, is not quoted. -/
  | special : Fault
  /-- An operator stands between words. -/
  | operator : Fault
  /-- The null character, which no word can hold. -/
  | null : Fault
  deriving DecidableEq, Repr

/-- Whether a character opens an expansion, or may be part of a pattern, an assignment, a reference to a job
or a reserved word. -/
def isSpecial (c : Char) : Bool :=
  ['$', '\x60', '*', '?', '[', '~', '=', '%', '!', '\x7b', '\x7d'].contains c

def isOperator (c : Char) : Bool := ['|', '&', ';', '<', '>', '(', ')'].contains c

/-- Whether a character is special between double quotes as well, so that a backslash takes that from it. -/
def isQuotedSpecial (c : Char) : Bool := ['$', '\x60', '"', '\\'].contains c

/-- What the next character is part of. -/
inductive Mode where
  | plain | escape | singleQuotes | doubleQuotes | doubleEscape | comment
  deriving DecidableEq, Repr

/-- What has been read of a text. -/
structure Reading where
  mode : Mode := .plain
  /-- The word that is open, if there is one. After quotes it may be empty. -/
  word : Option (List Char) := none
  /-- The words of the command that is open. -/
  words : List String := []
  /-- The commands that are complete. -/
  commands : List (List String) := []
  deriving DecidableEq, Repr

namespace Reading

/-- Adds a character to the open word. -/
def push (reading : Reading) (c : Char) : Reading :=
  { reading with word := some (reading.word.getD [] ++ [c]) }

def endWord (reading : Reading) : Reading :=
  match reading.word with
  | none => reading
  | some word => { reading with word := none, words := reading.words ++ [String.ofList word] }

/-- Ends a command. A line without words is none. -/
def endCommand (reading : Reading) : Reading :=
  let ended := reading.endWord
  if ended.words = [] then ended
  else { ended with words := [], commands := ended.commands ++ [ended.words] }

/-- Reads a character outside quotes. -/
def stepPlain (reading : Reading) (c : Char) : Except Fault Reading :=
  if c = '\\' then .ok { reading with mode := .escape }
  else if c = '\'' then .ok { reading with mode := .singleQuotes, word := some (reading.word.getD []) }
  else if c = '"' then .ok { reading with mode := .doubleQuotes, word := some (reading.word.getD []) }
  else if c = ' ' || c = '\t' then .ok reading.endWord
  else if c = '\n' then .ok reading.endCommand
  else if c = '#' && reading.word.isNone then .ok { reading with mode := .comment }
  else if isOperator c then .error .operator
  else if isSpecial c then .error .special
  else .ok (reading.push c)

/-- Reads a character. A backslash takes a line break away, outside quotes and between double quotes. -/
def step (reading : Reading) (c : Char) : Except Fault Reading :=
  if c = '\x00' then .error .null
  else
    match reading.mode with
    | .plain => reading.stepPlain c
    | .escape =>
      if c = '\n' then .ok { reading with mode := .plain }
      else .ok ({ reading with mode := .plain }.push c)
    | .singleQuotes => if c = '\'' then .ok { reading with mode := .plain } else .ok (reading.push c)
    | .doubleQuotes =>
      if c = '"' then .ok { reading with mode := .plain }
      else if c = '\\' then .ok { reading with mode := .doubleEscape }
      else if c = '$' || c = '\x60' then .error .special
      else .ok (reading.push c)
    | .doubleEscape =>
      if c = '\n' then .ok { reading with mode := .doubleQuotes }
      else if isQuotedSpecial c then .ok ({ reading with mode := .doubleQuotes }.push c)
      else .ok (({ reading with mode := .doubleQuotes }.push '\\').push c)
    | .comment => .ok (if c = '\n' then { reading with mode := .plain }.endCommand else reading)

def run (reading : Reading) (text : List Char) : Except Fault Reading := text.foldlM step reading

/-- Ends the text. -/
def finish (reading : Reading) : Except Fault (List (List String)) :=
  match reading.mode with
  | .plain | .comment => .ok reading.endCommand.commands
  | _ => .error .unfinished

end Reading

/-- The commands of a text, each as its words. -/
def read (text : String) : Except Fault (List (List String)) := do
  (← Reading.run {} text.toList).finish

example : read "cp 'a \"b' \"\\$c\\d\" \\\ne # f\n\nls\n" =
    .ok [["cp", "a \"b", "$c\\d", "e"], ["ls"]] := by rfl

example : read "cp \"$c\"" = .error .special := by rfl

namespace Reading

variable {reading : Reading} {words : List String} {commands : List (List String)}

theorem run_append (first second : List Char) :
    reading.run (first ++ second) = reading.run first >>= fun next => next.run second :=
  List.foldlM_append ..

theorem run_cons (c : Char) (text : List Char) :
    reading.run (c :: text) = reading.step c >>= fun next => next.run text :=
  List.foldlM_cons ..

theorem run_append_of_run {first second : List Char} {next : Reading} (h : reading.run first = .ok next) :
    reading.run (first ++ second) = next.run second := by
  rw [run_append, h]
  rfl

theorem run_cons_of_step {c : Char} {text : List Char} {next : Reading} (h : reading.step c = .ok next) :
    reading.run (c :: text) = next.run text := by
  rw [run_cons, h]
  rfl

/-! ### Where words and commands end -/

/-- Outside quotes, with these words of the open command. The last of them may still go on. -/
structure At (reading : Reading) (words : List String) (commands : List (List String)) : Prop where
  plain : reading.mode = .plain
  ended : reading.endWord = { words, commands }

theorem At.step_space (h : reading.At words commands) : reading.step ' ' = .ok { words, commands } := by
  rw [step, h.plain, ← h.ended]
  rfl

theorem At.endCommand_eq (h : reading.At words commands) (hwords : words ≠ []) :
    reading.endCommand = { commands := commands ++ [words] } := by
  rw [endCommand, h.ended]
  exact if_neg hwords

theorem At.step_break (h : reading.At words commands) (hwords : words ≠ []) :
    reading.step '\n' = .ok { commands := commands ++ [words] } := by
  rw [step, h.plain, ← h.endCommand_eq hwords]
  rfl

theorem At.finish_eq (h : reading.At words commands) (hwords : words ≠ []) :
    reading.finish = .ok (commands ++ [words]) := by
  rw [finish, h.plain, h.endCommand_eq hwords]

/-! ### Bare words -/

/-- Whether a character stands for itself outside quotes, wherever it stands in a word. -/
def isBare (c : Char) : Bool :=
  !(['\x00', '\\', '\'', '"', ' ', '\t', '\n', '#'].contains c) && !isOperator c && !isSpecial c

theorem step_bare {c : Char} (h : isBare c = true) (hplain : reading.mode = .plain) :
    reading.step c = .ok (reading.push c) := by
  rw [isBare, Bool.and_eq_true, Bool.and_eq_true, Bool.not_eq_true', Bool.not_eq_true', Bool.not_eq_true'] at h
  obtain ⟨⟨hself, hoperator⟩, hspecial⟩ := h
  have hne : ∀ d ∈ ['\x00', '\\', '\'', '"', ' ', '\t', '\n', '#'], c ≠ d := by
    rintro d hd rfl
    rw [List.contains_iff_mem.mpr hd] at hself
    exact Bool.noConfusion hself
  simp only [List.forall_mem_cons] at hne
  simp [step, stepPlain, hplain, hne, hoperator, hspecial]

/-- A word of characters that stand for themselves. -/
def IsBare (text : String) : Prop := text.toList ≠ [] ∧ ∀ c ∈ text.toList, isBare c = true

instance (text : String) : Decidable (IsBare text) :=
  decidable_of_iff (text.toList ≠ [] ∧ text.toList.all isBare = true) (by rw [IsBare, List.all_eq_true])

theorem run_bare {text : List Char} (hbare : ∀ c ∈ text, isBare c = true) (word : List Char) :
    run ⟨.plain, some word, words, commands⟩ text = .ok ⟨.plain, some (word ++ text), words, commands⟩ := by
  induction text generalizing word with
  | nil =>
    rw [List.append_nil]
    rfl
  | cons c text ih =>
    rw [List.forall_mem_cons] at hbare
    rw [run_cons_of_step (step_bare hbare.1 rfl), push, Option.getD_some, ih hbare.2, List.append_assoc,
      List.singleton_append]

/-- The first character opens the word and the others join it. -/
theorem run_isBare {text : String} (h : IsBare text) :
    run { words, commands } text.toList = .ok { word := some text.toList, words, commands } := by
  obtain ⟨hne, hbare⟩ := h
  obtain ⟨c, rest, htext⟩ := List.exists_cons_of_ne_nil hne
  rw [htext, List.forall_mem_cons] at hbare
  rw [htext, run_cons_of_step (step_bare hbare.1 rfl)]
  exact run_bare hbare.2 [c]

theorem at_word (text : String) :
    At { word := some text.toList, words, commands } (words ++ [text]) commands := by
  refine ⟨rfl, ?_⟩
  simp only [endWord, String.ofList_toList]

/-! ### Words in double quotes -/

end Reading

open Target

/-- A character between double quotes, with a backslash where it needs one. -/
def escaped (c : Char) : List Char := if isQuotedSpecial c then ['\\', c] else [c]

theorem toList_escapeDoubleQuoted (value : String) :
    (escapeDoubleQuoted value).toList = value.toList.flatMap escaped := by
  rw [escapeDoubleQuoted, String.toList_ofList]
  congr 1
  funext c
  simp only [escaped, isQuotedSpecial, List.contains_cons, List.contains_nil, Bool.or_false]
  grind

/-- Puts a backslash before every occurrence of one character. -/
def escapeOne (mark : Char) (text : List Char) : List Char :=
  text.flatMap fun c => if c = mark then ['\\', c] else [c]

/-- Escaping is the same as escaping one character after the other, if the backslash comes first: the later
ones are no backslashes, so none is escaped twice. -/
theorem toList_escapeDoubleQuoted_eq_escapeOne (value : String) :
    (escapeDoubleQuoted value).toList =
      escapeOne '\x60' (escapeOne '$' (escapeOne '"' (escapeOne '\\' value.toList))) := by
  rw [toList_escapeDoubleQuoted]
  simp only [escapeOne, List.flatMap_assoc]
  congr 1
  funext c
  by_cases hbackslash : c = '\\'
  · subst hbackslash
    rfl
  by_cases hquote : c = '"'
  · subst hquote
    rfl
  by_cases hdollar : c = '$'
  · subst hdollar
    rfl
  by_cases hbackquote : c = '\x60'
  · subst hbackquote
    rfl
  simp [escaped, isQuotedSpecial, hbackslash, hquote, hdollar, hbackquote]

namespace Reading

variable {words : List String} {commands : List (List String)}

theorem run_escaped {c : Char} (h : c ≠ '\x00') (word : List Char) :
    run ⟨.doubleQuotes, some word, words, commands⟩ (escaped c) =
      .ok ⟨.doubleQuotes, some (word ++ [c]), words, commands⟩ := by
  rw [escaped]
  by_cases hspecial : isQuotedSpecial c = true
  · have hbreak : c ≠ '\n' := by
      rintro rfl
      exact absurd hspecial (by decide)
    have hescape : step ⟨.doubleQuotes, some word, words, commands⟩ '\\' =
        .ok ⟨.doubleEscape, some word, words, commands⟩ := rfl
    rw [if_pos hspecial, run_cons_of_step hescape]
    refine run_cons_of_step ?_
    simp only [step, if_neg h, if_neg hbreak, if_pos hspecial]
    rfl
  · have hne : c ≠ '$' ∧ c ≠ '\x60' ∧ c ≠ '"' ∧ c ≠ '\\' := by
      simpa [isQuotedSpecial] using hspecial
    rw [if_neg hspecial]
    refine run_cons_of_step ?_
    simp only [step, if_neg h, if_neg hne.2.2.1, if_neg hne.2.2.2]
    simp [hne, push]

/-- The induction is on the value, whose characters go to the open word one by one. -/
theorem run_flatMap_escaped {value : List Char} (h : '\x00' ∉ value) (word : List Char) :
    run ⟨.doubleQuotes, some word, words, commands⟩ (value.flatMap escaped) =
      .ok ⟨.doubleQuotes, some (word ++ value), words, commands⟩ := by
  induction value generalizing word with
  | nil =>
    rw [List.append_nil]
    rfl
  | cons c value ih =>
    rw [List.mem_cons, not_or] at h
    rw [List.flatMap_cons, run_append_of_run (run_escaped (Ne.symm h.1) word), ih h.2, List.append_assoc,
      List.singleton_append]

theorem run_quoted {value : String} (h : '\x00' ∉ value.toList) :
    run { words, commands } ('"' :: (escapeDoubleQuoted value).toList ++ ['"']) =
      .ok { word := some value.toList, words, commands } := by
  have hopen : step { words, commands } '"' = .ok ⟨.doubleQuotes, some [], words, commands⟩ := rfl
  rw [toList_escapeDoubleQuoted, List.cons_append, run_cons_of_step hopen,
    run_append_of_run (run_flatMap_escaped h [])]
  rfl

end Reading

end Minifier.Shell
