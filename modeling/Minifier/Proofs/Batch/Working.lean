import Minifier.Proofs.Host.Memory

/-!
What stops a batch before it begins, and work on one file of a batch. The first file in the list that is not there,
empty or too large decides how the batch ends, and then nothing has been written or measured. A file is read, minified
and written where its copy goes, and the backends stay as they are. What becomes of the file and of the tree depends on
the tree alone.
-/

namespace Minifier

open MemoryHost Minifier.Path

/-! ### Refusals -/

namespace MemoryHost

variable {α : Type}

theorem perform_discard (work : Work InMemory α) (shop : Workshop) (host : MemoryHost) :
    perform (discard work) shop host =
      (((perform work shop host).1.1.map fun _ => (), (perform work shop host).1.2), (perform work shop host).2) := by
  change perform (work >>= fun _ => pure ()) shop host = _
  rw [perform_bind]
  rcases perform work shop host with ⟨⟨_ | _, _⟩, _⟩ <;> rfl

theorem perform_observing (work : Work InMemory α) (shop : Workshop) (host : MemoryHost) :
    perform (Batch.observing work) shop host =
      ((.ok (perform work shop host).1.1, (perform work shop host).1.2), (perform work shop host).2) := rfl

/-- Work under a name is done as it is, with a log entry before it and one behind it. -/
theorem perform_timed (name : String) (work : Work InMemory α) (shop : Workshop) (host : MemoryHost) :
    perform (Batch.timed name work) shop host =
      ((perform work shop (host.withLog [⟨.debug, s!"Starting: {name}"⟩])).1,
        (perform work shop (host.withLog [⟨.debug, s!"Starting: {name}"⟩])).2.withLog
          [⟨.debug, s!"Completed: {name} in {(⟨0⟩ : Duration).rounded}"⟩]) := by
  rw [Batch.timed]
  simp only [perform_bind, perform_debug, perform_clock, perform_observing, perform_ofExcept]

theorem perform_checkedSize (path : String) (shop : Workshop) (host : MemoryHost) :
    perform (Files.checkedSize path) shop host =
      ((((host.files.status path).mapError fun fault => Error.io fault.message).bind fun status =>
        (Check.fileSize path status.size).map fun _ => status.size, shop), host) := by
  rw [Files.checkedSize, perform_bind, perform_status]
  cases host.files.status path with
  | error fault => rfl
  | ok status =>
    simp only [Except.mapError, perform_bind, perform_ofExcept]
    cases h : Check.fileSize path status.size <;> simp [h, Except.bind, Except.map, perform_pure]

end MemoryHost

namespace Batch

/-- A file stops a batch with an error: it cannot be reached, it is empty, or it has more than ten mebibytes. -/
inductive Refused (files : FileTree) (input : String) : Error → Prop
  | missing {fault : FileFault} (h : files.status input = .error fault) : Refused files input (.io fault.message)
  | empty {status : FileStatus} (h : files.status input = .ok status) (hsize : status.size = 0) :
      Refused files input (.emptyFile input)
  | tooLarge {status : FileStatus} (h : files.status input = .ok status) (hsize : 10 * 1024 * 1024 < status.size) :
      Refused files input (.fileTooLarge input status.size (10 * 1024 * 1024))

/-- The check before a batch begins. -/
def checkAll (inputs : List String) : Work InMemory PUnit :=
  forIn inputs PUnit.unit fun input _ => do
    discard (Files.checkedSize input)
    return .yield PUnit.unit

/-- What a batch does after the check. -/
def workOff (inputs : List String) (root : String) (config : RunConfig) : Work InMemory RunReport := do
  let results ← inputs.mapM fun input => observing (minifyFile root config input)
  return ⟨← results.mapM MonadExcept.ofExcept⟩

/-- A batch is the check and the work, with a log entry before them and one behind them. -/
theorem exists_perform_minify (inputs : List String) (root : String) (config : RunConfig) (shop : Workshop)
    (host : MemoryHost) :
    ∃ starting completed, perform (minify inputs root config) shop host =
      ((perform (do checkAll inputs; workOff inputs root config) shop (host.withLog [starting])).1,
        (perform (do checkAll inputs; workOff inputs root config) shop (host.withLog [starting])).2.withLog [completed]) :=
  ⟨_, _, perform_timed "minify batch" (do checkAll inputs; workOff inputs root config) shop host⟩

variable {inputs : List String} {input root : String} {config : RunConfig} {error : Error} {shop : Workshop} {host : MemoryHost}

theorem perform_checkedSize_of_refused (h : Refused host.files input error) (shop : Workshop) :
    perform (Files.checkedSize input) shop host = ((.error error, shop), host) := by
  rw [perform_checkedSize]
  cases h with
  | missing h => rw [h]; rfl
  | empty h hsize => simp [h, Except.mapError, Except.bind, Check.fileSize, hsize, Except.map]
  | tooLarge h hsize =>
    have hne : ¬ (FileStatus.size _ = 0) := Nat.ne_zero_of_lt hsize
    simp [h, Except.mapError, Except.bind, Check.fileSize, Check.maxFileSize, hsize, hne, Except.map]

theorem exists_perform_checkedSize (h : ∀ error, ¬ Refused host.files input error) (shop : Workshop) :
    ∃ size, perform (Files.checkedSize input) shop host = ((.ok size, shop), host) := by
  rw [perform_checkedSize]
  cases hstatus : host.files.status input with
  | error fault => exact absurd (.missing hstatus) (h _)
  | ok status =>
    refine ⟨status.size, ?_⟩
    have hne : status.size ≠ 0 := fun hsize => h _ (.empty hstatus hsize)
    have hle : ¬ Check.maxFileSize < status.size := fun hsize => h _ (.tooLarge hstatus hsize)
    simp [Except.mapError, Except.bind, Check.fileSize, hne, hle, Except.map]

theorem perform_checkAll_cons (input : String) (inputs : List String) (shop : Workshop) (host : MemoryHost) :
    perform (checkAll (input :: inputs)) shop host =
      match perform (Files.checkedSize input) shop host with
      | ((.ok _, shop), host) => perform (checkAll inputs) shop host
      | ((.error error, shop), host) => ((.error error, shop), host) := by
  rw [checkAll, List.forIn_cons, perform_bind, perform_bind, perform_discard]
  rcases perform (Files.checkedSize input) shop host with ⟨⟨_ | _, _⟩, _⟩ <;> rfl

/-- The check ends at the first file that is refused. -/
theorem perform_checkAll_of_refused {before : List String}
    (hbefore : ∀ other ∈ before, ∀ error, ¬ Refused host.files other error) (h : Refused host.files input error)
    (after : List String) (shop : Workshop) :
    perform (checkAll (before ++ input :: after)) shop host = ((.error error, shop), host) := by
  induction before with
  | nil => rw [List.nil_append, perform_checkAll_cons, perform_checkedSize_of_refused h]
  | cons other before ih =>
    rw [List.forall_mem_cons] at hbefore
    obtain ⟨size, hsize⟩ := exists_perform_checkedSize hbefore.1 shop
    rw [List.cons_append, perform_checkAll_cons, hsize]
    exact ih hbefore.2

theorem perform_checkAll (h : ∀ input ∈ inputs, ∀ error, ¬ Refused host.files input error) (shop : Workshop) :
    perform (checkAll inputs) shop host = ((.ok PUnit.unit, shop), host) := by
  induction inputs with
  | nil => rfl
  | cons input inputs ih =>
    rw [List.forall_mem_cons] at h
    obtain ⟨size, hsize⟩ := exists_perform_checkedSize h.1 shop
    rw [perform_checkAll_cons, hsize]
    exact ih h.2

/-- Where some file is refused, there is a first one. -/
theorem exists_first_refused {files : FileTree} (h : ∃ input ∈ inputs, ∃ error, Refused files input error) :
    ∃ before input after error, inputs = before ++ input :: after ∧
      (∀ other ∈ before, ∀ error, ¬ Refused files other error) ∧ Refused files input error := by
  induction inputs with
  | nil => simp at h
  | cons first inputs ih =>
    by_cases hfirst : ∃ error, Refused files first error
    · obtain ⟨error, hfirst⟩ := hfirst
      exact ⟨[], first, inputs, error, rfl, List.forall_mem_nil _, hfirst⟩
    · obtain ⟨input, hinput, hrefused⟩ := h
      have hlater : input ∈ inputs := by
        rcases List.mem_cons.mp hinput with rfl | hlater
        · exact absurd hrefused hfirst
        · exact hlater
      obtain ⟨before, found, after, error, rfl, hbefore, hfound⟩ := ih ⟨input, hlater, hrefused⟩
      exact ⟨first :: before, found, after, error, rfl,
        List.forall_mem_cons.mpr ⟨not_exists.mp hfirst, hbefore⟩, hfound⟩

/-- The first file that is refused decides, and nothing but log entries is left of the batch. -/
theorem exists_perform_minify_of_refused {before : List String}
    (hbefore : ∀ other ∈ before, ∀ error, ¬ Refused host.files other error) (hinput : Refused host.files input error)
    (after : List String) (root : String) (config : RunConfig) (shop : Workshop) :
    ∃ entries, perform (minify (before ++ input :: after) root config) shop host =
      ((.error error, shop), { host with logged := host.logged ++ entries }) := by
  obtain ⟨starting, completed, hperform⟩ := exists_perform_minify (before ++ input :: after) root config shop host
  have hcheck := @perform_checkAll_of_refused _ _ (host.withLog [starting]) _ hbefore hinput after shop
  refine ⟨[starting, completed], ?_⟩
  rw [hperform, perform_bind, hcheck, withLog, withLog, List.append_assoc]
  rfl

/-- A batch with a file that is not there, empty or too large ends with the error of the first such file in the list.
It changes no file and no directory, measures nothing, and leaves nothing but log entries. -/
theorem minify_eq_error (h : ∃ input ∈ inputs, ∃ error, Refused host.files input error) (root : String)
    (config : RunConfig) (shop : Workshop) :
    ∃ before input after error entries, inputs = before ++ input :: after ∧
      (∀ other ∈ before, ∀ error, ¬ Refused host.files other error) ∧ Refused host.files input error ∧
      perform (minify inputs root config) shop host =
        ((.error error, shop), { host with logged := host.logged ++ entries }) := by
  obtain ⟨before, input, after, error, rfl, hbefore, hinput⟩ := exists_first_refused h
  obtain ⟨entries, hperform⟩ := exists_perform_minify_of_refused hbefore hinput after root config shop
  exact ⟨before, input, after, error, entries, rfl, hbefore, hinput, hperform⟩

/-- Of three files the second one is empty and the third one is not there. -/
def gaps : FileTree := ⟨[(["a.css"], .file (.text "a{}")), (["b.css"], .file (.text ""))]⟩

/-- The empty file decides. -/
theorem minify_eq_error_gaps :
    (∃ input ∈ ["a.css", "b.css", "c.css"], ∃ error, Refused gaps input error) ∧
    ∃ before input after error entries, ["a.css", "b.css", "c.css"] = before ++ input :: after ∧
      (∀ other ∈ before, ∀ error, ¬ Refused gaps other error) ∧ Refused gaps input error ∧
      perform (minify ["a.css", "b.css", "c.css"] "." {}) {} { files := gaps } =
        ((.error error, {}), { files := gaps, logged := entries }) := by
  have hstatus : gaps.status "b.css" = .ok (.file 0) := by decide +kernel
  have h : ∃ input ∈ ["a.css", "b.css", "c.css"], ∃ error, Refused gaps input error :=
    ⟨"b.css", by decide, .emptyFile "b.css", .empty hstatus rfl⟩
  exact ⟨h, @minify_eq_error _ { files := gaps } h "." {} {}⟩

end Batch

/-! ### Backends -/

/-- A backend that is not part of the program stays as it is. -/
theorem BackendState.minify_absentBackend (state : BackendState) (name : String) (setting : Option String)
    (content : String) (options : Options) (basic : String → Options → Outcome) :
    (state.minify (absentBackend name setting) content options basic).state = state := by
  obtain ⟨loaded⟩ := state
  rw [minify]
  by_cases hempty : content.isEmpty
  · rw [if_pos hempty]
  · rw [if_neg hempty]
    cases loaded with
    | true => rfl
    | false => cases hallowed : checkAllowed name setting <;> simp [absentBackend, hallowed]

theorem Backends.minify_backends (backends : Backends) (setting : Option String) (content : String)
    (language : Language) (options : Options) : (backends.minify setting content language options).2.1 = backends := by
  cases language <;> simp [minify, BackendState.minify_absentBackend]

namespace Batch

variable {root input : String} {config : RunConfig} {shop : Workshop} {host : MemoryHost}

theorem perform_logAll (entries : List LogEntry) (shop : Workshop) (host : MemoryHost) :
    perform (ε := Error) (Host.logAll entries) shop host = ((.ok (), shop), host.withLog entries) := by
  induction entries generalizing host with
  | nil => simp [Host.logAll, withLog, perform_pure]
  | cons entry entries ih =>
    change perform (Host.log entry >>= fun _ => Host.logAll entries) shop host = _
    rw [perform_bind]
    have hlog : perform (ε := Error) (Host.log entry) shop host = ((.ok (), shop), host.withLog [entry]) := rfl
    rw [hlog]
    refine (ih _).trans ?_
    rw [withLog, withLog, withLog, List.append_assoc]
    rfl

/-- Minifying a text changes the measurements and the log. -/
theorem exists_perform_minifyText (name content : String) (language : Language) (options : Options) (shop : Workshop)
    (host : MemoryHost) :
    ∃ profiler entries, perform (minifyText name content language options) shop host =
      ((.ok (shop.backends.minify (host.settings.lookup basicOnlySetting) content language options).1,
        { shop with profiler }), host.withLog entries) := by
  have hsetting (shop : Workshop) : perform (ε := Error) (Host.setting basicOnlySetting) shop host =
      ((.ok (host.settings.lookup basicOnlySetting), shop), host) := rfl
  have hget (shop : Workshop) : perform (ε := Error) get shop host = ((.ok shop, shop), host) := rfl
  have hmodify (change : Workshop → Workshop) (shop : Workshop) (host : MemoryHost) :
      perform (ε := Error) (modify change) shop host = ((.ok (), change shop), host) := rfl
  rw [minifyText]
  simp only [perform_bind, hsetting, perform_clock, hmodify, hget, perform_logAll, perform_pure,
    Backends.minify_backends]
  exact ⟨_, _, rfl⟩

/-! ### One file -/

section Files

variable {backends : Backends} {setting : Option String} {tree : FileTree}

/-- The language that a file is minified as. -/
def languageOf (config : RunConfig) (input content : String) : Language :=
  config.language.getD (Detect.languageOfFile input content)

/-- What minifying makes of the text of a file. -/
def outcomeOf (backends : Backends) (setting : Option String) (config : RunConfig) (input content : String) : Outcome :=
  (backends.minify setting content (languageOf config input content) config.options).1

/-- What is reported of a file with a text. -/
def reportOf (backends : Backends) (setting : Option String) (config : RunConfig) (input content : String) : FileReport :=
  let outcome := outcomeOf backends setting config input content
  { name := input, language := languageOf config input content, sourceSize := outcome.sourceSize
    minifiedSize := outcome.minifiedSize, warnings := outcome.warnings, error := outcome.errors.head? }

/-- Whether a path leads to a file. -/
def leadsToFile (tree : FileTree) (path : String) : Bool :=
  match tree.status path with
  | .ok status => status.isFile
  | .error _ => false

/-- Where the copy of a file goes. -/
def copyOf (tree : FileTree) (root : String) (config : RunConfig) (input : String) : String :=
  Files.outputPath input root (leadsToFile tree root) config.output

/-- The text of a file. -/
def textOf (tree : FileTree) (input : String) : Except FileFault String := (tree.read input).bind Files.textOf

/-- The text that is written for a file: none if it cannot be read or minified. -/
def newText (backends : Backends) (setting : Option String) (config : RunConfig) (tree : FileTree) (input : String) :
    Option String :=
  match textOf tree input with
  | .error _ => none
  | .ok content =>
    let outcome := outcomeOf backends setting config input content
    if outcome.errors = [] then some outcome.minified else none

/-- What becomes of a file, and of the tree. -/
inductive Handled (backends : Backends) (setting : Option String) (root : String) (config : RunConfig) (tree : FileTree)
    (input : String) : FileTree → Except Error FileReport → Prop
  | unread {fault : FileFault} (h : textOf tree input = .error fault) :
      Handled backends setting root config tree input tree (.error (.io fault.message))
  | refused {content : String} (h : textOf tree input = .ok content)
      (herrors : (outcomeOf backends setting config input content).errors ≠ []) :
      Handled backends setting root config tree input tree (.ok (reportOf backends setting config input content))
  | minified {content : String} {later : FileTree} {result : Except Error Unit} (h : textOf tree input = .ok content)
      (herrors : (outcomeOf backends setting config input content).errors = [])
      (hstored : tree.Stored later (copyOf tree root config input)
        (outcomeOf backends setting config input content).minified result) :
      Handled backends setting root config tree input later
        (result.map fun _ => reportOf backends setting config input content)

/-- Whatever becomes of a file, only directories on the way to its copy are made and only its copy is written. -/
theorem Handled.grown {later : FileTree} {result : Except Error FileReport}
    (h : Handled backends setting root config tree input later result) :
    tree.Grown (· ∈ way (copyOf tree root config input)) (fun stop _ => stop = Path.place (copyOf tree root config input))
      later := by
  cases h with
  | unread | refused => exact .refl
  | minified _ _ hstored =>
    rcases hstored with ⟨-, -, hgrown, -⟩ | ⟨-, -, hgrown⟩
    · exact hgrown.mono (fun _ => id) fun _ _ => And.left
    · exact hgrown.mono (fun _ => id) fun _ _ => False.elim

end Files

theorem perform_readText (input : String) (shop : Workshop) (host : MemoryHost) :
    perform (Files.readText input) shop host =
      (((textOf host.files input).mapError fun fault => .io fault.message, shop), host) := rfl

theorem perform_isFile (path : String) (shop : Workshop) (host : MemoryHost) :
    perform (ε := Error) (Files.isFile path) shop host = ((.ok (leadsToFile host.files path), shop), host) := by
  change perform (Host.status path >>= _) shop host = _
  rw [perform_bind]
  have h : perform (ε := Error) (Host.status path) shop host = ((.ok (host.files.status path), shop), host) := rfl
  rw [h, leadsToFile]
  rcases host.files.status path with fault | status <;> rfl

/-- What is left to do once a file is minified. -/
def finishFile (root : String) (config : RunConfig) (input : String) (outcome : Outcome) (report : FileReport) :
    Work InMemory FileReport := do
  if outcome.errors.head?.isNone then
    let output := Files.outputPath input root (← Files.isFile root) config.output
    Files.writeText output outcome.minified
    Host.debug s!"Wrote {output}"
  return report

/-- What is minified without an error is written where the copy goes. -/
theorem perform_finishFile (hwell : host.files.WellFormed)
    (hcopy : ∃ front name, IsName name ∧ EndsWith (copyOf host.files root config input) front name.toList)
    (outcome : Outcome) (report : FileReport) (shop : Workshop) :
    ∃ files entries result, perform (finishFile root config input outcome report) shop host =
        ((result, shop), { host with files, logged := host.logged ++ entries }) ∧
      (outcome.errors ≠ [] ∧ files = host.files ∧ result = .ok report ∨
        outcome.errors = [] ∧ ∃ stored, host.files.Stored files (copyOf host.files root config input) outcome.minified stored ∧
          result = stored.map fun _ => report) := by
  obtain ⟨front, name, hname, hends⟩ := hcopy
  rw [finishFile]
  cases herrors : outcome.errors with
  | cons error errors => exact ⟨host.files, [], .ok report, by simp [perform_pure], .inl ⟨nofun, rfl, rfl⟩⟩
  | nil =>
    obtain ⟨stored, files, hperform, hstored⟩ := perform_writeText hwell hname hends outcome.minified shop
    have hlater : ∃ entries, perform (finishFile root config input outcome report) shop host =
        ((stored.map fun _ => report, shop), { host with files, logged := host.logged ++ entries }) := by
      rw [copyOf] at hperform
      rw [finishFile, herrors, List.head?_nil, Option.isNone_none, if_pos rfl, perform_bind, perform_isFile]
      simp only
      rw [perform_bind, hperform]
      cases stored with
      | error error => exact ⟨[], by simp [Except.map]⟩
      | ok value => exact ⟨_, rfl⟩
    obtain ⟨entries, hlater⟩ := hlater
    rw [finishFile, herrors] at hlater
    exact ⟨files, entries, _, hlater, .inr ⟨rfl, stored, hstored, rfl⟩⟩

theorem perform_minifyFile (hwell : host.files.WellFormed)
    (hcopy : ∃ front name, IsName name ∧ EndsWith (copyOf host.files root config input) front name.toList)
    (shop : Workshop) :
    ∃ profiler files entries result, perform (minifyFile root config input) shop host =
        ((result, { shop with profiler }), { host with files, logged := host.logged ++ entries }) ∧
      Handled shop.backends (host.settings.lookup basicOnlySetting) root config host.files input files result := by
  rw [minifyFile, perform_bind, perform_readText]
  cases htext : textOf host.files input with
  | error fault => exact ⟨shop.profiler, host.files, [], _, by simp [Except.mapError], .unread htext⟩
  | ok content =>
    simp only [Except.mapError]
    rw [perform_bind, perform_debug]
    generalize hentry : (⟨.debug, s!"Processing: {input} ({(config.language.getD (Detect.languageOfFile input content)).name})"⟩ :
      LogEntry) = entry
    obtain ⟨profiler, entries, hminify⟩ := exists_perform_minifyText input content (languageOf config input content)
      config.options shop (host.withLog [entry])
    rw [languageOf] at hminify
    simp only
    rw [perform_bind, hminify]
    obtain ⟨files, more, result, hfinish, hresult⟩ := @perform_finishFile _ _ _ ((host.withLog [entry]).withLog entries)
      hwell hcopy (outcomeOf shop.backends (host.settings.lookup basicOnlySetting) config input content)
      (reportOf shop.backends (host.settings.lookup basicOnlySetting) config input content) { shop with profiler }
    refine ⟨profiler, files, [entry] ++ entries ++ more, result, ?_, ?_⟩
    · refine hfinish.trans ?_
      simp only [withLog, List.append_assoc]
    · rcases hresult with ⟨herrors, rfl, rfl⟩ | ⟨herrors, stored, hstored, rfl⟩
      · exact .refused htext herrors
      · exact .minified htext herrors hstored

end Batch

end Minifier
