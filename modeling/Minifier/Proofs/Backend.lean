import Minifier.Backend

/-!
Calls of one backend, one after the other. A call that finds the backend unloaded loads it; the first load that
delivers is the last one, and one that fails or breaks off leaves the backend as it was. A text that the backend does
not deliver comes from the basic minifier, with one more warning in front and nothing else changed.
-/

namespace Minifier

/-- A text to be minified, what the backend does if it is asked now, and the basic minifier behind it. -/
structure BackendTask where
  content : String
  options : Options
  backend : Backend
  basic : String → Options → Outcome

namespace BackendTask

variable (task : BackendTask) (state : BackendState)

/-- The call about a task. -/
def call : BackendCall := state.minify task.backend task.content task.options task.basic

/-- The text is not empty, and a load would deliver. -/
def Loads : Prop := task.content ≠ "" ∧ task.backend.load = .done ()

/-- What the backend makes of the text. -/
def attempt : Attempt BackendResult := task.backend.run task.content task.options

/-- What the basic minifier makes of the text. -/
def fallback : Outcome := task.basic task.content task.options

/-! ### One call -/

/-- An empty text stays, and neither the backend nor its state is touched. -/
theorem call_of_empty (h : task.content = "") :
    task.call state = ⟨.unchanged task.content, state, false, false, []⟩ := by
  rw [call, BackendState.minify, h]
  rfl

/-- A backend that is loaded is asked at once. -/
theorem call_of_loaded (h : task.content ≠ "") (hloaded : state.loaded = true) :
    (task.call state).enteredLoad = false ∧ (task.call state).enteredRun = true ∧
      (task.call state).state.loaded = true := by
  have hempty : task.content.isEmpty = false := by simpa using h
  rw [call, BackendState.minify, hempty, hloaded]
  cases task.backend.run task.content task.options <;> exact ⟨rfl, rfl, rfl⟩

/-- One that is not loaded is loaded first, and it is asked if that delivers. -/
theorem call_of_unloaded (h : task.content ≠ "") (hloaded : state.loaded = false) :
    (task.call state).enteredLoad = true ∧ ((task.call state).enteredRun = true ↔ task.Loads) ∧
      ((task.call state).state.loaded = true ↔ task.Loads) := by
  have hempty : task.content.isEmpty = false := by simpa using h
  rw [Loads, call, BackendState.minify, hempty, hloaded]
  cases hload : task.backend.load with
  | done => cases task.backend.run task.content task.options <;> simp [h]
  | failed error => simp
  | brokeDown breakdown => simp

theorem enteredLoad_call_iff :
    (task.call state).enteredLoad = true ↔ task.content ≠ "" ∧ state.loaded = false := by
  by_cases h : task.content = ""
  · simp [task.call_of_empty state h, h]
  · cases hloaded : state.loaded with
    | true => simp [task.call_of_loaded state h hloaded]
    | false => simp [task.call_of_unloaded state h hloaded, h]

theorem loaded_call_iff :
    (task.call state).state.loaded = true ↔ state.loaded = true ∨ task.Loads := by
  by_cases h : task.content = ""
  · simp [task.call_of_empty state h, Loads, h]
  · cases hloaded : state.loaded with
    | true => simp [task.call_of_loaded state h hloaded]
    | false => simp [task.call_of_unloaded state h hloaded]

theorem enteredRun_call_iff :
    (task.call state).enteredRun = true ↔ task.content ≠ "" ∧ (state.loaded = true ∨ task.Loads) := by
  by_cases h : task.content = ""
  · simp [task.call_of_empty state h, h]
  · cases hloaded : state.loaded with
    | true => simp [task.call_of_loaded state h hloaded, h]
    | false => simp [task.call_of_unloaded state h hloaded, h]

/-- If the backend delivers, its text and warnings are the outcome. -/
theorem outcome_call_of_done (h : task.content ≠ "") (hready : state.loaded = true ∨ task.Loads)
    {output : BackendResult} (hdone : task.attempt = .done output) :
    (task.call state).outcome = .ofTexts task.content output.code output.warnings := by
  have hempty : task.content.isEmpty = false := by simpa using h
  rw [attempt] at hdone
  rw [call, BackendState.minify, hempty, hdone]
  cases hloaded : state.loaded with
  | true => rfl
  | false =>
    obtain ⟨-, hload⟩ := hready.resolve_left (by simp [hloaded])
    rw [hload]
    rfl

/-- What went wrong with a backend that is loaded already or can be loaded now, or that cannot. -/
def Fails (ready : Prop) (failure : String) : Prop :=
  ready ∧ BackendState.failureText task.backend.name task.attempt = some failure ∨
    ¬ ready ∧ BackendState.failureText task.backend.name task.backend.load = some failure

/-- If it fails, the outcome is that of the basic minifier with one more warning. -/
theorem exists_outcome_call_of_failure (h : task.content ≠ "")
    (hfails : ¬ ((state.loaded = true ∨ task.Loads) ∧ ∃ output, task.attempt = .done output)) :
    ∃ failure, task.Fails (state.loaded = true ∨ task.Loads) failure ∧
      (task.call state).outcome = BackendState.fallBack failure task.fallback := by
  have hempty : task.content.isEmpty = false := by simpa using h
  rw [attempt] at hfails
  simp only [Fails, attempt]
  rw [call, BackendState.minify, hempty]
  cases hloaded : state.loaded with
  | true =>
    cases hrun : task.backend.run task.content task.options with
    | done output => simp [hloaded, hrun] at hfails
    | failed error => exact ⟨_, .inl ⟨.inl rfl, rfl⟩, rfl⟩
    | brokeDown breakdown => exact ⟨_, .inl ⟨.inl rfl, rfl⟩, rfl⟩
  | false =>
    cases hload : task.backend.load with
    | done =>
      have hready : task.Loads := ⟨h, hload⟩
      cases hrun : task.backend.run task.content task.options with
      | done output => simp [hready, hrun] at hfails
      | failed error => exact ⟨_, .inl ⟨.inr hready, rfl⟩, rfl⟩
      | brokeDown breakdown => exact ⟨_, .inl ⟨.inr hready, rfl⟩, rfl⟩
    | failed error => exact ⟨_, .inr ⟨by simp [Loads, hload], rfl⟩, rfl⟩
    | brokeDown breakdown => exact ⟨_, .inr ⟨by simp [Loads, hload], rfl⟩, rfl⟩

/-! ### Calls in sequence -/

/-- The state of a backend after some tasks. -/
def stateAfter (state : BackendState) (tasks : List BackendTask) : BackendState :=
  tasks.foldl (fun state task => (task.call state).state) state

/-- The calls about some tasks, each finding the backend as the one before left it. -/
def calls : BackendState → List BackendTask → List BackendCall
  | _, [] => []
  | state, task :: tasks => task.call state :: calls (task.call state).state tasks

variable (tasks before after : List BackendTask)

theorem length_calls : (calls state tasks).length = tasks.length := by
  induction tasks generalizing state with
  | nil => rfl
  | cons task tasks ih => exact congrArg (· + 1) (ih _)

theorem calls_append : calls state (before ++ after) = calls state before ++ calls (stateAfter state before) after := by
  induction before generalizing state with
  | nil => rfl
  | cons task before ih => exact congrArg (task.call state :: ·) (ih _)

/-- A backend is loaded once one of the tasks loads it, and for good. -/
theorem loaded_stateAfter_iff :
    (stateAfter state tasks).loaded = true ↔ state.loaded = true ∨ ∃ task ∈ tasks, task.Loads := by
  induction tasks generalizing state with
  | nil => simp [stateAfter]
  | cons task tasks ih =>
    have hstep : stateAfter state (task :: tasks) = stateAfter (task.call state).state tasks := rfl
    rw [hstep, ih, loaded_call_iff]
    simp [or_assoc]

/-- In any sequence of calls of a backend, whatever its loads and its work come to: a load is tried by exactly those
calls about a text that is not empty before which no load delivered; an empty text stays and the backend is left
alone; where a load has delivered and the backend delivers, the outcome is what it made of the text; and any other
outcome is that of the basic minifier with a warning in front that says what failed. -/
theorem exists_call (before : List BackendTask) (task : BackendTask) (after : List BackendTask) :
    ∃ earlier call later, calls {} (before ++ task :: after) = earlier ++ call :: later ∧
    earlier.length = before.length ∧ later.length = after.length ∧
    (call.enteredLoad = true ↔ task.content ≠ "" ∧ ∀ other ∈ before, ¬ other.Loads) ∧
    (call.enteredRun = true ↔ task.content ≠ "" ∧ ∃ other ∈ before ++ [task], other.Loads) ∧
    (call.state.loaded = true ↔ ∃ other ∈ before ++ [task], other.Loads) ∧
    (task.content = "" → call.outcome = .unchanged task.content) ∧
    (∀ output, task.content ≠ "" → (∃ other ∈ before ++ [task], other.Loads) → task.attempt = .done output →
      call.outcome =
        ⟨output.code, task.content.utf8ByteSize, output.code.utf8ByteSize, [], output.warnings⟩) ∧
    (task.content ≠ "" → ¬ ((∃ other ∈ before ++ [task], other.Loads) ∧ ∃ output, task.attempt = .done output) →
      ∃ failure, task.Fails (∃ other ∈ before ++ [task], other.Loads) failure ∧ call.outcome =
        { task.fallback with
          warnings := (failure ++ "; used the basic minifier instead") :: task.fallback.warnings }) := by
  have hbefore : (stateAfter {} before).loaded = true ↔ ∃ other ∈ before, other.Loads := by
    simpa using loaded_stateAfter_iff {} before
  have hready : (∃ other ∈ before ++ [task], other.Loads) ↔
      (stateAfter {} before).loaded = true ∨ task.Loads := by
    rw [hbefore]
    simp [or_and_right, exists_or]
  refine ⟨calls {} before, task.call (stateAfter {} before), _, calls_append {} before (task :: after),
    length_calls {} before, length_calls _ after, ?_, ?_, ?_, ?_, ?_, ?_⟩
  · rw [enteredLoad_call_iff, ← Bool.not_eq_true, hbefore]
    simp
  · rw [enteredRun_call_iff, hready]
  · rw [loaded_call_iff, hready]
  · intro h
    rw [task.call_of_empty _ h]
  · intro output h hloads hdone
    exact task.outcome_call_of_done _ h (hready.mp hloads) hdone
  · rw [hready]
    intro h hfails
    obtain ⟨failure, hfailure, houtcome⟩ := task.exists_outcome_call_of_failure _ h hfails
    refine ⟨failure, hfailure, ?_⟩
    rw [houtcome, BackendState.fallBack]
    rfl

/-- A text with blanks, a backend that loads and works as given, and a basic minifier that warns. -/
def padded (load : Attempt Unit) (attempt : Attempt BackendResult) : BackendTask where
  content := "  x  "
  options := {}
  backend := ⟨"stub", load, fun _ _ => attempt⟩
  basic content _ := .ofTexts content "x" ["basic"]

/-- A load that breaks off, and one that delivers though the work does not. -/
def unlucky : List BackendTask :=
  [padded (.brokeDown .silent) (.done ⟨"x", []⟩), padded (.done ()) (.brokeDown (.text "bug"))]

/-- Behind these two the backend is loaded, so a third call gets its text whatever another load would do. -/
theorem exists_call_third :
    ∃ earlier call later, calls {} (unlucky ++ [padded (.brokeDown .silent) (.done ⟨"y", ["w"]⟩)]) =
        earlier ++ call :: later ∧
      earlier.length = 2 ∧ call.enteredLoad ≠ true ∧ call.outcome = ⟨"y", 5, 1, [], ["w"]⟩ := by
  have hmem : padded (.done ()) (.brokeDown (.text "bug")) ∈ unlucky := List.mem_cons_of_mem _ List.mem_cons_self
  have hloads : (padded (.done ()) (.brokeDown (.text "bug"))).Loads := ⟨by decide, rfl⟩
  obtain ⟨earlier, call, later, hcalls, hlength, -, hload, -, -, -, hdelivers, -⟩ :=
    exists_call unlucky (padded (.brokeDown .silent) (.done ⟨"y", ["w"]⟩)) []
  refine ⟨earlier, call, later, hcalls, hlength, fun hentered => (hload.mp hentered).2 _ hmem hloads, ?_⟩
  rw [hdelivers ⟨"y", ["w"]⟩ (by decide) ⟨_, List.mem_append_left _ hmem, hloads⟩ rfl]
  decide +kernel

end BackendTask

end Minifier
