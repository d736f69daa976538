import Minifier.Log
import Minifier.Minify

/-!
Minifying by a backend that may fail, and by the basic minifier where it does. A backend is loaded once
it is needed; a load that fails is tried again by the next call, and one that succeeds is kept.
Whatever a backend does, even if it breaks off, the caller gets an outcome.
-/

namespace Minifier

/-- What a step that breaks off leaves behind. -/
inductive Breakdown where
  /-- A text that says what happened. -/
  | text (message : String) : Breakdown
  /-- Something else. -/
  | silent : Breakdown
  deriving DecidableEq, Repr

/-- What happened, in words. -/
def Breakdown.message : Breakdown → String
  | text message => message
  | silent => "unexpected internal error"

/-- How a step of a backend ends. -/
inductive Attempt (α : Type) where
  | done (value : α) : Attempt α
  | failed (error : Error) : Attempt α
  | brokeDown (breakdown : Breakdown) : Attempt α
  deriving Repr

/-- What a backend makes of a text. -/
structure BackendResult where
  code : String
  warnings : List String := []
  deriving DecidableEq, Repr

/-- What a backend does when it is asked. -/
structure Backend where
  name : String
  /-- Gets ready. -/
  load : Attempt Unit
  /-- Minifies a text. -/
  run : (content : String) → Options → Attempt BackendResult

/-- A backend that is loaded at most once. -/
structure BackendState where
  loaded : Bool := false
  deriving DecidableEq, Repr

/-- What a call did: its outcome, the state of the backend afterwards, which steps of the backend were
entered, and what is logged. -/
structure BackendCall where
  outcome : Outcome
  state : BackendState
  enteredLoad : Bool
  enteredRun : Bool
  log : List LogEntry

namespace BackendState

/-- Why a step did not deliver. -/
def failureText {α : Type} (name : String) : Attempt α → Option String
  | .done _ => none
  | .failed error => some error.message
  | .brokeDown breakdown => some s!"{name} backend panicked: {breakdown.message}"

/-- The outcome of the basic minifier, with the backend's failure as its first warning. -/
def fallBack (failure : String) (basic : Outcome) : Outcome :=
  { basic with warnings := s!"{failure}; used the basic minifier instead" :: basic.warnings }

/-- Minifies with a backend, or with the basic minifier if the backend fails. An empty text reaches
neither. -/
def minify (state : BackendState) (backend : Backend) (content : String) (options : Options)
    (basic : String → Options → Outcome) : BackendCall :=
  if content.isEmpty then ⟨.unchanged content, state, false, false, []⟩
  else
    let giveUp (state : BackendState) (enteredLoad enteredRun : Bool) (log : List LogEntry)
        (failure : String) : BackendCall :=
      ⟨fallBack failure (basic content options), state, enteredLoad, enteredRun,
        log ++ [⟨.warn, s!"{backend.name} backend unavailable, using basic engine: {failure}"⟩]⟩
    let proceed (enteredLoad : Bool) (log : List LogEntry) : BackendCall :=
      match backend.run content options with
      | .done output =>
        ⟨.ofTexts content output.code output.warnings, ⟨true⟩, enteredLoad, true, log⟩
      | other => giveUp ⟨true⟩ enteredLoad true log ((failureText backend.name other).getD "")
    if state.loaded then proceed false []
    else
      match backend.load with
      | .done () => proceed true [⟨.info, s!"Loaded {backend.name} backend"⟩]
      | other => giveUp ⟨false⟩ true false [] ((failureText backend.name other).getD "")

end BackendState

/-! ### The backends by language -/

/-- The setting that keeps every backend unloaded. -/
def basicOnlySetting : String := "CODESHRINK_BASIC_ONLY"

/-- Refuses to load a backend if the setting says so. -/
def checkAllowed (backend : String) (setting : Option String) : Except Error Unit :=
  match setting with
  | none => .ok ()
  | some value =>
    if ["1", "true", "yes"].contains (String.ofList (Text.trim value.toList)) then
      .error (.backendLoad backend s!"disabled by {basicOnlySetting}")
    else .ok ()

/-- A backend that is not part of this program. It never loads; the setting decides what is said. -/
def absentBackend (name : String) (setting : Option String) : Backend where
  name := name
  load :=
    match checkAllowed name setting with
    | .error error => .failed error
    | .ok () => .failed (.backendLoad name "not available")
  run _ _ := .failed (.backendProcessing name "not available")

/-- The states of the backends, one for each language that has one. -/
structure Backends where
  html : BackendState := {}
  css : BackendState := {}
  script : BackendState := {}
  deriving DecidableEq, Repr

namespace Backends

/-- The backends' names, and whether each is loaded. -/
def status (backends : Backends) : List (String × Bool) :=
  [("minify-html", backends.html.loaded), ("lightningcss", backends.css.loaded),
   ("oxc", backends.script.loaded)]

/-- The log entries of the basic minifier: what went wrong, for debugging. -/
def basicLog (outcome : Outcome) : List LogEntry := outcome.errors.map fun error => ⟨.debug, error⟩

/-- Minifies with the backend for a language, or with the basic minifier where there is none. -/
def minify (backends : Backends) (setting : Option String) (content : String)
    (language : Language) (options : Options) : Outcome × Backends × List LogEntry :=
  let ask (name : String) (state : BackendState) : BackendCall :=
    state.minify (absentBackend name setting) content options fun content options =>
      Minifier.minify content language options
  match language with
  | .html =>
    let call := ask "minify-html" backends.html
    (call.outcome, { backends with html := call.state }, call.log ++ basicLog call.outcome)
  | .css =>
    let call := ask "lightningcss" backends.css
    (call.outcome, { backends with css := call.state }, call.log ++ basicLog call.outcome)
  | .javascript =>
    let call := ask "oxc" backends.script
    (call.outcome, { backends with script := call.state }, call.log ++ basicLog call.outcome)
  | other =>
    let outcome := Minifier.minify content other options
    (outcome, backends, basicLog outcome)

end Backends

end Minifier
