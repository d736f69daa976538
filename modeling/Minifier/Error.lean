import Minifier.Json.Failure
import Minifier.Masking

/-!
Everything that can go wrong, by its cause, and the words for it.
-/

namespace Minifier

/-- Where in a content an error lies, as far as that is known. -/
structure Location where
  line : Option Nat := none
  column : Option Nat := none
  /-- The line of the content. -/
  snippet : Option String := none
  deriving DecidableEq, Repr

/-- An error of the program. -/
inductive Error where
  /-- A file cannot be reached, read or written. -/
  | io (problem : String) : Error
  | emptyFile (path : String) : Error
  | fileTooLarge (path : String) (size limit : Nat) : Error
  | invalidJson (problem : String) (location : Option Location) : Error
  /-- A backend is not available. -/
  | backendLoad (backend problem : String) : Error
  /-- A backend gave up on a content. -/
  | backendProcessing (backend problem : String) : Error
  | unsafeInput (problem : String) : Error
  | config (problem : String) : Error
  | watch (problem : String) : Error
  | internal (problem : String) : Error
  deriving DecidableEq, Repr

namespace Error

/-- An error in one sentence. -/
def message : Error → String
  | io problem => s!"IO error: {problem}"
  | emptyFile path => s!"File is empty: {path}"
  | fileTooLarge path size limit => s!"File too large: {path} is {size} bytes (limit {limit} bytes)"
  | invalidJson problem _ => s!"Invalid JSON: {problem}"
  | backendLoad backend problem => s!"Failed to load {backend} backend: {problem}"
  | backendProcessing backend problem => s!"{backend} backend failed: {problem}"
  | unsafeInput problem => s!"Cannot minify safely: {problem}"
  | config problem => s!"Configuration error: {problem}"
  | watch problem => s!"Watch error: {problem}"
  | internal problem => s!"Internal error: {problem}"

/-- A content is not JSON. The error names the place and quotes the line, which is empty if the place
lies after the last line. -/
def ofSyntax (error : Json.SyntaxError) (content : List Char) : Error :=
  let line := (Text.lines content)[error.place.line - 1]?.getD []
  .invalidJson error.message
    (some { line := some error.place.line, column := some error.place.column,
            snippet := some (String.ofList line) })

/-- A content cannot be minified safely. -/
def ofUnsafe (cause : Unsafe) : Error := .unsafeInput cause.message

/-- Whether an error is about what a run was given: it stops the run, and all else concerns one file. -/
def isPrecondition : Error → Bool
  | emptyFile .. | fileTooLarge .. => true
  | _ => false

/-- Puts blanks before a text until it has a given length. -/
def padLeft (width : Nat) (text : String) : String :=
  String.ofList (List.replicate (width - text.length) ' ') ++ text

/-- The lines about a location: where it is, the line itself, and a caret below the column. -/
def locationLines (location : Location) : String :=
  let place :=
    match location.line, location.column with
    | some line, some column => s!"\n  Location: line {line}, column {column}"
    | _, _ => ""
  let quoted :=
    match location.snippet with
    | none => ""
    | some snippet =>
      let caret :=
        match location.column with
        | none => ""
        | some column => "\n       | " ++ String.ofList (List.replicate (column - 1) ' ') ++ "^"
      s!"\n  {padLeft 4 (toString (location.line.getD 0))} | {snippet}{caret}"
  place ++ quoted

/-- An error with everything that is known about its place. -/
def detailed (error : Error) : String :=
  match error with
  | invalidJson _ (some location) => error.message ++ locationLines location
  | _ => error.message

end Error

end Minifier
