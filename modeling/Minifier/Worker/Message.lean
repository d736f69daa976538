import Minifier.Config.Format
import Minifier.Outcome.Format

/-!
What passes between a worker and those who ask it. A response bears the id of its request, and a
result if it tells success, an error otherwise.
-/

namespace Minifier.Worker

open Json

/-- A text to minify, under an id. -/
structure Request where
  id : String
  code : String
  language : Language
  options : Options := {}
  deriving DecidableEq, Repr

/-- The answer to the request with the same id. -/
structure Response where
  id : String
  success : Bool
  result : Option Outcome := none
  error : Option String := none
  deriving DecidableEq, Repr

namespace Request

/-- A field that must be there. -/
def required {α : Type} (name : String) (decoder : Decoder α) (set : α → Request → Request) :
    Json.Field Request :=
  ⟨name, true, decoder.map set⟩

/-- The fields of a request. Only the options may be missing. -/
def record : Record Request where
  name := "WorkerRequest"
  start := { id := "", code := "", language := .javascript }
  fields :=
    [required "id" .string fun v r => { r with id := v },
     required "code" .string fun v r => { r with code := v },
     required "language" Language.decoder fun v r => { r with language := v },
     .optional "options" Options.decoder fun v r => { r with options := v }]

def decoder : Decoder Request := record.decoder

/-- A request as JSON. -/
def toJson (request : Request) : Json :=
  .object
    [("id", .string request.id), ("code", .string request.code),
     ("language", .string request.language.name), ("options", request.options.toJson)]

end Request

namespace Response

def ok (id : String) (result : Outcome) : Response := { id, success := true, result := some result }

def failed (id error : String) : Response := { id, success := false, error := some error }

/-- A response as JSON. -/
def toJson (response : Response) : Json :=
  .object
    ([("id", .string response.id), ("success", .bool response.success)] ++
      Members.given "result" Outcome.toJson response.result ++
      Members.given "error" .string response.error)

end Response

end Minifier.Worker
