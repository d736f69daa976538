import Minifier.Worker.Handler

/-!
A worker that reads a request from each line of its input and writes the response on a line of its
output. Blank lines are passed over, and a line that holds no request gets an answer that says so.
-/

namespace Minifier.Worker

/-- The id in a line that is no request, if it is JSON with a string of that name. -/
def recoveredId (line : String) : String :=
  match Json.parse line with
  | .ok value => ((value.member? "id").bind Json.text?).getD ""
  | .error _ => ""

/-- The response to a line. -/
def answerLine (line : String) : Response :=
  match Request.decoder.parse line with
  | .ok request => handle request
  | .error error => .failed (recoveredId line) s!"Malformed request: {error.message}"

def isBlankLine (line : String) : Bool := (Text.trim line.toList).isEmpty

/-- A line of bytes without the carriage return at its end. -/
def dropReturnByte (line : List UInt8) : List UInt8 :=
  if line.getLast? == some 13 then line.dropLast else line

/-- The lines of a stream of bytes: each line feed ends one, and what is left after the last is a line if
it is not empty. -/
def byteLines (bytes : List UInt8) : List (List UInt8) :=
  go bytes [] []
where
  /-- The lines of what is left, given the reversed open line and the reversed finished ones. -/
  go : List UInt8 → List UInt8 → List (List UInt8) → List (List UInt8)
    | [], line, done => (if line.isEmpty then done else line.reverse :: done).reverse
    | b :: rest, line, done =>
      if b = 10 then go rest [] (dropReturnByte line.reverse :: done) else go rest (b :: line) done

/-- The text of a line, if its bytes are the UTF-8 form of one. -/
def lineText? (line : List UInt8) : Option String := String.fromUTF8? (ByteArray.mk line.toArray)

/-- What a line calls for: nothing if it is blank, a response otherwise. A line that is not text stops the
worker. -/
def respondTo (line : List UInt8) : Except Error (Option Response) :=
  match lineText? line with
  | none => .error (.io "stream did not contain valid UTF-8")
  | some text => .ok (if isBlankLine text then none else some (answerLine text))

/-- The answers to lines in order, up to the first line that fails, and why it failed. -/
def answersUpTo {α : Type} (answer : List UInt8 → Except Error (Option α)) :
    List (List UInt8) → List α × Option Error
  | [] => ([], none)
  | line :: rest =>
    match answer line with
    | .error error => ([], some error)
    | .ok none => answersUpTo answer rest
    | .ok (some value) =>
      let (values, error) := answersUpTo answer rest
      (value :: values, error)

/-- A worker that has come to its end: the responses written, and what stopped it before the end of its
input. -/
structure Served where
  responses : List Response
  stopped : Option Error
  deriving DecidableEq, Repr

/-- Serves a stream of bytes. -/
def serve (bytes : List UInt8) : Served :=
  let (responses, stopped) := answersUpTo respondTo (byteLines bytes)
  ⟨responses, stopped⟩

def responseLine (response : Response) : String := response.toJson.compact

/-- What a worker has written: each response on a line of its own. -/
def Served.output (served : Served) : String := Text.ofLines (served.responses.map responseLine)

/-- How many requests were answered, unless something stopped the worker. -/
def Served.answered (served : Served) : Except Error Nat :=
  match served.stopped with
  | none => .ok served.responses.length
  | some error => .error error

end Minifier.Worker
