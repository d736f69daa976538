import Minifier.Program

/-!
The program on the files, the terminal and the environment of the machine.
-/

namespace Minifier.Machine

/-- Programs that run on the machine and log as much as they are asked to. -/
abbrev OnMachine := ReaderT Verbosity IO

/-- The fault behind an error of the system. -/
def faultOf : IO.Error → FileFault
  | .noFileOrDirectory .. => .missing
  | .alreadyExists .. => .alreadyThere
  | .inappropriateType _ 20 _ => .notDirectory
  | .inappropriateType _ 21 _ => .isDirectory
  | error => .other (toString error)

/-- Runs an operation and hands a fault back as a value. -/
def catching {α : Type} (operation : IO α) : OnMachine (Except FileFault α) := do
  match ← operation.toBaseIO with
  | .ok value => return .ok value
  | .error error => return .error (faultOf error)

/-- A path as the entry of a directory, whose root it is. -/
def entryAt (path : String) : IO.FS.DirEntry := { root := path, fileName := "" }

/-- What the system knows about a file. -/
def statusOf (metadata : IO.FS.Metadata) : FileStatus :=
  if metadata.type == .dir then .directory else .file metadata.byteSize.toNat

/-- Everything in the given entries, under a place. Links are passed over. -/
partial def listBelow (enters : String → Bool) (place : Place) (entries : Array IO.FS.DirEntry) :
    IO (List (Place × FileStatus)) := do
  let mut found := #[]
  for entry in entries do
    let here := place ++ [entry.fileName]
    let metadata ← entry.path.symlinkMetadata
    if metadata.type == .dir then
      found := found.push (here, .directory)
      if enters entry.fileName then
        found := found ++ (← listBelow enters here (← entry.path.readDir)).toArray
    else if metadata.type == .file then
      found := found.push (here, statusOf metadata)
  return found.toList

/-- Prints the answers to some lines, up to the first failure, and counts them. -/
def answerAll (answer : List UInt8 → Except Error (Option String)) (bytes : List UInt8) :
    IO (Nat × Option Error) := do
  let (texts, error) := Worker.answersUpTo answer (Worker.byteLines bytes)
  IO.print (Text.ofLines texts)
  (← IO.getStdout).flush
  return (texts.length, error)

/-- Answers the lines of a stream as they come in, given what was read of a line that has not ended. -/
partial def answerStream (answer : List UInt8 → Except Error (Option String)) (stream : IO.FS.Stream)
    (open_ : List UInt8) (count : Nat) : IO (Except Error Nat) := do
  let bytes := (← stream.read 65536).data.toList
  let all := open_ ++ bytes
  let begun := if bytes.isEmpty then [] else (all.reverse.takeWhile (· != 10)).reverse
  let (more, error) ← answerAll answer (all.take (all.length - begun.length))
  match error with
  | some error => return .error error
  | none =>
    if bytes.isEmpty then return .ok (count + more)
    else answerStream answer stream begun (count + more)

instance : Host OnMachine where
  status path := catching do return statusOf (← (entryAt path).root.metadata)
  read path := catching do return .ofBytes (← IO.FS.readBinFile path)
  below enters path := catching do
    let found ← listBelow enters [] (← (entryAt path).root.readDir)
    return found.mergeSort fun a b => a.1.before b.1
  makeDirectory path := catching (IO.FS.createDir path)
  write path text := catching (IO.FS.writeFile path text)
  setting name := IO.getEnv name
  clock := IO.monoNanosNow
  print text := do
    IO.print text
    (← IO.getStdout).flush
  log entry := do
    for shown in (← read).shown [entry] do IO.eprintln shown.line
  answerLines answer := do answerStream answer (← IO.getStdin) [] 0

/-- Runs the program with its arguments and gives its exit code. -/
def run (arguments : List String) : IO UInt32 := do
  match CommandLine.parse arguments with
  | .error refusal =>
    if Program.refusalCode refusal = 0 then IO.print (Program.reply refusal)
    else IO.eprint (Program.reply refusal)
    return (Program.refusalCode refusal).toUInt32
  | .ok invocation =>
    let performed : OnMachine (Except Error Unit) := (Program.perform invocation).run
    let result ← performed.run invocation.verbosity
    match result with
    | .ok () => pure ()
    | .error error => IO.eprintln (Program.complaint error)
    return (Program.exitCode result).toUInt32

end Minifier.Machine

def main (arguments : List String) : IO UInt32 := Minifier.Machine.run arguments
