import Minifier.Host
import Minifier.Worker.Lines

/-!
A host in memory. Its files are a tree, its clock stands still, and what is printed and logged can be
looked at afterwards.
-/

namespace Minifier

/-- A place in memory where the program runs. -/
structure MemoryHost where
  files : FileTree := {}
  /-- What can be read from the input. -/
  input : List UInt8 := []
  settings : List (String × String) := []
  printed : String := ""
  /-- What was logged, the first entry first. -/
  logged : List LogEntry := []

/-- Programs that run in memory. -/
abbrev InMemory := StateM MemoryHost

namespace MemoryHost

/-- Looks at the files. -/
def look {α : Type} (operation : FileTree → Except FileFault α) : InMemory (Except FileFault α) := do
  return operation (← get).files

/-- Changes the files, or leaves them as they are if the operation fails. -/
def change (operation : FileTree → Except FileFault FileTree) : InMemory (Except FileFault Unit) := do
  match operation (← get).files with
  | .ok files =>
    modify fun host => { host with files }
    return .ok ()
  | .error fault => return .error fault

end MemoryHost

open MemoryHost in
instance : Host InMemory where
  status path := look fun files => files.status path
  read path := look fun files => files.read path
  below _ path := look fun files => files.below path
  makeDirectory path := change fun files => files.makeDirectory path
  write path text := change fun files => files.write path (.text text)
  setting name := return (← get).settings.lookup name
  clock := return 0
  print text := modify fun host => { host with printed := host.printed ++ text }
  log entry := modify fun host => { host with logged := host.logged ++ [entry] }
  answerLines answer := do
    let (texts, error) := Worker.answersUpTo answer (Worker.byteLines (← get).input)
    modify fun host => { host with printed := host.printed ++ Text.ofLines texts }
    match error with
    | some error => return .error error
    | none => return .ok texts.length

end Minifier
