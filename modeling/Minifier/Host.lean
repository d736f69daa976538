import Minifier.Error
import Minifier.Files.Tree
import Minifier.Log

/-!
What the program needs of the place where it runs. All that it reads, writes, prints and logs goes
through these operations, so that the same program runs on real files and on files kept in memory.
-/

namespace Minifier

/-- A place where the program runs. -/
class Host (m : Type → Type) where
  /-- Looks at what a path leads to. -/
  status : (path : String) → m (Except FileFault FileStatus)
  /-- Reads a file. -/
  read : (path : String) → m (Except FileFault FileContent)
  /-- Everything below a directory, in the order of places. What lies in directories whose names `enters`
  rejects may be left out. -/
  below : (enters : String → Bool) → (path : String) → m (Except FileFault (List (Place × FileStatus)))
  /-- Makes one directory. -/
  makeDirectory : (path : String) → m (Except FileFault Unit)
  /-- Writes a text into a file. -/
  write : (path text : String) → m (Except FileFault Unit)
  /-- The value of a setting of the environment. -/
  setting : (name : String) → m (Option String)
  /-- The time in nanoseconds from a fixed instant. -/
  clock : m Nat
  /-- Prints a text. -/
  print : (text : String) → m Unit
  /-- Logs an entry. -/
  log : LogEntry → m Unit
  /-- Gives every line of the input to a function and prints each answer as a line, until the function
  fails. Counts the answers. -/
  answerLines : (List UInt8 → Except Error (Option String)) → m (Except Error Nat)

namespace Host

/-- What a host offers is offered on top of it too. -/
abbrev lifted {m n : Type → Type} [MonadLift m n] [Host m] : Host n where
  status path := liftM (n := n) (status (m := m) path)
  read path := liftM (n := n) (read (m := m) path)
  below enters path := liftM (n := n) (below (m := m) enters path)
  makeDirectory path := liftM (n := n) (makeDirectory (m := m) path)
  write path text := liftM (n := n) (write (m := m) path text)
  setting name := liftM (n := n) (setting (m := m) name)
  clock := liftM (n := n) (clock (m := m))
  print text := liftM (n := n) (print (m := m) text)
  log entry := liftM (n := n) (log (m := m) entry)
  answerLines answer := liftM (n := n) (answerLines (m := m) answer)

instance {m : Type → Type} {ε : Type} [Monad m] [Host m] : Host (ExceptT ε m) := lifted (m := m)

instance {m : Type → Type} {σ : Type} [Monad m] [Host m] : Host (StateT σ m) := lifted (m := m)

variable {m : Type → Type} [Monad m] [Host m]

def debug (message : String) : m Unit := log ⟨.debug, message⟩

def info (message : String) : m Unit := log ⟨.info, message⟩

def warn (message : String) : m Unit := log ⟨.warn, message⟩

/-- Logs entries in order. -/
def logAll (entries : List LogEntry) : m Unit := entries.forM log

def printLine (text : String) : m Unit := print (text ++ "\n")

end Host

namespace Files

variable {m : Type → Type} [Monad m] [Host m]

/-- Turns a fault of a file operation into an error. -/
def orFail {α : Type} (operation : m (Except FileFault α)) : ExceptT Error m α :=
  ExceptT.mk (Except.mapError (fun fault => .io fault.message) <$> operation)

/-- Whether a path leads to anything. -/
def isThere (path : String) : m Bool := do return (← Host.status path).isOk

/-- Whether a path leads to a file. -/
def isFile (path : String) : m Bool := do
  match ← Host.status path with
  | .ok status => return status.isFile
  | .error _ => return false

/-- Whether a path leads to a directory. -/
def isDirectory (path : String) : m Bool := do
  match ← Host.status path with
  | .ok status => return !status.isFile
  | .error _ => return false

/-- The text of a content. -/
def textOf (content : FileContent) : Except FileFault String :=
  match content with
  | .text value => .ok value
  | .binary _ => .error .notText

/-- The text of a file. -/
def readText (path : String) : ExceptT Error m String :=
  orFail do return (← Host.read path).bind textOf

/-- Makes a directory and those that it lies in, as far as they are not there yet. `steps` bounds how many
of them are looked at. -/
def makeDirectoriesWithin : (steps : Nat) → (path : String) → ExceptT FileFault m Unit
  | 0, _ => throw (.other "failed to create whole tree")
  | steps + 1, path => do
    if path.isEmpty then return ()
    match ← Host.makeDirectory path with
    | .ok () => return ()
    | .error .missing =>
      match Path.parent? path with
      | none => throw (.other "failed to create whole tree")
      | some parent =>
        makeDirectoriesWithin steps parent
        match ← Host.makeDirectory path with
        | .ok () => return ()
        | .error fault => unless ← isDirectory path do throw fault
    | .error fault => unless ← isDirectory path do throw fault

/-- Makes a directory and those that it lies in, as far as they are not there yet. -/
def makeDirectories (path : String) : ExceptT Error m Unit :=
  orFail (makeDirectoriesWithin ((Path.components path).length + 1) path).run

/-- Writes a text into a file, making the directories that it lies in. -/
def writeText (path text : String) : ExceptT Error m Unit := do
  match Path.parent? path with
  | some parent => unless parent.isEmpty do makeDirectories parent
  | none => pure ()
  orFail (Host.write path text)

end Files

end Minifier
