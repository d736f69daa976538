import Minifier.CommandLine.Flag
import Minifier.Log

/-!
Reading a command line. A flag may stand as a long name with its value after an equals sign or in the
next argument, or as letters behind one dash, the last of which may take the rest as its value. After
two dashes everything is an operand.

The value of a flag is looked at only once something follows that is understood, or the line ends. An
argument that is not understood is therefore refused before a bad value in front of it.
-/

namespace Minifier.CommandLine

/-- What has been read of the arguments of a command. -/
structure Reading where
  /-- The parameters that are set, the latest first. -/
  accepted : List (Parameter × String) := []
  /-- The last parameter if its value is still missing or not looked at yet. -/
  pending : Option (Parameter × Option String) := none
  /-- Whether anything was understood so far. -/
  begun : Bool := false
  /-- Whether two dashes were seen. -/
  operandsOnly : Bool := false
  /-- Whether the operand was seen. -/
  operandSeen : Bool := false
  deriving DecidableEq, Repr

namespace Reading

/-- Whether a parameter is set. -/
def has (reading : Reading) (parameter : Parameter) : Bool :=
  reading.accepted.any fun entry => entry.1 == parameter

/-- Sets a parameter. -/
def accept (reading : Reading) (parameter : Parameter) (value : String) : Except Refusal Reading :=
  match parameter with
  | .help => .error .help
  | .version => .error .version
  | _ =>
    if reading.has parameter then .error .conflict
    else (parameter.check value).map fun () =>
      { reading with accepted := (parameter, value) :: reading.accepted }

/-- Looks at the last value. -/
def settle (reading : Reading) : Except Refusal Reading :=
  match reading.pending with
  | none => .ok reading
  | some (_, none) => .error .invalidValue
  | some (parameter, some value) => { reading with pending := none }.accept parameter value

/-- Takes a flag, with the value that was attached to it. -/
def takeFlag (reading : Reading) (flag : Parameter) (attached : Option String) :
    Except Refusal Reading := do
  let settled ← { reading with begun := true }.settle
  match attached with
  | some value => settled.accept flag value
  | none => if flag.takesValue then .ok { settled with pending := some (flag, none) } else settled.accept flag ""

/-- Takes an argument that begins with two dashes, given what follows them. -/
def takeLong (reading : Reading) (verb : Verb) (body : List Char) : Except Refusal Reading :=
  let name := body.takeWhile (· != '=')
  match verb.long? (String.ofList name) with
  | none => .error .unknownArgument
  | some flag =>
    match body.drop name.length with
    | [] => reading.takeFlag flag none
    | _ :: value =>
      if flag.takesValue then reading.takeFlag flag (some (String.ofList value))
      else .error .unexpectedValue

/-- Takes an argument that begins with one dash, given what follows it. A value may follow its letter
with or without an equals sign. -/
def takeLetters (verb : Verb) : List Char → Reading → Except Refusal Reading
  | [], reading => .ok reading
  | letter :: rest, reading =>
    match verb.short? letter with
    | none => .error .unknownArgument
    | some flag =>
      if flag.takesValue then
        match rest with
        | [] => reading.takeFlag flag none
        | '=' :: value => reading.takeFlag flag (some (String.ofList value))
        | value => reading.takeFlag flag (some (String.ofList value))
      else do takeLetters verb rest (← reading.takeFlag flag none)

/-- Refuses an operand that has no place. -/
def strayOperand (reading : Reading) (verb : Verb) (text : String) : Refusal :=
  match verb with
  | .minify =>
    if reading.begun then .conflict
    else if reading.operandsOnly && ((Verb.ofWord? text).isSome || text == "help") then .unknownArgument
    else .unknownCommand
  | _ => .unknownArgument

/-- Takes an operand. -/
def takeOperand (reading : Reading) (verb : Verb) (text : String) : Except Refusal Reading :=
  match verb.operand? with
  | some operand =>
    if reading.operandSeen then .error (reading.strayOperand verb text)
    else do
      let settled ← reading.settle
      .ok { settled with pending := some (operand, some text), begun := true, operandSeen := true }
  | none => .error (reading.strayOperand verb text)

/-- Takes one argument of a command. -/
def take (reading : Reading) (verb : Verb) (argument : String) : Except Refusal Reading :=
  if reading.operandsOnly then reading.takeOperand verb argument
  else
    match argument.toList with
    | ['-', '-'] => .ok { reading with operandsOnly := true }
    | '-' :: '-' :: body => reading.takeLong verb body
    | '-' :: letter :: letters => takeLetters verb (letter :: letters) reading
    | _ =>
      match reading.pending with
      | some (flag, none) => .ok { reading with pending := some (flag, some argument) }
      | _ => reading.takeOperand verb argument

/-- Ends the arguments of a command. -/
def finish (reading : Reading) (verb : Verb) : Except Refusal (List (Parameter × String)) := do
  let settled ← reading.settle
  if settled.has .verbose && settled.has .quiet then .error .conflict
  else
    match verb.operand? with
    | some operand => if settled.has operand then .ok settled.accepted else .error .missingOperand
    | none => .ok settled.accepted

/-- Reads all arguments of a command that a word has named. -/
def readAll (verb : Verb) : List String → Reading → Except Refusal (List (Parameter × String))
  | [], reading => reading.finish verb
  | argument :: rest, reading => do readAll verb rest (← reading.take verb argument)

/-- Answers a request for help on the command with the given words. Only commands themselves have help. -/
def helpOn (words : List String) : Refusal :=
  match words with
  | [] => .help
  | [word] => if (Verb.ofWord? word).isSome || word == "help" then .help else .unknownCommand
  | _ => .unknownCommand

/-- Reads a command line. The word of a command comes before anything else. -/
def readLine : List String → Reading → Except Refusal (Verb × List (Parameter × String))
  | [], reading => (reading.finish .minify).map fun accepted => (.minify, accepted)
  | argument :: rest, reading =>
    if !reading.operandsOnly && !reading.begun && argument == "help" then .error (helpOn rest)
    else
      match if reading.operandsOnly || reading.begun then none else Verb.ofWord? argument with
      | some verb => (readAll verb rest {}).map fun accepted => (verb, accepted)
      | none => do readLine rest (← reading.take .minify argument)

end Reading

/-! ### What a command line asks for -/

/-- A run as the command line gives it: the settings on it, and the file with further ones. -/
structure RunRequest where
  settings : Layer := {}
  config : Option String := none
  deriving DecidableEq, Repr

/-- What is asked for. -/
inductive Command where
  | minify (request : RunRequest) : Command
  | generate (target : Target) (request : RunRequest) : Command
  | detect (file : String) : Command
  | worker : Command
  deriving DecidableEq, Repr

/-- A command, and how much to tell while it runs. -/
structure Invocation where
  command : Command
  verbose : Bool := false
  quiet : Bool := false
  deriving DecidableEq, Repr

/-- How much to tell. -/
def Invocation.verbosity (invocation : Invocation) : Verbosity :=
  if invocation.quiet then .quiet else if invocation.verbose then .verbose else .normal

/-- The value of a parameter. -/
def valueOf (accepted : List (Parameter × String)) (parameter : Parameter) : Option String :=
  accepted.lookup parameter

/-- What a flag without a value sets where it stands. -/
def switch (accepted : List (Parameter × String)) (flag : Parameter) (value : Bool) : Option Bool :=
  (valueOf accepted flag).map fun _ => value

/-- The run that the flags describe. -/
def runRequest (accepted : List (Parameter × String)) : RunRequest where
  settings :=
    { input := valueOf accepted .input
      output := valueOf accepted .output
      language := (valueOf accepted .language).bind Language.ofSpelling?
      level := (valueOf accepted .level).bind Level.ofSpelling?
      recursive := switch accepted .recursive true
      watch := switch accepted .watch true
      removeComments := switch accepted .keepComments false
      removeWhitespace := switch accepted .keepWhitespace false
      removeEmptyLines := switch accepted .keepEmptyLines false
      preserveLineBreaks := switch accepted .preserveLineBreaks true
      mangleVariables := switch accepted .mangleVariables true
      removeConsoleLog := switch accepted .removeConsole true
      removeDebugger := switch accepted .keepDebugger false }
  config := valueOf accepted .config

/-- The command that a verb and its parameters stand for. -/
def commandOf (verb : Verb) (accepted : List (Parameter × String)) : Except Refusal Command :=
  match verb with
  | .minify => .ok (.minify (runRequest accepted))
  | .worker => .ok .worker
  | .detect =>
    match valueOf accepted .file with
    | some file => .ok (.detect file)
    | none => .error .missingOperand
  | .generate =>
    match (valueOf accepted .target).bind (Target.ofName? false) with
    | some target => .ok (.generate target (runRequest accepted))
    | none => .error .missingOperand

/-- Reads the arguments of the program. -/
def parse (arguments : List String) : Except Refusal Invocation := do
  let (verb, accepted) ← Reading.readLine arguments {}
  return { command := ← commandOf verb accepted
           verbose := (valueOf accepted .verbose).isSome
           quiet := (valueOf accepted .quiet).isSome }

end Minifier.CommandLine
