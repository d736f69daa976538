import Minifier.Batch
import Minifier.CommandLine.Parser
import Minifier.Config.Load
import Minifier.Watch
import Minifier.Worker.Lines

/-!
The program: what each command does, on any host.
-/

namespace Minifier.Program

open CommandLine

def version : String := "0.3.0"

def banner : String := s!"\n  CODESHRINK v{version}\n\n"

variable {m : Type → Type} [Monad m] [Host m]

/-- The run that is asked for in a directory: the command line over the file of settings over the
defaults. -/
def resolve (request : RunRequest) (directory : String) : ExceptT Error m RunConfig := do
  return Layer.resolveOver (← Layer.load request.config directory) request.settings

/-- The files that a run takes in. -/
def inputsOf (config : RunConfig) : ExceptT Error m (List String) :=
  Files.discover config.input config.recursive

/-- Minifies files and gives the measurements along with the reports. -/
def minifyFiles (inputs : List String) (config : RunConfig) : ExceptT Error m (RunReport × Profiler) :=
  ExceptT.mk do
    let (result, shop) ← (Batch.minify inputs config.input config).run.run {}
    return result.map fun run => (run, shop.profiler)

/-- Watches the input of a run. No host tells of changes, so this ends where watching would begin. -/
def watch (config : RunConfig) : ExceptT Error m Unit := do
  Watch.start [config.input]
  throw (.watch "changes cannot be observed")

/-- Minifies. -/
def minify (request : RunRequest) (verbosity : Verbosity) : ExceptT Error m Unit := do
  let config ← resolve request "."
  if config.input.isEmpty then throw (.config "No input given; pass --input <PATH>")
  let inputs ← inputsOf config
  Host.info s!"codeshrink: {inputs.length} file(s) from {config.input}"
  if inputs.isEmpty then Host.warn s!"No supported source files found in {config.input}"
  let shows := verbosity != .quiet
  let started ← Host.clock
  if shows then Host.print banner
  let (run, profiler) ← minifyFiles inputs config
  if shows then
    for report in run.files do
      report.lines.forM Host.printLine
    let elapsed : Duration := ⟨(← Host.clock) - started⟩
    (run.closingLines profiler.timings elapsed).forM Host.printLine
  if config.watch then watch config

/-- Writes a run for another tool. A batch script lists the files that the run would take in, if its input
is there. -/
def generate (target : Target) (request : RunRequest) : ExceptT Error m Unit := do
  let config ← resolve request "."
  let files ←
    if target = .batch && !config.input.isEmpty then
      if ← Files.isThere config.input then inputsOf config else pure [config.input]
    else pure []
  let text := target.render config files
  Host.print (if text.toList.getLast? == some '\n' then text else text ++ "\n")

/-- Looks at one file. -/
def detect (file : String) : ExceptT Error m Unit := do
  let size ← Files.checkedSize file
  let content ← Files.readText file
  let language := Detect.languageOfFile file content
  let findings := Check.content content language
  Host.printLine s!"file:      {file}"
  Host.printLine s!"size:      {Estimate.formatSize size}"
  Host.printLine s!"language:  {language.name} ({language.mediaType})"
  Host.printLine s!"potential: ~{Estimate.potential content language}%"
  findings.errors.forM fun error => Host.printLine s!"error:     {error}"
  findings.warnings.forM fun warning => Host.printLine s!"warning:   {warning}"

/-- Serves the requests on the lines of the input. -/
def serve : ExceptT Error m Unit := do
  let answered ← ExceptT.mk (Host.answerLines fun line =>
    (Worker.respondTo line).map fun response? => response?.map Worker.responseLine)
  Host.debug s!"Worker answered {answered} request(s)"

/-- Does what is asked for. -/
def perform (invocation : Invocation) : ExceptT Error m Unit :=
  match invocation.command with
  | .minify request => minify request invocation.verbosity
  | .generate target request => generate target request
  | .detect file => detect file
  | .worker => serve

/-- The last line of a run that failed. -/
def complaint (error : Error) : String := s!"Error: {error.detailed}"

/-- The exit code of a run. -/
def exitCode : Except Error Unit → Nat
  | .ok () => 0
  | .error _ => 1

/-- What is said about a command line that is refused, or answers a question about the program. -/
def reply : Refusal → String
  | .help => Target.helpText
  | .version => s!"{Target.program} {version}\n"
  | refusal => s!"error: {refusal.message}\n"

/-- The exit code of a command line that is refused. Help and the version are no failures. -/
def refusalCode : Refusal → Nat
  | .help | .version => 0
  | _ => 2

end Minifier.Program
