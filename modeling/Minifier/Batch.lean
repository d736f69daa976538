import Minifier.Backend
import Minifier.Config.Basic
import Minifier.Content.Detect
import Minifier.Files.Discovery
import Minifier.Report

/-!
Minifying a list of files. All of them are checked before any is touched, and a file that is not there,
empty or too large stops the batch. After that every file is worked on; one that cannot be minified is
left as it is and reported, and the first one that cannot be read or written decides how the batch ends.
-/

namespace Minifier

/-- What a batch works with and leaves changed. -/
structure Workshop where
  backends : Backends := {}
  profiler : Profiler := {}
  deriving DecidableEq, Repr

/-- Work that may fail. What was changed before the failure stays changed. -/
abbrev Work (m : Type → Type) := ExceptT Error (StateT Workshop m)

namespace Batch

variable {m : Type → Type} [Monad m] [Host m]

/-- Does some work and hands its failure back as a value. -/
def observing {α : Type} (work : Work m α) : Work m (Except Error α) :=
  ExceptT.mk (Except.ok <$> work.run)

/-- Does some work and logs when it begins and when it ends. -/
def timed {α : Type} (name : String) (work : Work m α) : Work m α := do
  Host.debug s!"Starting: {name}"
  let started ← Host.clock
  let result ← observing work
  let duration : Duration := ⟨(← Host.clock) - started⟩
  Host.debug s!"Completed: {name} in {duration.rounded}"
  MonadExcept.ofExcept result

/-- Minifies a text under measurement. -/
def minifyText (name content : String) (language : Language) (options : Options) : Work m Outcome := do
  let setting ← Host.setting basicOnlySetting
  let started ← Host.clock
  modify fun shop => { shop with profiler := shop.profiler.start name content.utf8ByteSize started }
  let (outcome, backends, entries) := (← get).backends.minify setting content language options
  Host.logAll entries
  let stopped ← Host.clock
  modify fun shop => { backends, profiler := (shop.profiler.stop name stopped).1 }
  return outcome

/-- Reads, minifies and writes one file. Where minifying fails, nothing is written. -/
def minifyFile (root : String) (config : RunConfig) (input : String) : Work m FileReport := do
  let content ← Files.readText input
  let language := config.language.getD (Detect.languageOfFile input content)
  Host.debug s!"Processing: {input} ({language.name})"
  let outcome ← minifyText input content language config.options
  let error := outcome.errors.head?
  if error.isNone then
    let output := Files.outputPath input root (← Files.isFile root) config.output
    Files.writeText output outcome.minified
    Host.debug s!"Wrote {output}"
  return { name := input, language, sourceSize := outcome.sourceSize
           minifiedSize := outcome.minifiedSize, warnings := outcome.warnings, error }

/-- Minifies files. -/
def minify (inputs : List String) (root : String) (config : RunConfig) : Work m RunReport :=
  timed "minify batch" do
    for input in inputs do
      discard (Files.checkedSize input)
    let results ← inputs.mapM fun input => observing (minifyFile root config input)
    return ⟨← results.mapM MonadExcept.ofExcept⟩

end Batch

end Minifier
