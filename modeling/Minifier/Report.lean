import Minifier.Content.Estimate
import Minifier.Outcome
import Minifier.Profile

/-!
What a run tells about its files: one report for each file in the order in which they were taken in,
the figures for all of them together, and the lines in which it is told.
-/

namespace Minifier

/-- What became of one file. -/
structure FileReport where
  name : String
  language : Language
  sourceSize : Nat
  minifiedSize : Nat
  warnings : List String := []
  /-- Why the file was left unchanged, if it was. -/
  error : Option String := none
  deriving DecidableEq, Repr

namespace FileReport

def savings (report : FileReport) : Savings := .between report.sourceSize report.minifiedSize

/-- The report as lines. A growing file shows a positive percentage. -/
def lines (report : FileReport) : List String :=
  match report.error with
  | some error => [s!"  ✗ {report.name} {error}"]
  | none =>
    let source := Estimate.formatSize report.sourceSize
    let minified := Estimate.formatSize report.minifiedSize
    let percent := -report.savings.percentage
    s!"  ✓ {report.name} [{report.language.name}] {source} → {minified} ({percent}%)" ::
      report.warnings.map fun warning => s!"    ⚠ {warning}"

end FileReport

/-- What became of all files of a run. -/
structure RunReport where
  files : List FileReport := []
  deriving DecidableEq, Repr

namespace RunReport

def push (run : RunReport) (report : FileReport) : RunReport := ⟨run.files ++ [report]⟩

/-- The savings on all files together. -/
def totals (run : RunReport) : Savings :=
  .between ((run.files.map FileReport.sourceSize).foldl (· + ·) 0)
    ((run.files.map FileReport.minifiedSize).foldl (· + ·) 0)

/-- How many files were left unchanged. -/
def failed (run : RunReport) : Nat := run.files.countP fun report => report.error.isSome

/-- The last lines of a run. Bytes that were not saved do not count as a saving. -/
def closingLines (run : RunReport) (timings : Timings) (elapsed : Duration) : List String :=
  let totals := run.totals
  let saved := Estimate.formatSize totals.saved.toNat
  let millis := String.ofList (Decimal.fixed elapsed.nanos 1000000 0)
  ["", s!"  Σ {saved} saved across {run.files.length} file(s) ({totals.percentage}%)"] ++
    (if run.failed = 0 then [] else [s!"  ! {run.failed} file(s) left unchanged"]) ++
    [s!"  ⏱ {timings.describe}", s!"  ✓ done in {millis}ms"]

end RunReport

end Minifier
