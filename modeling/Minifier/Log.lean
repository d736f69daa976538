/-!
Log entries, and how much of them a run shows.
-/

namespace Minifier

/-- How much an entry matters. -/
inductive Severity where
  | debug | info | warn | error
  deriving DecidableEq, Repr

/-- The place of a severity in the order from debugging to errors. -/
def Severity.rank : Severity → Nat
  | debug => 0
  | info => 1
  | warn => 2
  | error => 3

/-- The name of a severity. -/
def Severity.name : Severity → String
  | debug => "DEBUG"
  | info => "INFO"
  | warn => "WARN"
  | error => "ERROR"

/-- An entry of the log. -/
structure LogEntry where
  severity : Severity
  message : String
  deriving DecidableEq, Repr

def LogEntry.line (entry : LogEntry) : String := entry.severity.name ++ " " ++ entry.message

/-- How talkative a run is. -/
inductive Verbosity where
  | quiet | normal | verbose
  deriving DecidableEq, Repr

/-- The least severity that is shown. -/
def Verbosity.threshold : Verbosity → Severity
  | quiet => .warn
  | normal => .info
  | verbose => .debug

/-- The entries that are shown. -/
def Verbosity.shown (verbosity : Verbosity) (entries : List LogEntry) : List LogEntry :=
  entries.filter fun entry => verbosity.threshold.rank ≤ entry.severity.rank

end Minifier
