import Minifier.Duration

/-!
How long the files of a run took. A measurement is open from its start to its end; starting it again
begins anew. Nothing but what is reported depends on the times.
-/

namespace Minifier

/-- A finished measurement. -/
structure Sample where
  id : String
  /-- How many bytes were worked on. -/
  size : Nat
  duration : Duration
  deriving DecidableEq, Repr

/-- The measurements of a run. -/
structure Profiler where
  /-- The open measurements, each with the instant in nanoseconds at which it started and its size. -/
  active : List (String × Nat × Nat) := []
  /-- The finished ones, in the order of their ends. -/
  samples : List Sample := []
  deriving DecidableEq, Repr

namespace Profiler

/-- The other open measurements. -/
def without (profiler : Profiler) (id : String) : List (String × Nat × Nat) :=
  profiler.active.filter fun entry => entry.1 != id

/-- Starts a measurement. -/
def start (profiler : Profiler) (id : String) (size now : Nat) : Profiler :=
  { profiler with active := (id, now, size) :: profiler.without id }

/-- Ends a measurement, if it is open. -/
def stop (profiler : Profiler) (id : String) (now : Nat) : Profiler × Option Sample :=
  match profiler.active.lookup id with
  | none => (profiler, none)
  | some (started, size) =>
    let sample : Sample := ⟨id, size, ⟨now - started⟩⟩
    ({ active := profiler.without id, samples := profiler.samples ++ [sample] }, some sample)

def inFlight (profiler : Profiler) : Nat := profiler.active.length

end Profiler

/-- What is reported about the measurements of a run. -/
structure Timings where
  count : Nat
  totalBytes : Nat
  totalDuration : Duration
  /-- Bytes in a second. -/
  throughput : Binary64
  slowest : Option Sample

/-- Bytes in a second, where no time counts as one nanosecond. -/
def throughput (bytes : Nat) (duration : Duration) : Binary64 :=
  (Binary64.ofQuotient? (bytes * 1000000000) (max duration.nanos 1)).getD .zero

/-- The slower of two samples, and the later one if they took as long. -/
def Sample.slower (slowest : Option Sample) (next : Sample) : Option Sample :=
  match slowest with
  | none => some next
  | some sample => if next.duration.nanos < sample.duration.nanos then some sample else some next

/-- Sums the finished measurements up. -/
def Profiler.timings (profiler : Profiler) : Timings :=
  let bytes := (profiler.samples.map Sample.size).foldl (· + ·) 0
  let duration : Duration := ⟨(profiler.samples.map fun sample => sample.duration.nanos).foldl (· + ·) 0⟩
  { count := profiler.samples.length
    totalBytes := bytes
    totalDuration := duration
    throughput := throughput bytes duration
    slowest := profiler.samples.foldl Sample.slower none }

namespace Timings

/-- Whether nothing was worked on. -/
def isIdle (timings : Timings) : Bool := timings.throughput.mantissa == 0

/-- Kibibytes in a second with one decimal, ties to even. -/
def rate (timings : Timings) : String :=
  String.ofList (Decimal.fixed timings.throughput.num (timings.throughput.den * 1024) 1)

/-- The figures in one line. -/
def describe (timings : Timings) : String :=
  let slowest :=
    match timings.slowest with
    | none => ""
    | some sample => s!", slowest {sample.id} ({sample.duration.rounded})"
  let span := timings.totalDuration.rounded
  s!"{timings.count} file(s), {timings.totalBytes} bytes in {span} ({timings.rate} KB/s){slowest}"

end Timings

end Minifier
