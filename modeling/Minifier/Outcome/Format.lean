import Minifier.Json.Basic
import Minifier.Outcome

/-!
Outcomes and savings as JSON.
-/

namespace Minifier

namespace Outcome

/-- An outcome as JSON. -/
def toJson (outcome : Outcome) : Json :=
  .object
    [("minified", .string outcome.minified),
     ("originalSize", .ofNat outcome.sourceSize),
     ("minifiedSize", .ofNat outcome.minifiedSize),
     ("compressionRatio", .number (.real false outcome.ratio)),
     ("errors", .strings outcome.errors),
     ("warnings", .strings outcome.warnings)]

end Outcome

/-- Savings as JSON. -/
def Savings.toJson (savings : Savings) : Json :=
  .object
    [("originalSize", .ofNat savings.sourceSize),
     ("minifiedSize", .ofNat savings.minifiedSize),
     ("savings", .ofInt savings.saved),
     ("percentage", .ofInt savings.percentage)]

end Minifier
