import Minifier.Json.Parser
import Minifier.Json.Printer

/-!
Minifying JSON: the text is read and written again without blanks. A text that is not JSON is never
touched.
-/

namespace Minifier.Data

/-- The same JSON without blanks. -/
def minify (text : List Char) : Except Json.SyntaxError (List Char) :=
  (Json.parseChars text).map fun value => Json.compactOnto value []

end Minifier.Data
