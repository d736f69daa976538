import Minifier.Language
import Minifier.Masking

/-!
How much a minification may save, and sizes in words.
-/

namespace Minifier.Estimate

open Pattern

/-- A comment from its opening to the end of the line. -/
def toLineEnd (opening : String) : Pattern := word opening ++ run Class.inLine

/-- A comment after a hash sign that begins a line or follows a space or tab. -/
def hashComment : Pattern := (lineStart <|> one Class.spaceTab) ++ toLineEnd "#"

/-- The patterns for the comments of a style. Each is looked for on its own. -/
def patterns : CommentStyle → List Pattern
  | .markup => [Lexer.markupComment]
  | .cFamily => [Lexer.blockComment, toLineEnd "//"]
  | .php => [Lexer.blockComment, toLineEnd "//", hashComment]
  | .hash => [hashComment]
  | .powerShell => [Lexer.angleHashComment, hashComment]
  | .sql => [Lexer.blockComment, toLineEnd "--"]
  | .matlab => [toLineEnd "%"]
  | .none => []

/-- The bytes of all matches of a style's patterns together. -/
def commentBytes (text : List Char) (style : CommentStyle) : Nat :=
  let found := (patterns style).flatMap fun pattern => pattern.allMatches text
  (found.map fun found => Text.byteSize found.text).foldl (· + ·) 0

/-- The share of a content in percent that may go, at most eighty: four fifths of the ASCII blanks, and the
comments. -/
def potential (content : String) (language : Language) : Nat :=
  if content.isEmpty then 0
  else
    let text := content.toList
    let blanks := Binary64.ofNat (text.countP Text.isAsciiBlank)
    let fourFifths := (Binary64.ofQuotient? 4 5).getD .zero
    let comments := Binary64.ofNat (commentBytes text language.commentStyle)
    let removable := (blanks.mul fourFifths).add comments
    let share := (removable.div (.ofNat (Text.byteSize text))).mul (.ofNat 100)
    min 80 share.roundHalfUp

/-- The units of sizes, each 1024 times the one before it. -/
def units : List String := ["B", "KB", "MB", "GB", "TB"]

/-- The number of the largest unit that a size reaches, and that unit in bytes; the last unit takes all
that is larger. -/
def unitOf (size : Binary64) : (further index scale : Nat) → Nat × Nat
  | 0, index, scale => (index, scale)
  | further + 1, index, scale =>
    if scale * 1024 * size.den ≤ size.num then unitOf size further (index + 1) (scale * 1024)
    else (index, scale)

/-- A size for people: bytes below 1024, and otherwise the largest unit with at most one decimal. -/
def formatSize (bytes : Nat) : String :=
  if bytes < 1024 then s!"{bytes} B"
  else
    let size := Binary64.ofNat bytes
    let (index, scale) := unitOf size 4 0 1
    let rounded := Decimal.fixed size.num (size.den * scale) 1
    let shown := if ['.', '0'].isSuffixOf rounded then rounded.take (rounded.length - 2) else rounded
    String.ofList shown ++ " " ++ units[index]?.getD ""

end Minifier.Estimate
