import Minifier.Options
import Minifier.Masking
import Minifier.Rule.Spacing

/-!
Minifying stylesheets. Quoted text and the bodies of unquoted addresses are set aside, since the
latter may hold punctuation that a rule would touch.
-/

namespace Minifier.Style

open Pattern

/-- The body of an address without quotes. -/
def address : Pattern :=
  wordAnyCase "url" ++ char '(' ++ label .literal (run (Class.except [')', '"', '\''])) ++ char ')'

/-- The comments and literals of a stylesheet. -/
def lexer : Lexer where
  pattern := label .comment Lexer.blockComment <|> Lexer.quoted <|> address
  strip := Lexer.stripAll

/-- The punctuation around which blanks go. -/
def punctuationMarks : List Char := ['{', '}', ';', ':', ',', '>']

/-- Blanks around punctuation go. -/
def punctuation : Rule :=
  .keepPart "css-punctuation"
    (run Text.isBlank ++ part 1 (oneOf punctuationMarks) ++ run Text.isBlank)

/-- Spaces and tabs around punctuation go. -/
def punctuationInline : Rule :=
  .keepPart "css-punctuation-inline"
    (run Class.spaceTab ++ part 1 (oneOf punctuationMarks) ++ run Class.spaceTab)

/-- Semicolons before a closing brace go, the blanks between them stay. -/
def semicolonBrace : Rule where
  name := "css-semicolon-brace"
  pattern := run1 (· == ';') ++ part 1 (run Text.isBlank) ++ char '}'
  replace m := m.part 1 ++ ['}']

/-- Zeros before a decimal point go, where the number does not continue a word or another number. -/
def leadingZero : Rule where
  name := "css-leading-zero"
  pattern :=
    part 1 (textStart <|> one fun c => !Text.isWord c && c != '.' && c != '-') ++
      part 2 (optional (char '-')) ++ run1 (· == '0') ++ char '.' ++ part 3 (one Text.isDecimalDigit)
  replace m := m.part 1 ++ m.part 2 ++ '.' :: m.part 3

/-- The units that a zero may lose. -/
def units : List String :=
  ["px", "em", "rem", "ex", "ch", "vw", "vh", "vmin", "vmax", "cm", "mm", "in", "pt", "pc", "%"]

/-- A zero with a unit becomes a bare zero. A space between two zeros belongs to the first match only,
so the rule runs again until nothing changes. Before a brace, a zero percent is a selector and stays. -/
def zeroUnits : Rule where
  name := "css-zero-units"
  pattern :=
    part 1 (one fun c => Text.isBlank c || c == ':' || c == ',' || c == '(') ++ char '0' ++
      optional (char '.' ++ run1 (· == '0')) ++ words units ++
      part 2 ((one fun c => Text.isBlank c || c == ';' || c == ',' || c == ')' || c == '}' || c == '!') <|>
        textEnd)
  replace m := m.part 1 ++ '0' :: m.part 2
  passes := 8

/-- A font weight given by name becomes a number. -/
def fontWeight : Rule where
  name := "css-font-weight"
  pattern :=
    part 1 (wordAnyCase "font-weight" ++ run Text.isBlank ++ char ':' ++ run Text.isBlank) ++
      part 2 (wordsAnyCase ["normal", "bold"]) ++ wordEdge
  replace m :=
    m.part 1 ++ if (m.part 2).map Char.toLower = ['b', 'o', 'l', 'd'] then ['7', '0', '0'] else ['4', '0', '0']

/-- The rules for a stylesheet whose comments are gone already. -/
def pipeline (options : Options) : Pipeline :=
  Pipeline.onlyIf options.removeWhitespace
    (if options.preserveLineBreaks then
      [Spacing.collapseHorizontal, Spacing.trimLines] ++
        Pipeline.onlyIf options.tightens [punctuationInline]
    else [Spacing.collapseWhitespace] ++ Pipeline.onlyIf options.tightens [punctuation]) ++
  Pipeline.onlyIf options.removeEmptyLines [Spacing.emptyLines] ++
  Pipeline.onlyIf options.isAggressive [semicolonBrace, zeroUnits, leadingZero, fontWeight] ++
  [Spacing.trimEnds]

/-- Minifies a stylesheet. -/
def minify (text : List Char) (options : Options) : Except Unsafe (List Char) := do
  let masked ← MaskedText.mask lexer options.removeComments text
  return masked.unmask ((pipeline options).run masked.text)

end Minifier.Style
