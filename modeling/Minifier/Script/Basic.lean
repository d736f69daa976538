import Minifier.Options
import Minifier.Masking
import Minifier.Rule.Spacing
import Minifier.Script.Mangle

/-!
Minifying scripts. Strings, templates and regular expressions are set aside; line breaks between
tokens stay, since one of them may end a statement.
-/

namespace Minifier.Script

open Pattern

/-! ### Literals and comments -/

/-- Text in backticks, line breaks included, in which a backslash escapes the next character. -/
def template : Pattern :=
  char '\x60' ++ escapedRun (Class.except ['\x60', '\\']) Class.any ++ char '\x60'

/-- Characters in square brackets inside a regular expression. -/
def regexClass : Pattern :=
  char '[' ++ escapedRun (Class.except [']', '\\', '\n']) Class.inLine ++ char ']'

/-- One unit of a regular expression, given the characters that stand for themselves. -/
def regexUnit (plain : Char → Bool) : Pattern :=
  one plain <|> (char '\\' ++ one Class.inLine) <|> regexClass

/-- A regular expression on one line, from its opening slash to its flags. -/
def regexBody : Pattern :=
  char '/' ++ regexUnit (Class.except ['/', '\\', '\n', '[', '*']) ++
    star (regexUnit (Class.except ['/', '\\', '\n', '['])) ++ char '/' ++ run Class.letter

/-- What can stand before an expression: an operator or opening bracket, the beginning of a line, or a
word that an expression follows. -/
def beforeExpression : Pattern :=
  oneOf ['(', ',', '=', ':', '[', '!', '&', '|', '?', '{', '}', ';'] <|> lineStart <|>
    (wordEdge ++ words ["return", "typeof", "instanceof", "in", "of", "new", "delete", "void", "throw",
      "case", "do", "else", "yield", "await"])

/-- A regular expression where an expression may begin; a slash anywhere else divides. -/
def regexLiteral : Pattern :=
  beforeExpression ++ run (Class.among [' ', '\t', '\r', '\n']) ++ label .literal regexBody

/-- Block comments and comments to the end of the line. -/
def comment : Pattern := Lexer.blockComment <|> Lexer.lineComment "//"

/-- The comments and literals of a script. -/
def lexer : Lexer where
  pattern := label .comment comment <|> Lexer.quoted <|> template <|> regexLiteral
  strip := Lexer.stripAll

/-! ### Rules -/

def notBracket : Char → Bool := Class.except ['(', ')']

def brackets0 : Pattern := char '(' ++ run notBracket ++ char ')'

/-- Brackets with at most one level of brackets in them. -/
def brackets1 : Pattern := char '(' ++ star (one notBracket <|> brackets0) ++ char ')'

/-- Brackets with at most two levels of brackets in them. -/
def brackets2 : Pattern := char '(' ++ star (one notBracket <|> brackets1) ++ char ')'

/-- Calls of a console's members go, with a semicolon after them. -/
def consoleCall : Rule :=
  .drop "js-console-call"
    (wordEdge ++ word "console" ++ run Text.isBlank ++ char '.' ++ run Text.isBlank ++
      Mangle.identifier ++ run Text.isBlank ++ brackets2 ++ run Text.isBlank ++ optional (char ';'))

/-- Debugger statements go, with a semicolon after them. -/
def debuggerStatement : Rule :=
  .drop "js-debugger"
    (wordEdge ++ word "debugger" ++ wordEdge ++ run Text.isBlank ++ optional (char ';'))

/-- Blanks that hold a line break become one line break. -/
def newlineRuns : Rule :=
  .put "js-newline-runs"
    (run (Class.among [' ', '\t', '\r', '\x0c']) ++ char '\n' ++ run Text.isBlank) '\n'

/-- The punctuation around which blanks mean nothing. -/
def punctuationMarks : List Char := ['{', '}', '(', ')', '[', ']', ';', ',', ':', '=']

/-- Spaces and line breaks around punctuation go. -/
def punctuation : Rule :=
  .keepPart "js-punctuation"
    (run (Class.among [' ', '\n']) ++ part 1 (oneOf punctuationMarks) ++ run (Class.among [' ', '\n']))

/-- Spaces and tabs around punctuation go. -/
def punctuationInline : Rule :=
  .keepPart "js-punctuation-inline"
    (run Class.spaceTab ++ part 1 (oneOf punctuationMarks) ++ run Class.spaceTab)

/-- Semicolons before a closing brace go. -/
def semicolonBrace : Rule :=
  .put "js-semicolon-brace" (run1 (· == ';') ++ run Text.isBlank ++ char '}') '}'

/-- The rules for a script whose comments are gone already. -/
def pipeline (options : Options) : Pipeline :=
  Pipeline.onlyIf options.removeConsoleLog [consoleCall] ++
  Pipeline.onlyIf options.removeDebugger [debuggerStatement] ++
  Pipeline.onlyIf options.removeWhitespace
    (if options.preserveLineBreaks then
      [Spacing.collapseHorizontal, Spacing.trimLines] ++
        Pipeline.onlyIf options.tightens [punctuationInline]
    else
      [newlineRuns, Spacing.collapseHorizontal] ++ Pipeline.onlyIf options.tightens [punctuation]) ++
  Pipeline.onlyIf options.removeEmptyLines [Spacing.emptyLines] ++
  Pipeline.onlyIf options.isAggressive [semicolonBrace] ++
  [Spacing.trimEnds]

/-! ### Minifying -/

def isQuote (c : Char) : Bool := c == '"' || c == '\'' || c == '\x60'

/-- Refuses masked text in which a quote or the opening of a comment is left. The lexer has then lost
track of where literals end, and a rule could reach into one. -/
def check (text : List Char) : Except Unsafe Unit :=
  match text.find? isQuote with
  | some quote => .error (.unterminatedLiteral quote)
  | none => if Text.contains ['/', '*'] text then .error .unterminatedComment else .ok ()

/-- Minifies a script, and says what is worth knowing about it. -/
def minify (text : List Char) (options : Options) : Except Unsafe (List Char × List String) := do
  let masked ← MaskedText.mask lexer options.removeComments text
  check masked.text
  let code := (pipeline options).run masked.text
  if options.mangles then
    let mangled := Mangle.mangle code
    return (masked.unmask mangled.code,
      [s!"Variable mangling renamed {mangled.renamed.length} identifier(s); it ignores scope and is unsafe for code with shadowing or dynamic property access"])
  else
    return (masked.unmask code,
      if options.mangleVariables then ["mangleVariables is only applied at the aggressive level"] else [])

end Minifier.Script
