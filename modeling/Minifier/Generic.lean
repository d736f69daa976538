import Minifier.Options
import Minifier.Masking
import Minifier.Rule.Spacing

/-!
Minifying a language that has no minifier of its own. Comments go by their style, and blanks go as far
as the line structure of the language allows.
-/

namespace Minifier.Generic

open Pattern

/-! ### Literals and comments -/

/-- Text between two triples of a quote. -/
def tripleQuoted (quote : Char) : Pattern :=
  let marks := char quote ++ char quote ++ char quote
  marks ++ shortRun Class.any ++ marks

/-- Text in backticks, line breaks included. -/
def backtickQuoted : Pattern := char '\x60' ++ run (Class.except ['\x60']) ++ char '\x60'

/-- The literals of every language: triple quotes first, then quotes on one line, then backticks. -/
def literals : Pattern :=
  tripleQuoted '"' <|> tripleQuoted '\'' <|> Lexer.quoted <|> backtickQuoted

/-- A place where a hash sign opens a comment: the beginning of a line, or after a space or tab, which
then belongs to the comment. -/
def beforeHash : Pattern := lineStart <|> one Class.spaceTab

/-- A comment after a hash sign. -/
def hashComment : Pattern := beforeHash ++ char '#' ++ run Class.inLine ++ Lexer.lineBreak

/-- A comment after a hash sign in a language in which a hash sign and a bracket open an attribute. -/
def hashCommentNoBracket : Pattern :=
  beforeHash ++ char '#' ++ optional (one (Class.except ['[', '\n']) ++ run Class.inLine) ++
    ((char '\n' ++ run Class.spaceTab) <|> textEnd)

/-- A comment between lines that begin with a percent sign and a brace. -/
def percentBlock : Pattern :=
  lineStart ++ run Class.spaceTab ++ word "%\x7b" ++ shortRun Class.any ++ lineStart ++
    run Class.spaceTab ++ word "%\x7d"

/-- The comments of a style, in the order in which they are tried. -/
def comments : CommentStyle → List Pattern
  | .cFamily => [Lexer.blockComment, Lexer.lineComment "//"]
  | .php => [Lexer.blockComment, Lexer.lineComment "//", hashCommentNoBracket]
  | .hash => [hashComment]
  | .powerShell => [Lexer.angleHashComment, hashComment]
  | .sql => [Lexer.blockComment, Lexer.lineComment "--"]
  | .matlab => [percentBlock, Lexer.lineComment "%"]
  | .markup => [Lexer.markupComment]
  | .none => []

/-- Every comment goes but one: a hash sign and an exclamation mark at the very beginning name the
program that runs the file, and that line stays in the text. -/
def stripButShebang (comment : List Char) (index : Nat) : Option (List Char) :=
  if index = 0 ∧ ['#', '!'].isPrefixOf comment then some comment else some (Lexer.leaveBreak comment)

/-- The comments and literals of a style. -/
def lexer (style : CommentStyle) : Lexer where
  pattern :=
    match comments style with
    | [] => literals
    | patterns => label .comment (choice patterns) <|> literals
  strip := stripButShebang

/-! ### Rules -/

/-- The punctuation around which blanks go. -/
def punctuationMarks : List Char := ['{', '}', ';', ',', '=']

/-- Spaces and tabs around punctuation go. -/
def loosePunctuation : Rule :=
  .keepPart "loose-punctuation"
    (run Class.spaceTab ++ part 1 (oneOf punctuationMarks) ++ run Class.spaceTab)

/-- Blanks around punctuation go. -/
def freePunctuation : Rule :=
  .keepPart "free-punctuation"
    (run Text.isBlank ++ part 1 (oneOf punctuationMarks) ++ run Text.isBlank)

/-- Whether braces and semicolons are plain delimiters, so that blanks around them mean nothing. -/
def plainDelimiters : CommentStyle → Bool
  | .cFamily | .php | .sql => true
  | .hash | .powerShell | .matlab | .markup | .none => false

/-- The rules for a language whose comments are gone already. -/
def pipeline (language : Language) (options : Options) : Pipeline :=
  let tighten := options.tightens && plainDelimiters language.commentStyle
  let withinLines :=
    [Spacing.collapseHorizontal, Spacing.trimLines] ++ Pipeline.onlyIf tighten [loosePunctuation]
  Pipeline.onlyIf options.removeWhitespace
    (match language.lineRole with
    | .indentation => [Spacing.trailingSpace, Spacing.innerSpaces]
    | .lines => withinLines
    | .freeForm =>
      if options.preserveLineBreaks then withinLines
      else [Spacing.collapseWhitespace] ++ Pipeline.onlyIf tighten [freePunctuation]) ++
  Pipeline.onlyIf options.removeEmptyLines [Spacing.emptyLines] ++
  [Spacing.trimEnds]

/-- Minifies a text of a language. -/
def minify (text : List Char) (language : Language) (options : Options) :
    Except Unsafe (List Char) := do
  let masked ← MaskedText.mask (lexer language.commentStyle) options.removeComments text
  return masked.unmask ((pipeline language options).run masked.text)

end Minifier.Generic
