import Minifier.Data
import Minifier.Generic
import Minifier.Markup
import Minifier.Script.Basic
import Minifier.Worker.Message

/-!
How a worker meets a request. It knows fewer rules than the minifiers of the languages do: it removes
comments, debugging aids and blanks, and looks at nothing else.
-/

namespace Minifier.Worker

open Pattern

/-! ### Literals and comments -/

/-- Markup comments and quoted attribute values. -/
def markupLexer : Lexer where
  pattern := label .comment Lexer.markupComment <|> Markup.attributeValue
  strip := Lexer.stripAll

/-- Comments that begin with a slash, quoted text on one line, and text in backticks. -/
def slashLexer : Lexer where
  pattern :=
    label .comment (Lexer.blockComment <|> (word "//" ++ run Class.inLine)) <|> Lexer.quoted <|>
      Script.template
  strip := Lexer.stripAll

/-- Comments that begin with a hash sign but not with a hash sign and an exclamation mark, text between
triples of a quote, and quoted text on one line. -/
def hashLexer : Lexer where
  pattern :=
    label .comment
      (Generic.beforeHash ++ char '#' ++
        optional (one (Class.except ['!', '\n']) ++ run Class.inLine) ++ lineEnd) <|>
      Generic.tripleQuoted '"' <|> Generic.tripleQuoted '\'' <|> Lexer.quoted
  strip := Lexer.stripAll

/-- Quoted text on one line, and no comments. -/
def stringLexer : Lexer where
  pattern := Lexer.quoted
  strip := Lexer.stripAll

/-- The comments and literals of a style. -/
def lexerFor : CommentStyle → Lexer
  | .markup => markupLexer
  | .cFamily | .php => slashLexer
  | .hash | .powerShell => hashLexer
  | .sql | .matlab | .none => stringLexer

/-! ### Rules -/

/-- Calls of a console's members go, with a semicolon after them. -/
def consoleCall : Rule :=
  .drop "worker-console-call"
    (wordEdge ++ word "console." ++ Mangle.identifier ++ run Text.isBlank ++ Script.brackets1 ++
      run Text.isBlank ++ optional (char ';'))

/-- Every run of spaces and tabs becomes one space. -/
def collapseSpaces : Rule := .put "worker-collapse-spaces" (run1 Class.spaceTab) ' '

def isScript (language : Language) : Bool := language == .javascript || language == .typescript

/-- The rules that remove debugging aids from scripts. -/
def debugRules (language : Language) (options : Options) : Pipeline :=
  Pipeline.onlyIf (isScript language && options.removeConsoleLog) [consoleCall] ++
    Pipeline.onlyIf (isScript language && options.removeDebugger) [Script.debuggerStatement]

/-- The rules for blanks. Line breaks stay where they may matter: if that is asked for, in scripts, and in
languages whose lines end statements. -/
def blankRules (language : Language) (options : Options) : Pipeline :=
  let linesMatter :=
    options.preserveLineBreaks || isScript language || language.lineRole == .lines
  Pipeline.onlyIf options.removeWhitespace
    ((if language.lineRole = .indentation then [Spacing.trailingSpace]
      else if linesMatter then [collapseSpaces, Spacing.trimLines]
      else [Spacing.collapseWhitespace]) ++
      Pipeline.onlyIf (language.commentStyle == .markup) [Markup.interTag]) ++
    Pipeline.onlyIf options.removeEmptyLines [Spacing.emptyLines]

/-- What a worker has to say about a request. -/
def warnings (language : Language) (options : Options) : List String :=
  if isScript language && options.mangleVariables then
    ["Variable mangling is not available in the worker"]
  else []

/-- Minifies with the worker's rules. -/
def minify (code : List Char) (language : Language) (options : Options) :
    Except Error (List Char) :=
  if language = .json then (Data.minify code).mapError fun error => .ofSyntax error code
  else do
    let masked ←
      (MaskedText.mask (lexerFor language.commentStyle) options.removeComments code).mapError
        Error.ofUnsafe
    let edited := (debugRules language options ++ blankRules language options).run masked.text
    return masked.unmask (Text.trim edited)

/-- Meets a request. -/
def handle (request : Request) : Response :=
  match minify request.code.toList request.language request.options with
  | .ok minified =>
    .ok request.id
      (.ofTexts request.code (String.ofList minified)
        (if request.language = .json then [] else warnings request.language request.options))
  | .error error => .failed request.id error.message

end Minifier.Worker
