import Minifier.Error
import Minifier.Json.Parser
import Minifier.Language
import Minifier.Text.LowerCase

/-!
Checks before minification: whether a file has a size that is taken, and whether the structure of a
content shows that something is missing.
-/

namespace Minifier.Check

open Pattern

/-- The largest file that is taken, ten mebibytes. -/
def maxFileSize : Nat := 10 * 1024 * 1024

/-- Refuses files that are empty or too large. -/
def fileSize (path : String) (size : Nat) : Except Error Unit :=
  if size = 0 then .error (.emptyFile path)
  else if maxFileSize < size then .error (.fileTooLarge path size maxFileSize)
  else .ok ()

/-- What a check found. -/
structure Findings where
  errors : List String
  warnings : List String
  deriving DecidableEq, Repr

/-- A content is valid if there are no errors. -/
def Findings.valid (findings : Findings) : Bool := findings.errors.isEmpty

/-- By how many the opening tags may outnumber the closing ones. -/
def unclosedAllowance : Nat := 5

/-- Elements that have no closing tag. -/
def voidElements : List String :=
  ["area", "base", "br", "col", "embed", "hr", "img", "input", "link", "meta", "param",
   "source", "track", "wbr"]

/-- An element with its body, which is not markup. -/
def rawElement (tag : String) : Pattern :=
  char '<' ++ wordAnyCase tag ++ wordEdge ++ run (Class.except ['>']) ++ char '>' ++
    shortRun Class.any ++ word "</" ++ wordAnyCase tag ++ run Text.isBlank ++ char '>'

def tagName : Pattern := one Class.letter ++ run (fun c => Text.isWord c || c == '-')

/-- An opening tag: its name, and the slash that closes it at once. -/
def openingTag : Pattern :=
  char '<' ++ part 1 tagName ++ wordEdge ++ shortRun (Class.except ['>']) ++ part 2 (optional (char '/')) ++
    char '>'

def closingTag : Pattern := word "</" ++ tagName ++ run Text.isBlank ++ char '>'

/-- How many opening tags wait for a closing one, and how many closing ones there are. -/
def countTags (content : List Char) : Nat × Nat :=
  let uncommented := Lexer.markupComment.replaceAll (fun _ => []) content
  let markup :=
    (rawElement "script" <|> rawElement "style").replaceAll (fun _ => "<x></x>".toList) uncommented
  let waiting := (openingTag.allMatches markup).filter fun tag =>
    (tag.part 2).isEmpty && !voidElements.contains (Text.toLower (String.ofList (tag.part 1)))
  (waiting.length, (closingTag.allMatches markup).length)

/-- Quoted text and comments, for counting delimiters outside them. -/
def codeLexer : Lexer where
  pattern :=
    label .comment (Lexer.blockComment <|> (word "//" ++ run Class.inLine)) <|> Lexer.quoted
  strip := Lexer.stripAll

/-- A content without its quoted text and comments. A content that cannot be masked is taken as it is. -/
def codeOnly (content : List Char) : List Char :=
  match MaskedText.mask codeLexer true content with
  | .ok masked => masked.text
  | .error _ => content

/-- Looks whether the structure of a content is complete. -/
def content (text : String) (language : Language) : Findings :=
  match language with
  | .json =>
    match Json.parseChars text.toList with
    | .ok _ => ⟨[], []⟩
    | .error error => ⟨[(Error.ofSyntax error text.toList).message], []⟩
  | .html =>
    let (opening, closing) := countTags text.toList
    if closing + unclosedAllowance < opening then
      ⟨[], [s!"Possible unclosed HTML tags: {opening} opening vs {closing} closing"]⟩
    else ⟨[], []⟩
  | .css =>
    let code := codeOnly text.toList
    let opening := code.count '\x7b'
    let closing := code.count '\x7d'
    if opening = closing then ⟨[], []⟩
    else ⟨[s!"Mismatched braces: {opening} '\x7b' vs {closing} '\x7d'"], []⟩
  | .javascript | .typescript =>
    let code := codeOnly text.toList
    let opening := code.count '('
    let closing := code.count ')'
    if opening = closing then ⟨[], []⟩
    else ⟨[], [s!"Mismatched parentheses: {opening} '(' vs {closing} ')'"]⟩
  | _ => ⟨[], []⟩

end Minifier.Check
