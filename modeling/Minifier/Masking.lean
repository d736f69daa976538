import Minifier.Pattern.Match
import Minifier.Text.Digit
import Minifier.Number.Decimal

/-!
Keeping literals out of the reach of rules. A lexer is one pattern over the comments and
literals of a language. It runs from left to right, so whichever of them opens first owns the text: a
quote in a comment opens no string, and two slashes in a string open no comment.

A literal, or a comment that is kept, leaves a placeholder behind: its number between two characters
that no text to be minified may hold. A comment that goes leaves what its lexer says. After the rules
have run, the placeholders are filled in again.
-/

namespace Minifier

/-- Why a text cannot be minified safely. -/
inductive Unsafe where
  /-- It holds a character that marks placeholders. -/
  | reservedCharacter : Unsafe
  /-- A quote that opens no literal is left in the code. -/
  | unterminatedLiteral (quote : Char) : Unsafe
  /-- The opening of a block comment is left in the code. -/
  | unterminatedComment : Unsafe
  deriving DecidableEq, Repr

/-- The cause in words. -/
def Unsafe.message : Unsafe → String
  | reservedCharacter => "input contains private-use sentinel characters"
  | unterminatedLiteral quote => s!"unterminated {quote} literal"
  | unterminatedComment => "unterminated block comment"

namespace Placeholder

def opening : Char := '\ue000'

def closing : Char := '\ue001'

/-- The placeholder with a given number. -/
def render (index : Nat) : List Char :=
  opening :: (Decimal.digitChars index ++ [closing])

/-- A placeholder, its number being the first part. Digits of any script are read as a number's, though
only ASCII ones are ever written. -/
def pattern : Pattern :=
  .char opening ++ .part 1 (.run1 Text.isDecimalDigit) ++ .char closing

/-- The number that a run of digits means, if all of them are ASCII digits. -/
def number? (digits : List Char) : Option Nat :=
  digits.foldl (fun n c => do
    let n ← n
    if c.isDigit then some (n * 10 + (c.toNat - 48)) else none) (some 0)

end Placeholder

/-- How the comments and literals of a language are found, and what a removed comment leaves. -/
structure Lexer where
  /-- Comments carry the comment label. Every other match is a literal, or the part of it that
  carries the literal label. -/
  pattern : Pattern
  /-- What is left of a comment that begins at an index, or nothing if it stays as it is. -/
  strip : (comment : List Char) → (index : Nat) → Option (List Char)

namespace Lexer

/-- One line of text between two quotes, in which a backslash escapes the next character. -/
def quotedBy (quote : Char) : Pattern :=
  .char quote ++ .escapedRun (Class.except [quote, '\\', '\n']) Class.any ++ .char quote

def quoted : Pattern := quotedBy '"' <|> quotedBy '\''

/-- An opening, up to the next closing. -/
def enclosed (opening closing : String) : Pattern :=
  .word opening ++ .shortRun Class.any ++ .word closing

def blockComment : Pattern := enclosed "/*" "*/"

def markupComment : Pattern := enclosed "<!--" "-->"

def angleHashComment : Pattern := enclosed "<#" "#>"

/-- The line break after a comment and the blanks at the beginning of the next line. -/
def lineBreak : Pattern := .optional (.char '\n' ++ .run Class.spaceTab)

/-- A comment from its opening to the end of the line, with the line break and the next indentation. -/
def lineComment (opening : String) : Pattern :=
  .word opening ++ .run Class.inLine ++ lineBreak

/-- Leaves a space for a comment, so that it never joins two words. A comment that takes a line break
along leaves that line break and the indentation after it. -/
def leaveBreak (comment : List Char) : List Char :=
  let indentation := comment.reverse.takeWhile Class.spaceTab
  match comment.reverse.drop indentation.length with
  | '\n' :: _ => '\n' :: indentation.reverse
  | _ => [' ']

def stripAll (comment : List Char) (_ : Nat) : Option (List Char) := some (leaveBreak comment)

end Lexer

/-- A text whose literals are set aside. -/
structure MaskedText where
  /-- The text with placeholders. -/
  text : List Char
  /-- What the placeholders stand for, by number. -/
  literals : Array (List Char)
  deriving DecidableEq, Repr

namespace MaskedText

/-- Sets one literal aside and gives its placeholder. -/
def setAside (literals : Array (List Char)) (literal : List Char) : List Char × Array (List Char) :=
  (Placeholder.render literals.size, literals.push literal)

/-- Sets a match aside, or the labelled part of it, and gives the text that takes its place. -/
def setAsideMatch (literals : Array (List Char)) (found : Match) : List Char × Array (List Char) :=
  match found.label? .literal with
  | none => setAside literals found.text
  | some span =>
    let before := span.start - found.start
    let (placeholder, literals) := setAside literals span.text
    (found.text.take before ++ placeholder ++ found.text.drop (before + span.length), literals)

/-- What takes the place of a match of a lexer. -/
def replaceMatch (lexer : Lexer) (stripComments : Bool) (literals : Array (List Char)) (found : Match) :
    List Char × Array (List Char) :=
  match found.label? .comment with
  | none => setAsideMatch literals found
  | some comment =>
    match if stripComments then lexer.strip comment.text comment.start else none with
    | some left => (left, literals)
    | none => setAside literals found.text

/-- Goes through segments from left to right, replacing the matches. -/
def replaceSegments (replace : Array (List Char) → Match → List Char × Array (List Char))
    (segments : List Segment) (literals : Array (List Char)) : MaskedText :=
  let (reversed, literals) := segments.foldl (fun (state : List Char × Array (List Char)) segment =>
    match segment with
    | .plain c => (c :: state.1, state.2)
    | .hit found =>
      let (text, literals) := replace state.2 found
      (text.reverseAux state.1, literals)) ([], literals)
  ⟨reversed.reverse, literals⟩

/-- Whether a text holds a character that marks placeholders. -/
def reserved (text : List Char) : Bool :=
  text.any fun c => c == Placeholder.opening || c == Placeholder.closing

/-- Sets the literals of a text aside. Comments go if `stripComments` is set and the lexer agrees, and
are set aside like literals otherwise. -/
def mask (lexer : Lexer) (stripComments : Bool) (text : List Char) : Except Unsafe MaskedText :=
  if reserved text then .error .reservedCharacter
  else .ok (replaceSegments (replaceMatch lexer stripComments) (lexer.pattern.segments text) #[])

/-- Sets further matches aside, or the parts of them labelled as literals. -/
def maskAlso (masked : MaskedText) (pattern : Pattern) : MaskedText :=
  replaceSegments setAsideMatch (pattern.segments masked.text) masked.literals

/-- What a placeholder stands for; nothing if its number is not in use. -/
def literalOf (literals : Array (List Char)) (found : Match) : List Char :=
  match Placeholder.number? (found.part 1) with
  | some index => literals[index]?.getD []
  | none => []

/-- Fills in placeholders, at most a given number of times, while any opening character is left. -/
def fillIn (literals : Array (List Char)) : (passes : Nat) → List Char → List Char
  | 0, text => text
  | passes + 1, text =>
    if text.contains Placeholder.opening then
      fillIn literals passes (Placeholder.pattern.replaceAll (literalOf literals) text)
    else text

/-- Puts the literals back into an edited text. A literal may itself hold placeholders of earlier
ones, so this takes as many rounds as there are literals; a placeholder that the rules dropped stays
away. -/
def unmask (masked : MaskedText) (edited : List Char) : List Char :=
  fillIn masked.literals (masked.literals.size + 1) edited

end MaskedText

end Minifier
