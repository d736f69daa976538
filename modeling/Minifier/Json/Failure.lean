import Minifier.Text.Basic

/-!
What can be wrong with a JSON text, and where. A place is counted in lines from one and in bytes of
the line; the byte on which a fault shows counts as read, and a line feed that counts as read begins
the next line at column zero.
-/

namespace Minifier.Json

/-- A fault in a JSON text, or a value of the wrong shape in it. -/
inductive Problem where
  | endInList | endInObject | endInString | endInValue
  | expectedColon | expectedCommaOrBracket | expectedCommaOrBrace | expectedIdent | expectedValue
  | invalidEscape | invalidNumber | numberOutOfRange | controlCharacter | keyNotString
  | loneSurrogate | unfinishedSurrogate | trailingComma | trailingCharacters | tooDeep
  /-- The text is well-formed, but not what was asked for. -/
  | shape (message : String)
  deriving DecidableEq, Repr

/-- The problem in words. -/
def Problem.message : Problem → String
  | endInList => "EOF while parsing a list"
  | endInObject => "EOF while parsing an object"
  | endInString => "EOF while parsing a string"
  | endInValue => "EOF while parsing a value"
  | expectedColon => "expected `:`"
  | expectedCommaOrBracket => "expected `,` or `]`"
  | expectedCommaOrBrace => "expected `,` or `\x7d`"
  | expectedIdent => "expected ident"
  | expectedValue => "expected value"
  | invalidEscape => "invalid escape"
  | invalidNumber => "invalid number"
  | numberOutOfRange => "number out of range"
  | controlCharacter => "control character (\\u0000-\\u001F) found while parsing a string"
  | keyNotString => "key must be a string"
  | loneSurrogate => "lone leading surrogate in hex escape"
  | unfinishedSurrogate => "unexpected end of hex escape"
  | trailingComma => "trailing comma"
  | trailingCharacters => "trailing characters"
  | tooDeep => "recursion limit exceeded"
  | shape message => message

/-- A problem met while reading: what was left to read then, and how many bytes of that count as read.
The place of a wrong shape is settled only once the surroundings were read to their end. -/
structure Failure where
  problem : Problem
  rest : List Char
  ahead : Nat
  settled : Bool := true
  deriving DecidableEq, Repr

namespace Failure

/-- A problem where reading has come to. -/
def here {α : Type} (problem : Problem) (rest : List Char) : Except Failure α :=
  .error { problem, rest, ahead := 0 }

/-- A problem with the next byte, which counts as read if there is one. -/
def next {α : Type} (problem : Problem) (rest : List Char) : Except Failure α :=
  .error { problem, rest, ahead := if rest.isEmpty then 0 else 1 }

/-- A wrong shape whose place is not settled yet. -/
def unsettled {α : Type} (message : String) (rest : List Char) : Except Failure α :=
  .error { problem := .shape message, rest, ahead := 0, settled := false }

end Failure

/-- A place in a text. -/
structure Place where
  line : Nat
  column : Nat
  deriving DecidableEq, Repr

namespace Place

/-- The place after a number of bytes, going on from a given place. -/
def advance : Place → (bytes : Nat) → List Char → Place
  | place, 0, _ => place
  | place, _, [] => place
  | place, bytes + 1, c :: rest =>
    if c.utf8Size ≤ bytes + 1 then
      advance (if c = '\n' then ⟨place.line + 1, 0⟩ else ⟨place.line, place.column + c.utf8Size⟩)
        (bytes + 1 - c.utf8Size) rest
    else ⟨place.line, place.column + (bytes + 1)⟩

/-- The place after the first bytes of a text. -/
def after (bytes : Nat) (text : List Char) : Place := advance ⟨1, 0⟩ bytes text

end Place

/-- A problem with its place in the text. -/
structure SyntaxError where
  problem : Problem
  place : Place
  deriving DecidableEq, Repr

namespace SyntaxError

/-- The problem and its place in words. -/
def message (error : SyntaxError) : String :=
  s!"{error.problem.message} at line {error.place.line} column {error.place.column}"

/-- A failure, placed in the text that was read. -/
def ofFailure (text : List Char) (failure : Failure) : SyntaxError :=
  ⟨failure.problem,
    Place.after (Text.byteSize text - Text.byteSize failure.rest + failure.ahead) text⟩

end SyntaxError

end Minifier.Json
