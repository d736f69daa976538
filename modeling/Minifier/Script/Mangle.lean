import Minifier.Pattern.Match
import Minifier.Text.Alphanumeric

/-!
Shortening the names that a script declares. A name that directly follows one of the declaring words
gets a letter, and after those two letters and so on, but never one that the script uses already or
that is reserved. Scope is not looked at, and members of objects keep their names.
-/

namespace Minifier.Mangle

open Pattern

/-- An identifier: a letter, underscore or dollar sign, and what may follow it. -/
def identifier : Pattern := one Class.nameStart ++ run Class.namePart

/-- A declaring word and the name after it, the first part. -/
def declaration : Pattern :=
  wordEdge ++ words ["var", "let", "const", "function", "class"] ++ run1 Text.isBlank ++
    part 1 identifier

/-- Words that are never used as a short name. -/
def reserved : List String :=
  ["as", "do", "if", "in", "is", "of", "for", "let", "new", "try", "var", "case", "else",
   "enum", "eval", "null", "this", "true", "void", "with", "break", "catch", "class", "const",
   "false", "super", "throw", "while", "yield", "delete", "export", "import", "public",
   "return", "static", "switch", "typeof", "default", "extends", "finally", "package",
   "private", "continue", "debugger", "function", "arguments", "interface", "protected",
   "implements", "instanceof", "undefined"]

def reservedWords : List (List Char) := reserved.map String.toList

def letter (n : Nat) : Char := Char.ofNat (97 + n % 26)

/-- The letters of a number in front of those given. A number below 26 is one letter; any other is what
its quotient by 26 less one gives, and then the letter of its remainder. -/
def lettersOnto : (fuel index : Nat) → List Char → List Char
  | 0, index, tail => letter index :: tail
  | fuel + 1, index, tail =>
    if index < 26 then letter index :: tail
    else lettersOnto fuel (index / 26 - 1) (letter index :: tail)

/-- The name with a given number, counting from zero: all of one letter, then all of two letters, and so
on, each in alphabetical order. -/
def base26 (index : Nat) : List Char := lettersOnto index index []

/-- The first name from a number on that is not taken, with the number after it. Among as many candidates
as there are taken names, and one more, one is free. -/
def freshName (taken : List (List Char)) : (tries counter : Nat) → List Char × Nat
  | 0, counter => (base26 counter, counter + 1)
  | tries + 1, counter =>
    let candidate := base26 counter
    if taken.contains candidate then freshName taken tries (counter + 1)
    else (candidate, counter + 1)

/-- Names with the short names chosen for them. -/
abbrev Renaming := List (List Char × List Char)

def identifiers (code : List Char) : List (List Char) := (identifier.allMatches code).map Match.text

/-- The declared names of a code, one for each declaration. -/
def declaredNames (code : List Char) : List (List Char) :=
  (declaration.allMatches code).map fun found => found.part 1

/-- Chooses short names for declared names in the order of their first declaration. A short name that is
not shorter is not used, and not offered again. -/
def choose (taken declared : List (List Char)) : Renaming :=
  let step (state : Renaming × Nat) (name : List Char) : Renaming × Nat :=
    if (state.1.lookup name).isSome then state
    else
      let (short, counter) := freshName taken taken.length state.2
      if Text.byteSize name ≤ short.length then (state.1, counter)
      else ((name, short) :: state.1, counter)
  (declared.foldl step ([], 0)).1.reverse

def isIdentifierChar (c : Char) : Bool := Text.isAlphanumeric c || c == '_' || c == '$'

/-- Whether an identifier that stands after this character is one of its own: not a member, and not the
rest of a longer name. -/
def standsAlone (before : Option Char) : Bool :=
  match before with
  | none => true
  | some c => c != '.' && !isIdentifierChar c

/-- Renames the identifiers among segments, the segments so far being given in reverse. -/
def renameSegments (names : Renaming) :
    (before : Option Char) → List Segment → (done : List Char) → List Char
  | _, [], done => done.reverse
  | _, .plain c :: rest, done => renameSegments names (some c) rest (c :: done)
  | before, .hit found :: rest, done =>
    let name := found.text
    let written :=
      if standsAlone before then (names.lookup name).getD name else name
    renameSegments names name.getLast? rest (written.reverseAux done)

/-- A code with short names, and which name became which, in order of first declaration. -/
structure Result where
  code : List Char
  renamed : Renaming
  deriving DecidableEq, Repr

/-- Shortens the declared names of a code. -/
def mangle (code : List Char) : Result :=
  let taken := (identifiers code).eraseDups ++ reservedWords
  let names := choose taken (declaredNames code)
  if names.isEmpty then ⟨code, names⟩
  else ⟨renameSegments names none (identifier.segments code) [], names⟩

end Minifier.Mangle
