import Minifier.Text.Basic
import Minifier.Text.Word

/-!
Patterns over text. A pattern lists alternatives in order of preference, and repetition is greedy
unless it says otherwise; the first way to succeed in that order is the match. Labels remember which
part of a match a sub-pattern took.

Patterns are plain data, so a law about one of them is proved by recursion on its parts, and the
characters that it can touch are read off its leaves.
-/

namespace Minifier

/-- Conditions on a place in a text that take up no characters. -/
inductive Anchor where
  /-- Nothing stands before. -/
  | textStart : Anchor
  /-- Nothing stands after. -/
  | textEnd : Anchor
  /-- The text begins here, or a line feed stands just before. -/
  | lineStart : Anchor
  /-- The text ends here, or a line feed stands just after. -/
  | lineEnd : Anchor
  /-- Exactly one of the two neighbours is a word character. -/
  | wordEdge : Anchor
  deriving DecidableEq, Repr

/-- Names for the parts of a match. -/
inductive Label where
  /-- A comment. -/
  | comment : Label
  /-- The part of a match that is a literal. -/
  | literal : Label
  /-- A part known by its number. -/
  | part : Nat → Label
  deriving DecidableEq, Repr

/-- A pattern with ordered alternatives. -/
inductive Pattern where
  /-- Matches without taking anything. -/
  | empty : Pattern
  /-- Takes one character of a class. -/
  | one (accepts : Char → Bool) : Pattern
  /-- Takes characters of a class, as many as possible first. -/
  | run (accepts : Char → Bool) : Pattern
  /-- Takes characters of a class, as few as possible first. -/
  | shortRun (accepts : Char → Bool) : Pattern
  /-- Takes units, as many as possible first. A unit is a plain character, or a backslash and one
  character that may follow it; a backslash is not plain. -/
  | escapedRun (plain follows : Char → Bool) : Pattern
  /-- Takes nothing where the condition holds. -/
  | anchor (condition : Anchor) : Pattern
  /-- One pattern and then another. -/
  | seq (first second : Pattern) : Pattern
  /-- The first pattern if it leads to a match, the second otherwise. -/
  | alt (first second : Pattern) : Pattern
  /-- Repeats a pattern, as often as possible first. A round that takes nothing is no round. -/
  | star (body : Pattern) : Pattern
  /-- Remembers what the pattern took. -/
  | label (name : Label) (body : Pattern) : Pattern

namespace Pattern

instance : Append Pattern := ⟨.seq⟩

instance : OrElse Pattern := ⟨fun first second => .alt first (second ())⟩

/-- At least one character of a class, as many as possible first. -/
def run1 (accepts : Char → Bool) : Pattern := one accepts ++ run accepts

def optional (body : Pattern) : Pattern := alt body empty

def char (c : Char) : Pattern := one (· == c)

def oneOf (chars : List Char) : Pattern := one chars.contains

/-- The given characters in order. -/
def word (text : String) : Pattern :=
  text.toList.foldr (fun c rest => char c ++ rest) empty

/-- The first of the patterns that leads to a match. -/
def choice : List Pattern → Pattern
  | [] => one fun _ => false
  | [last] => last
  | first :: rest => alt first (choice rest)

def words (texts : List String) : Pattern := choice (texts.map word)

def part (n : Nat) (body : Pattern) : Pattern := label (.part n) body

def wordEdge : Pattern := anchor .wordEdge

def lineStart : Pattern := anchor .lineStart

def lineEnd : Pattern := anchor .lineEnd

def textStart : Pattern := anchor .textStart

def textEnd : Pattern := anchor .textEnd

end Pattern

/-! ### Classes of characters -/

namespace Class

def any (_ : Char) : Bool := true

def among (chars : List Char) (c : Char) : Bool := chars.contains c

def except (chars : List Char) (c : Char) : Bool := !chars.contains c

def spaceTab (c : Char) : Bool := c == ' ' || c == '\t'

def inLine (c : Char) : Bool := c != '\n'

def letter (c : Char) : Bool := c.isAlpha

def nameStart (c : Char) : Bool := c.isAlpha || c == '_' || c == '$'

def namePart (c : Char) : Bool := Text.isWord c || c == '$'

end Class

namespace Pattern

/-- One character that is `c` when case is ignored. Two signs outside ASCII fold onto a letter: the
long s onto s and the kelvin sign onto k. -/
def charAnyCase (c : Char) : Pattern :=
  one fun d => d.toLower == c || (c == 's' && d == '\u017f') || (c == 'k' && d == '\u212a')

/-- The given lower-case characters in order, in any case. -/
def wordAnyCase (text : String) : Pattern :=
  text.toList.foldr (fun c rest => charAnyCase c ++ rest) empty

def wordsAnyCase (texts : List String) : Pattern := choice (texts.map wordAnyCase)

end Pattern

end Minifier
