import Minifier.Json.Basic
import Minifier.Number.Decimal

/-!
Writing JSON, either without any blanks or indented by two spaces. Each writer puts its text in front
of a given tail, so writing is linear in the text.
-/

namespace Minifier.Json

/-- A real number has plain digits down to `0.00001` and up to sixteen places before the point, and an
exponent with its sign beyond. -/
def layout : Decimal.Layout := ⟨-5, 15⟩

/-- The text of a number. -/
def Number.chars : Number → List Char
  | .natural n => Decimal.digitChars n
  | .negative n => '-' :: Decimal.digitChars n
  | .real isNegative size =>
    let digits := Decimal.render layout (Decimal.shortest size)
    if isNegative then '-' :: digits else digits

def hexDigit (n : Nat) : Char := if n < 10 then Char.ofNat (48 + n) else Char.ofNat (87 + n)

/-- A character inside a string. Quotes, backslashes and the characters below the space are escaped,
with a letter of their own where there is one. -/
def escapeChar (c : Char) : List Char :=
  if c == '"' then ['\\', '"']
  else if c == '\\' then ['\\', '\\']
  else if c == '\x08' then ['\\', 'b']
  else if c == '\x0c' then ['\\', 'f']
  else if c == '\n' then ['\\', 'n']
  else if c == '\r' then ['\\', 'r']
  else if c == '\t' then ['\\', 't']
  else if c.toNat < 32 then
    ['\\', 'u', '0', '0', hexDigit (c.toNat / 16), hexDigit (c.toNat % 16)]
  else [c]

/-- The characters of a string with escapes, then a quote and the tail. -/
def escapeOnto (text : List Char) (tail : List Char) : List Char :=
  '"' :: text.reverse.foldl (fun onto c => escapeChar c ++ onto) ('"' :: tail)

def quote (text : String) : String := String.ofList (escapeOnto text.toList [])

mutual

/-- A value without blanks, in front of a tail. -/
def compactOnto : Json → List Char → List Char
  | .null, tail => 'n' :: 'u' :: 'l' :: 'l' :: tail
  | .bool true, tail => 't' :: 'r' :: 'u' :: 'e' :: tail
  | .bool false, tail => 'f' :: 'a' :: 'l' :: 's' :: 'e' :: tail
  | .number value, tail => value.chars ++ tail
  | .string value, tail => escapeOnto value.toList tail
  | .array elements, tail => '[' :: compactElements true elements (']' :: tail)
  | .object members, tail => '\x7b' :: compactMembers true members ('\x7d' :: tail)

/-- Elements with commas between them; `first` tells that none stands before. -/
def compactElements : (first : Bool) → List Json → List Char → List Char
  | _, [], tail => tail
  | first, value :: rest, tail =>
    let onto := compactOnto value (compactElements false rest tail)
    if first then onto else ',' :: onto

/-- Members with commas between them; `first` tells that none stands before. -/
def compactMembers : (first : Bool) → List (String × Json) → List Char → List Char
  | _, [], tail => tail
  | first, (key, value) :: rest, tail =>
    let onto := escapeOnto key.toList (':' :: compactOnto value (compactMembers false rest tail))
    if first then onto else ',' :: onto

end

def compact (value : Json) : String := String.ofList (compactOnto value [])

/-- A line break and an indentation of two spaces a level, in front of a tail. -/
def breakOnto (depth : Nat) (tail : List Char) : List Char :=
  '\n' :: (List.replicate (2 * depth) ' ' ++ tail)

mutual

/-- A value on lines of its own, in front of a tail. -/
def prettyOnto (depth : Nat) : Json → List Char → List Char
  | .array [], tail => '[' :: ']' :: tail
  | .array (first :: rest), tail =>
    '[' :: breakOnto (depth + 1) (prettyOnto (depth + 1) first
      (prettyElements (depth + 1) rest (breakOnto depth (']' :: tail))))
  | .object [], tail => '\x7b' :: '\x7d' :: tail
  | .object ((key, value) :: rest), tail =>
    '\x7b' :: breakOnto (depth + 1) (escapeOnto key.toList (':' :: ' ' :: prettyOnto (depth + 1) value
      (prettyMembers (depth + 1) rest (breakOnto depth ('\x7d' :: tail)))))
  | value, tail => compactOnto value tail

/-- Further elements, each after a comma and on a line of its own. -/
def prettyElements (depth : Nat) : List Json → List Char → List Char
  | [], tail => tail
  | value :: rest, tail =>
    ',' :: breakOnto depth (prettyOnto depth value (prettyElements depth rest tail))

/-- Further members, each after a comma and on a line of its own. -/
def prettyMembers (depth : Nat) : List (String × Json) → List Char → List Char
  | [], tail => tail
  | (key, value) :: rest, tail =>
    ',' :: breakOnto depth (escapeOnto key.toList (':' :: ' ' :: prettyOnto depth value
      (prettyMembers depth rest tail)))

end

/-- The text of a value with every element and member on a line of its own. -/
def pretty (value : Json) : String := String.ofList (prettyOnto 0 value [])

end Minifier.Json
