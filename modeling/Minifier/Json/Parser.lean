import Minifier.Json.Basic
import Minifier.Json.Failure

/-!
Reading JSON. A reader takes a value off the front of a text and gives what is left, or says what is
wrong and where. Reading a value nests at most a given number of arrays and objects, and each loop
over elements has a bound that the length of the text provides.
-/

namespace Minifier.Json

/-- Reads something off the front of a text. -/
abbrev Reader (α : Type) := List Char → Except Failure (α × List Char)

/-- The blanks of JSON. -/
def isJsonBlank (c : Char) : Bool := c == ' ' || c == '\n' || c == '\t' || c == '\r'

def skipBlanks (text : List Char) : List Char := text.dropWhile isJsonBlank

/-- How many containers may be open at once. -/
def depthLimit : Nat := 127

/-! ### Words and numbers -/

/-- Reads the given characters, the rest of a word. -/
def readWord : List Char → Reader Unit
  | [], rest => .ok ((), rest)
  | _ :: _, [] => Failure.here .endInValue []
  | expected :: more, c :: rest =>
    if c = expected then readWord more rest else Failure.next .expectedIdent (c :: rest)

/-- The greatest integer that fits a machine word. -/
def wordMax : Nat := Nat.pow 2 64 - 1

/-- Adds digits to a significand as long as it fits a machine word, counting them. -/
def takeDigits : (significand count : Nat) → List Char → Nat × Nat × List Char
  | significand, count, [] => (significand, count, [])
  | significand, count, c :: rest =>
    let longer := significand * 10 + (c.toNat - 48)
    if c.isDigit && longer ≤ wordMax then takeDigits longer (count + 1) rest
    else (significand, count, c :: rest)

def startsWithDigit (text : List Char) : Bool := text.head?.any Char.isDigit

def skipDigits (text : List Char) : List Char := text.dropWhile Char.isDigit

/-- Divides by `10 ^ 308` until the exponent is at least `-308` or nothing is left. -/
def scaleDown : (fuel : Nat) → Binary64 → Int → Binary64 × Int
  | 0, size, exponent => (size, exponent)
  | fuel + 1, size, exponent =>
    if size.mantissa = 0 ∨ -308 ≤ exponent then (size, exponent)
    else scaleDown fuel (size.div (.ofNat (Nat.pow 10 308))) (exponent + 308)

/-- The significand as a binary number, scaled by one multiplication or division with a power of ten.
Powers beyond `10 ^ 308` are out of range, unless the significand is zero. -/
def scale (significand : Nat) (exponent : Int) : Option Binary64 :=
  let size := Binary64.ofNat significand
  if significand = 0 then some .zero
  else if exponent > 308 then none
  else if 0 ≤ exponent then
    let power := Binary64.ofNat (Nat.pow 10 exponent.toNat)
    Binary64.ofQuotient? (size.num * power.num) (size.den * power.den)
  else
    let (size, exponent) := scaleDown 4 size exponent
    if size.mantissa = 0 then some .zero
    else some (size.div (.ofNat (Nat.pow 10 (-exponent).toNat)))

/-- A real number from its parts. -/
def finishReal (isNegative : Bool) (significand : Nat) (exponent : Int) : Reader Number := fun rest =>
  match scale significand exponent with
  | some size => .ok (.real isNegative size, rest)
  | none => Failure.here .numberOutOfRange rest

/-- The greatest exponent that is read as such. -/
def exponentMax : Nat := Nat.pow 2 31 - 1

/-- Adds digits to an exponent. If it grows too large, gives nothing and what follows that digit. -/
def takeExponent : (exponent : Nat) → List Char → Option Nat × List Char
  | exponent, [] => (some exponent, [])
  | exponent, c :: rest =>
    if c.isDigit then
      let longer := exponent * 10 + (c.toNat - 48)
      if longer ≤ exponentMax then takeExponent longer rest else (none, rest)
    else (some exponent, c :: rest)

/-- Reads an exponent after its letter. -/
def readExponent (isNegative : Bool) (significand : Nat) (start : Int) : Reader Number := fun text =>
  let (down, text) :=
    match text with
    | '+' :: rest => (false, rest)
    | '-' :: rest => (true, rest)
    | _ => (false, text)
  match text with
  | [] => Failure.here .endInValue []
  | c :: rest =>
    if !c.isDigit then Failure.next .invalidNumber (c :: rest)
    else
      match takeExponent (c.toNat - 48) rest with
      | (some exponent, rest) =>
        finishReal isNegative significand (if down then start - exponent else start + exponent) rest
      | (none, rest) =>
        if significand ≠ 0 && !down then Failure.here .numberOutOfRange rest
        else .ok (.real isNegative .zero, skipDigits rest)

/-- Reads an exponent if there is one. -/
def readOptionalExponent (isNegative : Bool) (significand : Nat) (exponent : Int) : Reader Number
  | 'e' :: rest => readExponent isNegative significand exponent rest
  | 'E' :: rest => readExponent isNegative significand exponent rest
  | rest => finishReal isNegative significand exponent rest

/-- Reads a fraction after its point. Digits that no longer fit the significand are dropped. -/
def readFraction (isNegative : Bool) (significand : Nat) (before : Int) : Reader Number := fun text =>
  let (significand, count, rest) := takeDigits significand 0 text
  if startsWithDigit rest then
    readOptionalExponent isNegative significand (before - count) (skipDigits rest)
  else if count = 0 then
    if rest.isEmpty then Failure.here .endInValue [] else Failure.next .invalidNumber rest
  else readOptionalExponent isNegative significand (before - count) rest

/-- Reads what may follow the integer digits of a number. -/
def readAfterInteger (isNegative : Bool) (significand : Nat) : Reader Number
  | '.' :: rest => readFraction isNegative significand 0 rest
  | 'e' :: rest => readExponent isNegative significand 0 rest
  | 'E' :: rest => readExponent isNegative significand 0 rest
  | rest =>
    if !isNegative then .ok (.natural significand, rest)
    else if 1 ≤ significand ∧ significand ≤ Nat.pow 2 63 then .ok (.negative significand, rest)
    else .ok (.real true (.ofNat significand), rest)

/-- Reads a number after its sign. Integer digits that no longer fit the significand raise the
exponent. -/
def readNumber (isNegative : Bool) : Reader Number
  | [] => Failure.here .endInValue []
  | c :: rest =>
    if c = '0' then
      if startsWithDigit rest then Failure.next .invalidNumber rest
      else readAfterInteger isNegative 0 rest
    else if !c.isDigit then Failure.next .invalidNumber (c :: rest)
    else
      let (significand, _, rest) := takeDigits (c.toNat - 48) 0 rest
      if startsWithDigit rest then
        let more := skipDigits rest
        let exponent : Nat := rest.length - more.length
        match more with
        | '.' :: rest => readFraction isNegative significand exponent rest
        | _ => readOptionalExponent isNegative significand exponent more
      else readAfterInteger isNegative significand rest

/-! ### Strings -/

/-- The value of a hexadecimal digit. -/
def hexValue? (c : Char) : Option Nat :=
  if c.isDigit then some (c.toNat - 48)
  else if 'a' ≤ c ∧ c ≤ 'f' then some (c.toNat - 87)
  else if 'A' ≤ c ∧ c ≤ 'F' then some (c.toNat - 55)
  else none

/-- Reads four hexadecimal digits. Fewer than four bytes end the text; four bytes that are something else
count as read. -/
def readHex (text : List Char) : Except Failure (Nat × List Char) :=
  match text with
  | a :: b :: c :: d :: rest =>
    match hexValue? a, hexValue? b, hexValue? c, hexValue? d with
    | some a, some b, some c, some d => .ok (((a * 16 + b) * 16 + c) * 16 + d, rest)
    | _, _, _, _ => .error { problem := .invalidEscape, rest := text, ahead := 4 }
  | short =>
    if Text.byteSize short < 4 then Failure.here .endInString []
    else .error { problem := .invalidEscape, rest := short, ahead := 4 }

/-- Reads a character given by its number in hexadecimal, or by two surrogates. Gives the character and
how many characters of the text it took. -/
def readUnicodeEscape (text : List Char) : Except Failure (Char × Nat) := do
  let (unit, rest) ← readHex text
  if 0xDC00 ≤ unit ∧ unit ≤ 0xDFFF then Failure.here .loneSurrogate rest
  else if unit < 0xD800 ∨ 0xDBFF < unit then .ok (Char.ofNat unit, 4)
  else
    match rest with
    | [] => Failure.here .endInString []
    | '\\' :: [] => Failure.here .endInString []
    | '\\' :: 'u' :: rest => do
      let (low, rest) ← readHex rest
      if 0xDC00 ≤ low ∧ low ≤ 0xDFFF then
        .ok (Char.ofNat ((unit - 0xD800) * 0x400 + (low - 0xDC00) + 0x10000), 10)
      else Failure.here .loneSurrogate rest
    | '\\' :: rest => Failure.next .unfinishedSurrogate rest
    | rest => Failure.next .unfinishedSurrogate rest

/-- Reads what follows a backslash. Gives the character and how many characters of the text it took. -/
def readEscape : List Char → Except Failure (Char × Nat)
  | [] => Failure.here .endInString []
  | '"' :: _ => .ok ('"', 1)
  | '\\' :: _ => .ok ('\\', 1)
  | '/' :: _ => .ok ('/', 1)
  | 'b' :: _ => .ok ('\x08', 1)
  | 'f' :: _ => .ok ('\x0c', 1)
  | 'n' :: _ => .ok ('\n', 1)
  | 'r' :: _ => .ok ('\r', 1)
  | 't' :: _ => .ok ('\t', 1)
  | 'u' :: rest => (readUnicodeEscape rest).map fun (c, used) => (c, used + 1)
  | text => Failure.next .invalidEscape text

/-- Reads the characters of a string after its opening quote, in front of those read so far. `skip` counts
characters that belong to the last escape. -/
def readStringChars : (skip : Nat) → (text : List Char) → (read : List Char) →
    Except Failure (List Char × List Char)
  | _, [], _ => Failure.here .endInString []
  | skip + 1, _ :: rest, read => readStringChars skip rest read
  | 0, c :: rest, read =>
    if c = '"' then .ok (read.reverse, rest)
    else if c = '\\' then
      match readEscape rest with
      | .ok (escaped, used) => readStringChars used rest (escaped :: read)
      | .error failure => .error failure
    else if c.toNat < 32 then Failure.next .controlCharacter (c :: rest)
    else readStringChars 0 rest (c :: read)

/-- Reads a string after its opening quote. -/
def readString : Reader String := fun text => do
  let (chars, rest) ← readStringChars 0 text []
  .ok (String.ofList chars, rest)

/-! ### Values -/

/-- How a member joins those read before it. -/
abbrev Joining := Members → String → Json → Members

/-- Looks whether an array goes on, and skips the comma before a further element. -/
def nextElement (first : Bool) (text : List Char) : Except Failure (Option (List Char)) :=
  match skipBlanks text with
  | [] => Failure.here .endInList []
  | ']' :: _ => .ok none
  | c :: rest =>
    if first then .ok (some (c :: rest))
    else if c = ',' then
      match skipBlanks rest with
      | [] => Failure.here .endInValue []
      | ']' :: after => Failure.next .trailingComma (']' :: after)
      | after => .ok (some after)
    else Failure.next .expectedCommaOrBracket (c :: rest)

/-- Looks whether an object goes on, and skips the comma before a further key. Gives what follows the
opening quote of the key. -/
def nextKey (first : Bool) (text : List Char) : Except Failure (Option (List Char)) :=
  match skipBlanks text with
  | [] => Failure.here .endInObject []
  | '\x7d' :: _ => .ok none
  | c :: rest =>
    if first then
      if c = '"' then .ok (some rest) else Failure.next .keyNotString (c :: rest)
    else if c = ',' then
      match skipBlanks rest with
      | [] => Failure.here .endInValue []
      | '"' :: key => .ok (some key)
      | '\x7d' :: after => Failure.next .trailingComma ('\x7d' :: after)
      | other => Failure.next .keyNotString other
    else Failure.next .expectedCommaOrBrace (c :: rest)

/-- Skips the colon between a key and its value. -/
def skipColon (text : List Char) : Except Failure (List Char) :=
  match skipBlanks text with
  | [] => Failure.here .endInObject []
  | ':' :: rest => .ok rest
  | other => Failure.next .expectedColon other

/-- Skips the bracket that ends an array. -/
def endArray (text : List Char) : Except Failure (List Char) :=
  match skipBlanks text with
  | [] => Failure.here .endInList []
  | ']' :: rest => .ok rest
  | ',' :: rest =>
    match skipBlanks rest with
    | ']' :: after => Failure.next .trailingComma (']' :: after)
    | other => Failure.next .trailingCharacters other
  | other => Failure.next .trailingCharacters other

/-- Skips the brace that ends an object. -/
def endObject (text : List Char) : Except Failure (List Char) :=
  match skipBlanks text with
  | [] => Failure.here .endInObject []
  | '\x7d' :: rest => .ok rest
  | ',' :: rest => Failure.next .trailingComma (',' :: rest)
  | other => Failure.next .trailingCharacters other

/-- Reads the elements of an array up to its bracket, in front of those read so far. -/
def readElements (value : Reader Json) : (fuel : Nat) → (first : Bool) → (read : List Json) →
    Reader (List Json)
  | 0, _, read, text => .ok (read.reverse, text)
  | fuel + 1, first, read, text => do
    match ← nextElement first text with
    | none => .ok (read.reverse, text)
    | some text =>
      let (element, text) ← value text
      readElements value fuel false (element :: read) text

/-- Reads the members of an object up to its brace. -/
def readMembers (join : Joining) (value : Reader Json) : (fuel : Nat) → (first : Bool) →
    (read : Members) → Reader Members
  | 0, _, read, text => .ok (read, text)
  | fuel + 1, first, read, text => do
    match ← nextKey first text with
    | none => .ok (read, text)
    | some text =>
      let (key, text) ← readString text
      let text ← skipColon text
      let (element, text) ← value text
      readMembers join value fuel false (join read key element) text

/-- Reads a value whose containers, if it may have any, hold what `nested` reads. -/
def readValueWith (join : Joining) (fuel : Nat) (nested : Option (Reader Json)) : Reader Json :=
  fun text =>
    match skipBlanks text with
    | [] => Failure.here .endInValue []
    | 'n' :: rest => (readWord ['u', 'l', 'l'] rest).map fun (_, rest) => (.null, rest)
    | 't' :: rest => (readWord ['r', 'u', 'e'] rest).map fun (_, rest) => (.bool true, rest)
    | 'f' :: rest => (readWord ['a', 'l', 's', 'e'] rest).map fun (_, rest) => (.bool false, rest)
    | '-' :: rest => (readNumber true rest).map fun (value, rest) => (.number value, rest)
    | '"' :: rest => (readString rest).map fun (text, rest) => (.string text, rest)
    | '[' :: rest =>
      match nested with
      | none => Failure.next .tooDeep ('[' :: rest)
      | some value => do
        let (elements, rest) ← readElements value fuel true [] rest
        let rest ← endArray rest
        .ok (.array elements, rest)
    | '\x7b' :: rest =>
      match nested with
      | none => Failure.next .tooDeep ('\x7b' :: rest)
      | some value => do
        let (members, rest) ← readMembers join value fuel true [] rest
        let rest ← endObject rest
        .ok (.object members, rest)
    | c :: rest =>
      if c.isDigit then (readNumber false (c :: rest)).map fun (value, rest) => (.number value, rest)
      else Failure.next .expectedValue (c :: rest)

/-- Reads a value that nests at most `depth` containers. -/
def readValue (join : Joining) (fuel : Nat) : (depth : Nat) → Reader Json
  | 0 => readValueWith join fuel none
  | depth + 1 => readValueWith join fuel (some (readValue join fuel depth))

/-- Refuses anything but blanks. -/
def readEnd (text : List Char) : Except Failure Unit :=
  match skipBlanks text with
  | [] => .ok ()
  | other => Failure.next .trailingCharacters other

/-- Reads a whole text with a reader. -/
def readAll {α : Type} (reader : Reader α) (text : List Char) : Except SyntaxError α :=
  match reader text with
  | .error failure => .error (.ofFailure text failure)
  | .ok (value, rest) =>
    match readEnd rest with
    | .error failure => .error (.ofFailure text failure)
    | .ok () => .ok value

/-- The value of a JSON text. -/
def parseChars (text : List Char) : Except SyntaxError Json :=
  readAll (readValue Members.put (text.length + 1) depthLimit) text

/-- The value of a JSON text. -/
def parse (text : String) : Except SyntaxError Json := parseChars text.toList

end Minifier.Json
