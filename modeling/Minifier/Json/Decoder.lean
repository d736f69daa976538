import Minifier.Json.Parser
import Minifier.Json.Printer
import Minifier.Text.Quoted

/-!
Reading values of a known shape. A decoder takes its value either from a JSON value that is at hand or
straight from a text. The two refuse the same shapes in the same words; from a text the place is
known, and a fault of the text that comes first is reported first.
-/

namespace Minifier.Json

/-! ### Words for a wrong shape -/

/-- A value as it is named in a message. -/
def describe : Json → String
  | .null => "null"
  | .bool value => s!"boolean `{value}`"
  | .number (.natural n) => s!"integer `{n}`"
  | .number (.negative n) => s!"integer `-{n}`"
  | .number value => s!"floating point `{String.ofList value.chars}`"
  | .string value => s!"string {Text.quoted value}"
  | .array _ => "sequence"
  | .object _ => "map"

/-- A value is of a type other than the expected one. -/
def wrongType (found : Json) (expected : String) : String :=
  s!"invalid type: {found.describe}, expected {expected}"

/-- A name is none of the expected ones. -/
def unknownName (name : String) (expected : List String) : String :=
  let choices := ", ".intercalate (expected.map fun name => s!"`{name}`")
  s!"unknown variant `{name}`, expected one of {choices}"

def missingField (name : String) : String := s!"missing field `{name}`"

def duplicateField (name : String) : String := s!"duplicate field `{name}`"

/-- A list has the wrong number of elements. -/
def wrongLength (length : Nat) (expected : String) : String :=
  s!"invalid length {length}, expected {expected}"

/-- An object that should name one choice has other than one member. -/
def notOneMember : String := "invalid value: map, expected map with a single key"

/-! ### Skipping a value -/

/-- Skips a string after its opening quote; `skip` counts characters of the last escape. Surrogates need
not pair up. -/
def skipStringChars : (skip : Nat) → (text : List Char) → Except Failure (List Char)
  | _, [] => Failure.here .endInString []
  | skip + 1, _ :: rest => skipStringChars skip rest
  | 0, c :: rest =>
    if c = '"' then .ok rest
    else if c = '\\' then
      match rest with
      | 'u' :: digits =>
        match readHex digits with
        | .ok _ => skipStringChars 5 rest
        | .error failure => .error failure
      | _ =>
        match readEscape rest with
        | .ok (_, used) => skipStringChars used rest
        | .error failure => .error failure
    else if c.toNat < 32 then Failure.here .controlCharacter (c :: rest)
    else skipStringChars 0 rest

/-- Skips an exponent after its letter. -/
def skipExponent (text : List Char) : Except Failure (List Char) :=
  let text :=
    match text with
    | '+' :: rest => rest
    | '-' :: rest => rest
    | _ => text
  if startsWithDigit text then .ok (skipDigits text) else Failure.next .invalidNumber text

/-- Skips a number after its sign. -/
def skipNumber (text : List Char) : Except Failure (List Char) :=
  let afterInteger (text : List Char) : Except Failure (List Char) :=
    match text with
    | '.' :: rest =>
      if startsWithDigit rest then
        match skipDigits rest with
        | 'e' :: rest => skipExponent rest
        | 'E' :: rest => skipExponent rest
        | rest => .ok rest
      else Failure.next .invalidNumber rest
    | 'e' :: rest => skipExponent rest
    | 'E' :: rest => skipExponent rest
    | rest => .ok rest
  match text with
  | '0' :: rest =>
    if startsWithDigit rest then Failure.next .invalidNumber rest else afterInteger rest
  | c :: rest =>
    if c.isDigit then afterInteger (skipDigits rest) else Failure.next .invalidNumber (c :: rest)
  | [] => Failure.here .invalidNumber []

/-- Skips a value that holds no others; gives nothing if a container begins here, which it tells from an
object by its flag. -/
def skipScalar (text : List Char) : Except Failure (Option Bool × List Char) :=
  match text with
  | [] => Failure.here .endInValue []
  | 'n' :: rest => (readWord ['u', 'l', 'l'] rest).map fun (_, rest) => (none, rest)
  | 't' :: rest => (readWord ['r', 'u', 'e'] rest).map fun (_, rest) => (none, rest)
  | 'f' :: rest => (readWord ['a', 'l', 's', 'e'] rest).map fun (_, rest) => (none, rest)
  | '-' :: rest => (skipNumber rest).map fun rest => (none, rest)
  | '"' :: rest => (skipStringChars 0 rest).map fun rest => (none, rest)
  | '[' :: rest => .ok (some false, rest)
  | '\x7b' :: rest => .ok (some true, rest)
  | c :: rest =>
    if c.isDigit then (skipNumber (c :: rest)).map fun rest => (none, rest)
    else Failure.next .expectedValue (c :: rest)

/-- Where skipping stands after closing what ends here. -/
inductive Skipped where
  /-- Everything is closed. -/
  | done (rest : List Char)
  /-- The innermost of these containers goes on. -/
  | more (open_ : List Bool) (rest : List Char)

/-- Closes the containers that end here, the innermost first, and skips the comma before what follows.
`true` stands for an object. `comma` tells that a value was just skipped. -/
def closeSkipped : (open_ : List Bool) → (comma : Bool) → List Char → Except Failure Skipped
  | [], _, text => .ok (.done text)
  | isObject :: outer, comma, text =>
    match skipBlanks text with
    | [] => Failure.here (if isObject then .endInObject else .endInList) []
    | c :: rest =>
      if comma && c = ',' then .ok (.more (isObject :: outer) rest)
      else if c = (if isObject then '\x7d' else ']') then closeSkipped outer true rest
      else if comma then
        Failure.next (if isObject then .expectedCommaOrBrace else .expectedCommaOrBracket) (c :: rest)
      else .ok (.more (isObject :: outer) (c :: rest))

/-- Skips the key before a value of an object. -/
def skipKey (text : List Char) : Except Failure (List Char) := do
  let rest ←
    match skipBlanks text with
    | [] => Failure.here .endInObject []
    | '"' :: rest => skipStringChars 0 rest
    | other => Failure.next .keyNotString other
  skipColon rest

/-- Skips a value inside the given containers, and all that follows in them. -/
def skipFrom : (fuel : Nat) → (open_ : List Bool) → List Char → Except Failure (List Char)
  | 0, _, text => .ok text
  | fuel + 1, open_, text => do
    let (container, rest) ← skipScalar (skipBlanks text)
    let state ←
      match container with
      | none => closeSkipped open_ true rest
      | some isObject => closeSkipped (isObject :: open_) false rest
    match state with
    | .done rest => .ok rest
    | .more open_ rest =>
      match open_ with
      | true :: _ => skipFrom fuel open_ (← skipKey rest)
      | _ => skipFrom fuel open_ rest

/-- Skips a value of any shape and depth. -/
def skipValue (text : List Char) : Except Failure (List Char) := skipFrom (text.length + 1) [] text

/-! ### Decoders -/

/-- How values of a type are read. -/
structure Decoder (α : Type) where
  /-- Reads from a text. -/
  read : Reader α
  /-- Takes a value that is at hand. -/
  take : Json → Except String α

/-- Refuses what a text holds here, a scalar after reading it and a container before. -/
def readWrongType {α : Type} (expected : String) : Reader α := fun text =>
  let refuse (found : Json) (rest : List Char) : Except Failure (α × List Char) :=
    Failure.here (.shape (wrongType found expected)) rest
  match skipBlanks text with
  | '[' :: rest => refuse (.array []) ('[' :: rest)
  | '\x7b' :: rest => refuse (.object []) ('\x7b' :: rest)
  | text => do
    let (found, rest) ← readValueWith Members.put 0 none text
    refuse found rest

namespace Decoder

variable {α β : Type}

/-- Changes the value that was read. -/
def map (f : α → β) (decoder : Decoder α) : Decoder β where
  read text := (decoder.read text).map fun (value, rest) => (f value, rest)
  take value := (decoder.take value).map f

/-- A truth value. -/
def bool : Decoder Bool where
  read text :=
    match skipBlanks text with
    | [] => Failure.here .endInValue []
    | 't' :: rest => (readWord ['r', 'u', 'e'] rest).map fun (_, rest) => (true, rest)
    | 'f' :: rest => (readWord ['a', 'l', 's', 'e'] rest).map fun (_, rest) => (false, rest)
    | other => readWrongType "a boolean" other
  take
    | .bool value => .ok value
    | other => .error (wrongType other "a boolean")

/-- A string. -/
def string : Decoder String where
  read text :=
    match skipBlanks text with
    | [] => Failure.here .endInValue []
    | '"' :: rest => readString rest
    | other => readWrongType "a string" other
  take
    | .string value => .ok value
    | other => .error (wrongType other "a string")

/-- A value, or null for none. -/
def optional (decoder : Decoder α) : Decoder (Option α) where
  read text :=
    match skipBlanks text with
    | 'n' :: rest => (readWord ['u', 'l', 'l'] rest).map fun (_, rest) => (none, rest)
    | other => (decoder.read other).map fun (value, rest) => (some value, rest)
  take
    | .null => .ok none
    | other => (decoder.take other).map some

/-- Null and nothing else. -/
def readNull : Reader Unit := fun text =>
  match skipBlanks text with
  | [] => Failure.here .endInValue []
  | 'n' :: rest => readWord ['u', 'l', 'l'] rest
  | other => readWrongType "unit" other

/-- A choice given by its name, or by an object whose only member is that name with null. -/
def choice (names : List String) (ofName : String → Option α) : Decoder α where
  read text :=
    let pick (rest : List Char) : Except Failure (α × List Char) := do
      let (name, rest) ← readString rest
      match ofName name with
      | some value => .ok (value, rest)
      | none => Failure.here (.shape (unknownName name names)) rest
    match skipBlanks text with
    | [] => Failure.here .endInValue []
    | '"' :: rest => pick rest
    | '\x7b' :: rest => do
      let (value, rest) ←
        match skipBlanks rest with
        | [] => Failure.here .endInValue []
        | '"' :: rest => pick rest
        | other => readWrongType "variant identifier" other
      let rest ← skipColon rest
      let (_, rest) ← readNull rest
      match skipBlanks rest with
      | [] => Failure.here .endInObject []
      | '\x7d' :: rest => .ok (value, rest)
      | other => Failure.here .expectedValue other
    | other => Failure.next .expectedValue other
  take value :=
    let pick (name : String) : Except String α :=
      match ofName name with
      | some value => .ok value
      | none => .error (unknownName name names)
    match value with
    | .string name => pick name
    | .object [(name, content)] => do
      let value ← pick name
      match content with
      | .null => .ok value
      | other => .error (wrongType other "unit")
    | .object _ => .error notOneMember
    | other => .error (wrongType other "string or map")

end Decoder

/-- A field of a record: its name, whether it must be there, and how its value joins the others. -/
structure Field (ρ : Type) where
  name : String
  required : Bool
  decoder : Decoder (ρ → ρ)

/-- A record: its name in messages, its fields in order, and what it is before any field is read. -/
structure Record (ρ : Type) where
  name : String
  fields : List (Field ρ)
  start : ρ

namespace Record

variable {ρ σ : Type}

def expected (record : Record ρ) : String := s!"struct {record.name}"

/-- The record as it is named where an array is too short for it. -/
def expectedElements (record : Record ρ) : String :=
  s!"struct {record.name} with {record.fields.length} elements"

/-- The field with a name. -/
def field? (record : Record ρ) (name : String) : Option (Field ρ) :=
  record.fields.find? fun field => field.name == name

/-- The first required field that was not seen. -/
def missing? (record : Record ρ) (seen : List String) : Option String :=
  (record.fields.find? fun field => field.required && !seen.contains field.name).map Field.name

/-- Reads the elements of an array into the fields in order. -/
def readFields (record : Record ρ) : (index : Nat) → (fields : List (Field ρ)) → (value : ρ) → Reader ρ
  | _, [], value, text => .ok (value, text)
  | index, field :: rest, value, text => do
    match ← nextElement (index = 0) text with
    | none =>
      if field.required then
        Failure.unsettled (wrongLength index record.expectedElements) (skipBlanks text)
      else readFields record (index + 1) rest value text
    | some text =>
      let (set, text) ← field.decoder.read text
      readFields record (index + 1) rest (set value) text

/-- Reads the members of an object into the fields. `extra` reads the value of any other key. Gives the
record, what `extra` made, and the names of the fields that were there. -/
def readMembers (record : Record ρ) (extra : σ → (key : String) → Reader σ) : (fuel : Nat) →
    (first : Bool) → (seen : List String) → ρ → σ → Reader (ρ × σ × List String)
  | 0, _, seen, value, others, text => .ok ((value, others, seen), text)
  | fuel + 1, first, seen, value, others, text => do
    match ← nextKey first text with
    | none => .ok ((value, others, seen), skipBlanks text)
    | some text =>
      let (key, text) ← readString text
      match record.field? key with
      | some field =>
        if seen.contains key then Failure.unsettled (duplicateField key) text
        else
          let text ← skipColon text
          let (set, text) ← field.decoder.read text
          readMembers record extra fuel false (key :: seen) (set value) others text
      | none =>
        let text ← skipColon text
        let (others, text) ← extra others key text
        readMembers record extra fuel false seen value others text

/-- Refuses a record that lacks a required field. -/
def checkMissing (record : Record ρ) (seen : List String) : Except String Unit :=
  match record.missing? seen with
  | some name => .error (missingField name)
  | none => .ok ()

/-- Where reading stands after the end of an array was looked for. -/
def closeArray (text : List Char) : List Char :=
  match skipBlanks text with
  | ']' :: rest => rest
  | ',' :: rest => skipBlanks rest
  | other => other

/-- Where reading stands after the end of an object was looked for. -/
def closeObject (text : List Char) : List Char :=
  match skipBlanks text with
  | '\x7d' :: rest => rest
  | other => other

/-- Settles the place of a wrong shape after looking for the end of its container. -/
def settle {α : Type} (close : List Char → List Char) (result : Except Failure α) : Except Failure α :=
  result.mapError fun failure =>
    if failure.settled then failure
    else { failure with rest := close failure.rest, settled := true }

/-- Turns words for a wrong shape into a failure whose place is not settled yet. -/
def orUnsettled {α : Type} (result : Except String α) (rest : List Char) : Except Failure α :=
  match result with
  | .ok value => .ok value
  | .error message => Failure.unsettled message rest

/-- Takes the members of an object into the fields; any other key is passed over. -/
def takeMembers (record : Record ρ) (members : Members) : Except String ρ := do
  let step (state : ρ × List String) (member : String × Json) : Except String (ρ × List String) :=
    match record.field? member.1 with
    | none => .ok state
    | some field =>
      if state.2.contains member.1 then .error (duplicateField member.1)
      else (field.decoder.take member.2).map fun set => (set state.1, member.1 :: state.2)
  let (value, seen) ← members.foldlM step (record.start, [])
  record.checkMissing seen
  return value

/-- Takes the elements of an array into the fields in order. -/
def takeElements (record : Record ρ) (count : Nat) : (index : Nat) → List (Field ρ) → List Json → ρ →
    Except String ρ
  | _, [], [], value => .ok value
  | _, [], _ :: _, _ => .error (wrongLength count "fewer elements in array")
  | index, field :: fields, [], value =>
    if field.required then .error (wrongLength index record.expectedElements)
    else takeElements record count (index + 1) fields [] value
  | index, field :: fields, element :: rest, value => do
    let set ← field.decoder.take element
    takeElements record count (index + 1) fields rest (set value)

/-- Reads a record from an object, or from an array that holds the fields in order. -/
def decoder (record : Record ρ) : Decoder ρ where
  read text :=
    match skipBlanks text with
    | [] => Failure.here .endInValue []
    | '[' :: rest => do
      let (value, rest) ← settle closeArray (record.readFields 0 record.fields record.start rest)
      let rest ← endArray rest
      .ok (value, rest)
    | '\x7b' :: rest => do
      let (value, rest) ← settle closeObject do
        let ((value, _, seen), rest) ← record.readMembers
          (fun _ _ text => (skipValue text).map fun rest => ((), rest)) (rest.length + 1) true []
          record.start () rest
        orUnsettled (record.checkMissing seen) rest
        .ok (value, rest)
      let rest ← endObject rest
      .ok (value, rest)
    | other => readWrongType record.expected other
  take
    | .object members => record.takeMembers members
    | .array elements => record.takeElements elements.length 0 record.fields elements record.start
    | other => .error (wrongType other record.expected)

/-- Reads two records from the members of one object: the outer takes its fields, and all others are
offered to the inner. A fault in a field of the inner shows only after the whole object was read. -/
def flattened (outer : Record ρ) (inner : Record σ) : Decoder (ρ × σ) where
  read text :=
    match skipBlanks text with
    | [] => Failure.here .endInValue []
    | '\x7b' :: rest => do
      let collect (others : Members) (key : String) : Reader Members := fun text => do
        let (value, text) ← readValue (fun members key value => members ++ [(key, value)])
          (text.length + 1) (depthLimit - 1) text
        .ok (others ++ [(key, value)], text)
      let (value, rest) ← settle closeObject do
        let ((value, others, seen), rest) ←
          outer.readMembers collect (rest.length + 1) true [] outer.start [] rest
        orUnsettled (outer.checkMissing seen) rest
        let within ← orUnsettled (inner.takeMembers others) rest
        .ok ((value, within), rest)
      let rest ← endObject rest
      .ok (value, rest)
    | other => readWrongType outer.expected other
  take
    | .object members => do
      let value ← outer.takeMembers members
      let within ← inner.takeMembers (members.filter fun member => (outer.field? member.1).isNone)
      .ok (value, within)
    | other => .error (wrongType other outer.expected)

end Record

/-- Reads a whole text with a decoder. -/
def Decoder.parse {α : Type} (decoder : Decoder α) (text : String) : Except SyntaxError α :=
  readAll decoder.read text.toList

end Minifier.Json
