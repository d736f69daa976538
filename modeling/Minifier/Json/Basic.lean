import Minifier.Number.Binary64

/-!
JSON values. An object keeps its members in order and holds each key once; a number keeps apart what
was written as an integer that fits a machine word and what was not.
-/

namespace Minifier

namespace Json

/-- A number as it was read. -/
inductive Number where
  /-- A non-negative integer below `2 ^ 64`. -/
  | natural (n : Nat) : Number
  /-- The negation of a positive integer up to `2 ^ 63`. -/
  | negative (n : Nat) : Number
  /-- Any other number, with its sign and its size. -/
  | real (isNegative : Bool) (size : Binary64) : Number
  deriving DecidableEq, Repr

end Json

/-- A JSON value. -/
inductive Json where
  | null : Json
  | bool (value : Bool) : Json
  | number (value : Json.Number) : Json
  | string (value : String) : Json
  | array (elements : List Json) : Json
  | object (members : List (String × Json)) : Json
  deriving Repr, Inhabited

namespace Json

/-- Members of an object in order. -/
abbrev Members := List (String × Json)

namespace Members

/-- Sets a key. A key that is there already keeps its place and gets the new value. -/
def put (members : Members) (key : String) (value : Json) : Members :=
  if members.any fun member => member.1 == key then
    members.map fun member => if member.1 == key then (key, value) else member
  else members ++ [(key, value)]

def get? (members : Members) (key : String) : Option Json := members.lookup key

end Members

/-- The member of an object with a given key; nothing if there is none, or if the value is no object. -/
def member? (value : Json) (key : String) : Option Json :=
  match value with
  | .object members => Members.get? members key
  | _ => none

/-- The text of a string. -/
def text? : Json → Option String
  | .string value => some value
  | _ => none

def ofNat (n : Nat) : Json := .number (.natural n)

/-- An integer that fits a machine word. -/
def ofInt (n : Int) : Json := if 0 ≤ n then ofNat n.toNat else .number (.negative n.natAbs)

def strings (texts : List String) : Json := .array (texts.map .string)

end Json

end Minifier
