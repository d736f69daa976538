import Mathlib.Algebra.Group.Int.Defs
import Mathlib.Data.List.Induction
import Mathlib.Data.List.Nodup
import Minifier.Json.Parser
import Minifier.Proofs.Entries

/-!
The texts of JSON whose numbers are integers that fit a machine word. A source is a value as it stands in
a text, with its blanks, its escapes and its repeated keys, and every text of that kind is the text of
a source. What a source means is said here without reading its text.
-/

namespace Minifier.Json

/-! ### Strings as they stand -/

/-- A hexadecimal digit, in either case. -/
structure HexDigit where
  value : Fin 16
  isUpper : Bool
  deriving DecidableEq, Repr

def HexDigit.char (digit : HexDigit) : Char :=
  if digit.value.val < 10 then Char.ofNat (48 + digit.value)
  else if digit.isUpper then Char.ofNat (55 + digit.value)
  else Char.ofNat (87 + digit.value)

def HexDigit.zero : HexDigit := ⟨⟨0, by decide⟩, false⟩

/-- What may stand after a backslash for a single character. -/
inductive Letter where
  | quote | backslash | slash | backspace | formFeed | lineFeed | carriageReturn | tab
  deriving DecidableEq, Repr

def Letter.char : Letter → Char
  | quote => '"'
  | backslash => '\\'
  | slash => '/'
  | backspace => 'b'
  | formFeed => 'f'
  | lineFeed => 'n'
  | carriageReturn => 'r'
  | tab => 't'

/-- The character that is meant. -/
def Letter.meaning : Letter → Char
  | quote => '"'
  | backslash => '\\'
  | slash => '/'
  | backspace => '\x08'
  | formFeed => '\x0c'
  | lineFeed => '\n'
  | carriageReturn => '\r'
  | tab => '\t'

/-- An item of a string: a character as it is, a letter after a backslash, or a code unit of UTF-16 in
hexadecimal. -/
inductive Item where
  | plain (c : Char) (allowed : c ≠ '"' ∧ c ≠ '\\' ∧ 32 ≤ c.toNat)
  | escape (letter : Letter)
  | unit (a b c d : HexDigit)

def Item.text : Item → List Char
  | plain c _ => [c]
  | escape letter => ['\\', letter.char]
  | unit a b c d => ['\\', 'u', a.char, b.char, c.char, d.char]

/-- The number of a code unit. -/
def codeUnit (a b c d : HexDigit) : Nat :=
  ((a.value * 16 + b.value) * 16 + c.value) * 16 + d.value

/-- Whether a code unit is the first half of a surrogate pair. -/
def isHighUnit (unit : Nat) : Prop := 0xD800 ≤ unit ∧ unit ≤ 0xDBFF

/-- Whether a code unit is the second half of a surrogate pair. -/
def isLowUnit (unit : Nat) : Prop := 0xDC00 ≤ unit ∧ unit ≤ 0xDFFF

instance (unit : Nat) : Decidable (isHighUnit unit) := inferInstanceAs (Decidable (_ ∧ _))

instance (unit : Nat) : Decidable (isLowUnit unit) := inferInstanceAs (Decidable (_ ∧ _))

/-- The character that two surrogates are. -/
def pairedChar (high low : Nat) : Char := Char.ofNat ((high - 0xD800) * 0x400 + (low - 0xDC00) + 0x10000)

/-- The characters of a string. Half a surrogate pair is none. -/
def Item.chars? : List Item → Option (List Char)
  | [] => some []
  | .plain c _ :: rest => (chars? rest).map (c :: ·)
  | .escape letter :: rest => (chars? rest).map (letter.meaning :: ·)
  | .unit a b c d :: rest =>
    if isLowUnit (codeUnit a b c d) then none
    else if isHighUnit (codeUnit a b c d) then
      match rest with
      | .unit a' b' c' d' :: rest =>
        if isLowUnit (codeUnit a' b' c' d') then
          (chars? rest).map (pairedChar (codeUnit a b c d) (codeUnit a' b' c' d') :: ·)
        else none
      | _ => none
    else (chars? rest).map (Char.ofNat (codeUnit a b c d) :: ·)

theorem Item.chars?_unit (a b c d : HexDigit) (rest : List Item) :
    Item.chars? (.unit a b c d :: rest) =
      if isLowUnit (codeUnit a b c d) then none
      else if isHighUnit (codeUnit a b c d) then
        match rest with
        | .unit a' b' c' d' :: rest =>
          if isLowUnit (codeUnit a' b' c' d') then
            (chars? rest).map (pairedChar (codeUnit a b c d) (codeUnit a' b' c' d') :: ·)
          else none
        | _ => none
      else (chars? rest).map (Char.ofNat (codeUnit a b c d) :: ·) := by
  rw [Item.chars?.eq_def]

/-- A string between its quotes. -/
def Item.quoted (items : List Item) : List Char := '"' :: (items.flatMap text ++ ['"'])

/-- What a string says, if its surrogates are paired. -/
def Item.string? (items : List Item) : Option String := (chars? items).map String.ofList

/-! ### Values as they stand -/

/-- Blanks between two parts of a text. -/
structure Blanks where
  chars : List Char
  blank : ∀ c ∈ chars, c = ' ' ∨ c = '\t' ∨ c = '\n' ∨ c = '\r'

mutual

/-- A value as it stands in a text. -/
inductive Source where
  | null
  | bool (value : Bool)
  /-- An integer that fits a machine word, with a sign or without. -/
  | integer (n : Int) (fits : -2 ^ 63 ≤ n ∧ n < 2 ^ 64)
  | string (items : List Item)
  | array (inner : Blanks) (elements : Elements)
  | object (inner : Blanks) (fields : Fields)

/-- Elements of an array with the blanks around each. -/
inductive Elements where
  | none
  | more (before : Blanks) (element : Source) (after : Blanks) (rest : Elements)

/-- Members of an object with the blanks around each, around its colon and its key. -/
inductive Fields where
  | none
  | more (before : Blanks) (key : List Item) (beforeColon afterColon : Blanks) (value : Source)
      (after : Blanks) (rest : Fields)

end

mutual

/-- The text of a value. -/
def Source.text : Source → List Char
  | .null => ['n', 'u', 'l', 'l']
  | .bool true => ['t', 'r', 'u', 'e']
  | .bool false => ['f', 'a', 'l', 's', 'e']
  | .integer n _ => (if n < 0 then ['-'] else []) ++ Nat.toDigits 10 n.natAbs
  | .string items => Item.quoted items
  | .array inner elements => '[' :: (inner.chars ++ elements.text true ++ [']'])
  | .object inner fields => '\x7b' :: (inner.chars ++ fields.text true ++ ['\x7d'])

/-- The text of elements. A comma stands before each that is not the first. -/
def Elements.text : (first : Bool) → Elements → List Char
  | _, .none => []
  | first, .more before element after rest =>
    (if first then [] else [',']) ++ before.chars ++ element.text ++ after.chars ++ rest.text false

/-- The text of members. A comma stands before each that is not the first. -/
def Fields.text : (first : Bool) → Fields → List Char
  | _, .none => []
  | first, .more before key beforeColon afterColon value after rest =>
    (if first then [] else [',']) ++ before.chars ++ Item.quoted key ++ beforeColon.chars ++ [':'] ++
      afterColon.chars ++ value.text ++ after.chars ++ rest.text false

end

mutual

/-- How many arrays and objects are open at once, at most. -/
def Source.depth : Source → Nat
  | .null | .bool _ | .integer _ _ | .string _ => 0
  | .array _ elements => elements.depth + 1
  | .object _ fields => fields.depth + 1

def Elements.depth : Elements → Nat
  | .none => 0
  | .more _ element _ rest => max element.depth rest.depth

def Fields.depth : Fields → Nat
  | .none => 0
  | .more _ _ _ _ value _ rest => max value.depth rest.depth

end

/-! ### What is meant -/

/-- The members that an object has when these are given: each key where it is given first, with the value
that is given last. -/
def Members.settle (given : Members) : Members :=
  (given.map Prod.fst).eraseDups.map fun key => (key, (given.reverse.lookup key).getD .null)

mutual

/-- The value that is meant, if all surrogates are paired. -/
def Source.value? : Source → Option Json
  | .null => some .null
  | .bool value => some (.bool value)
  | .integer n _ => some (ofInt n)
  | .string items => (Item.string? items).map .string
  | .array _ elements => elements.values?.map .array
  | .object _ fields => fields.given?.map fun given => .object (Members.settle given)

def Elements.values? : Elements → Option (List Json)
  | .none => some []
  | .more _ element _ rest => do return (← element.value?) :: (← rest.values?)

/-- The members of an object as they are given. -/
def Fields.given? : Fields → Option Members
  | .none => some []
  | .more _ key _ _ value _ rest => do
    return (← Item.string? key, ← value.value?) :: (← rest.given?)

end

end Minifier.Json

/-!
## Members of objects

Setting keys one after another settles them: each key stands where it was set first, with
the value that was set last. Keys that differ are settled already.
-/

namespace Minifier.Json.Members

theorem map_fst_settle (given : Members) : (settle given).map Prod.fst = (given.map Prod.fst).eraseDups := by
  simp [settle, Function.comp_def]

/-- A member that is settled on was given. -/
theorem mem_of_mem_settle {given : Members} {member : String × Json} (h : member ∈ settle given) :
    member ∈ given := by
  obtain ⟨key, hkey, rfl⟩ := List.mem_map.mp h
  rw [List.mem_eraseDups] at hkey
  obtain ⟨⟨key, value⟩, hmem, rfl⟩ := List.mem_map.mp hkey
  cases hvalue : given.reverse.lookup key with
  | none =>
    have hne := List.lookup_eq_none_iff.mp hvalue (key, value) (List.mem_reverse.mpr hmem)
    simp at hne
  | some last =>
    obtain ⟨before, after, hsplit, -⟩ := List.lookup_eq_some_iff.mp hvalue
    rw [← List.mem_reverse, hsplit]
    simp

/-- One more member is given: its value counts, and its place if its key is new. -/
theorem settle_append_singleton (given : Members) (key : String) (value : Json) :
    settle (given ++ [(key, value)]) = put (settle given) key value := by
  have hany : ((settle given).any fun member => member.1 == key) = true ↔ key ∈ given.map Prod.fst := by
    rw [← List.mem_eraseDups, ← map_fst_settle]
    simp
  have hold : ∀ other, other ≠ key →
      ((given ++ [(key, value)]).reverse.lookup other).getD .null = (given.reverse.lookup other).getD .null := by
    intro other hne
    rw [List.reverse_append, List.reverse_singleton, List.singleton_append, List.lookup_cons,
      beq_false_of_ne hne]
  have hnew : ((given ++ [(key, value)]).reverse.lookup key).getD .null = value := by
    rw [List.reverse_append, List.reverse_singleton, List.singleton_append, List.lookup_cons_self]
    rfl
  rw [settle, List.map_append, List.eraseDups_append, List.map_append, put]
  by_cases hkey : key ∈ given.map Prod.fst
  -- A key that is there already keeps its place.
  · have hnone : (([(key, value)] : Members).map Prod.fst).removeAll (given.map Prod.fst) = [] := by
      rw [List.map_singleton, List.cons_removeAll, List.contains_iff_mem.mpr hkey]
      rfl
    rw [hnone, if_pos (hany.mpr hkey), settle, List.map_map, List.eraseDups_nil, List.map_nil, List.append_nil]
    refine List.map_congr_left fun other _ => ?_
    by_cases hother : other = key
    · rw [hother, hnew]
      simp
    · rw [hold other hother]
      simp [hother]
  -- A new key comes last.
  · have hone : (([(key, value)] : Members).map Prod.fst).removeAll (given.map Prod.fst) = [key] := by
      rw [List.map_singleton, List.cons_removeAll, if_pos (by simpa using hkey)]
      rfl
    rw [hone, if_neg (mt hany.mp hkey), settle]
    congr 1
    · refine List.map_congr_left fun other hother => ?_
      have hne : other ≠ key := by
        rintro rfl
        exact hkey (List.mem_eraseDups.mp hother)
      rw [hold other hne]
    · rw [List.eraseDups_cons, List.filter_nil, List.eraseDups_nil, List.map_singleton, hnew]

/-- Setting keys one after another settles them. -/
theorem foldl_put (given : Members) :
    given.foldl (fun members member => put members member.1 member.2) [] = settle given := by
  induction given using List.reverseRecOn with
  | nil => rfl
  | append_singleton given member ih =>
    rw [List.foldl_append, ih, settle_append_singleton]
    rfl

/-- Members whose keys differ are as they are given. -/
theorem settle_eq_self {given : Members} (h : (given.map Prod.fst).Nodup) : settle given = given := by
  induction given using List.reverseRecOn with
  | nil => rfl
  | append_singleton given member ih =>
    obtain ⟨key, value⟩ := member
    rw [List.map_append, List.nodup_append] at h
    have hnew : ¬ (given.any fun member => member.1 == key) = true := by
      intro hany
      obtain ⟨member, hmember, hkey⟩ := List.any_eq_true.mp hany
      exact h.2.2 member.1 (List.mem_map_of_mem hmember) key (by simp) (eq_of_beq hkey)
    rw [settle_append_singleton, ih h.1, put, if_neg hnew]

/-- Settled members stay as they are. -/
theorem settle_settle (given : Members) : settle (settle given) = settle given :=
  settle_eq_self (by rw [map_fst_settle]; exact Entries.nodup_eraseDups _)

end Minifier.Json.Members
