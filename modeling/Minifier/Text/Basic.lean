/-!
Plain operations on characters and on text as a list of characters: blanks, byte counts, trimming
and lines. Text is measured in bytes of its UTF-8 form wherever a size is reported, and in
characters wherever a place in it is meant.
-/

namespace Minifier.Text

/-- A character with the property White_Space. The zero-width space and the byte order mark have it not. -/
def isBlank (c : Char) : Bool :=
  let n := c.toNat
  (9 ≤ n && n ≤ 13) || n == 0x20 || n == 0x85 || n == 0xA0 || n == 0x1680 ||
    (0x2000 ≤ n && n ≤ 0x200A) || n == 0x2028 || n == 0x2029 || n == 0x202F || n == 0x205F ||
    n == 0x3000

/-- The five blanks of ASCII: space, tab, line feed, form feed and carriage return. -/
def isAsciiBlank (c : Char) : Bool :=
  c == ' ' || c == '\t' || c == '\n' || c == '\x0c' || c == '\r'

/-- How many bytes the UTF-8 form of a text has. -/
def byteSize (text : List Char) : Nat :=
  text.foldl (fun n c => n + c.utf8Size) 0

/-- Drops the longest tail whose characters all satisfy `p`. -/
def dropTail (p : Char → Bool) (text : List Char) : List Char :=
  (text.reverse.dropWhile p).reverse

/-- Drops blanks from both ends. -/
def trim (text : List Char) : List Char :=
  dropTail isBlank (text.dropWhile isBlank)

/-- Cuts a text at every character that satisfies `p`, dropping those characters. There is one piece
more than there are such characters. -/
def cutAt (p : Char → Bool) (text : List Char) : List (List Char) :=
  go text [] []
where
  /-- The pieces of what is left, given the reversed open piece and the reversed finished ones. -/
  go : List Char → List Char → List (List Char) → List (List Char)
    | [], piece, done => (piece.reverse :: done).reverse
    | c :: rest, piece, done =>
      if p c then go rest [] (piece.reverse :: done) else go rest (c :: piece) done

/-- Drops one carriage return from the end. -/
def dropReturn (line : List Char) : List Char :=
  if line.getLast? == some '\r' then line.dropLast else line

/-- The lines of a text. Each line feed ends a line and takes a carriage return before it along; after
the last line feed a line stands only if it is not empty, and it keeps its carriage return. -/
def lines (text : List Char) : List (List Char) :=
  match (cutAt (· == '\n') text).reverse with
  | [] => []
  | last :: ended =>
    let full := (ended.map dropReturn).reverse
    if last.isEmpty then full else full ++ [last]

def ofLines (lines : List String) : String := lines.foldl (fun text line => text ++ line ++ "\n") ""

/-- Whether `part` occurs in `text`. -/
def contains (part : List Char) : List Char → Bool
  | [] => part.isEmpty
  | c :: rest => part.isPrefixOf (c :: rest) || contains part rest

end Minifier.Text
