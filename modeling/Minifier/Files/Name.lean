import Minifier.Files.Path

/-!
Names for minified files. Names are taken apart at slashes of either kind here, since they may come
from a list that another system wrote.
-/

namespace Minifier.FileName

/-- Whether a character sets off directories. -/
def isSeparator (c : Char) : Bool := c == '/' || c == '\\'

/-- A file name's directory, up to its last separator, and its base name. -/
def split (name : List Char) : List Char × List Char :=
  let base := (name.reverse.takeWhile fun c => !isSeparator c).reverse
  (name.take (name.length - base.length), base)

/-- What follows the last dot of the base name, in lower case; empty if there is no such dot or the base
name begins with it. -/
def extension (name : String) : String :=
  match Path.splitExtension? (split name.toList).2 with
  | some (_, ending) => Text.toLower (String.ofList ending)
  | none => ""

/-- The name of a file's minified copy: a mark stands before the extension, or at the end if there is no
extension. -/
def minified (name : String) : String :=
  let (directory, base) := split name.toList
  match Path.splitExtension? base with
  | some (stem, ending) =>
    String.ofList (directory ++ stem ++ ['.', 'm', 'i', 'n', '.'] ++ ending)
  | none => name ++ ".min"

/-- Where a file goes that a batch script minifies: into a directory under its base name, or beside
itself. -/
def inBatch (name : String) (directory : Option String) : String :=
  match directory with
  | none => minified name
  | some directory =>
    String.ofList (Text.dropTail isSeparator directory.toList ++ '/' :: (split name.toList).2)

/-- Whether a path leads to a file to minify: its extension is known, and it is not marked as minified
already. -/
def isSource (path : String) : Bool :=
  let marked :=
    match Path.fileName? path with
    | some name => Text.contains ['.', 'm', 'i', 'n', '.'] name.toList
    | none => false
  !marked && (Language.ofPath? path).isSome

end Minifier.FileName
