import Minifier.Rule.Basic

/-!
The rules for blanks that the languages share. In these rules a line ends at a line feed, and a
carriage return counts as a blank before it.
-/

namespace Minifier.Spacing

open Pattern

/-- Every run of blanks becomes one space. -/
def collapseWhitespace : Rule := .put "collapse-whitespace" (run1 Text.isBlank) ' '

/-- Every run of spaces, tabs and form feeds becomes one space. -/
def collapseHorizontal : Rule :=
  .put "collapse-horizontal" (run1 (Class.among [' ', '\t', '\x0c'])) ' '

/-- Spaces, tabs and carriage returns at the end of a line. -/
def lineTail : Pattern := run1 (Class.among [' ', '\t', '\r']) ++ lineEnd

/-- Blanks go from both ends of every line. -/
def trimLines : Rule :=
  .drop "trim-lines" ((lineStart ++ run1 Class.spaceTab) <|> lineTail)

/-- Blanks go from the end of every line. -/
def trailingSpace : Rule := .drop "trailing-space" lineTail

/-- Two or more spaces and tabs after something else on the line become one space. -/
def innerSpaces : Rule where
  name := "inner-spaces"
  pattern :=
    part 1 (one (Class.except [' ', '\t', '\n'])) ++ one Class.spaceTab ++ run1 Class.spaceTab
  replace m := m.part 1 ++ [' ']

/-- Lines that hold only spaces and tabs go. -/
def emptyLines : Rule :=
  .drop "empty-lines"
    (lineStart ++ run Class.spaceTab ++ optional (char '\r') ++ char '\n')

/-- Blanks go from both ends of the text. -/
def trimEnds : Rule :=
  .drop "trim" ((textStart ++ run1 Text.isBlank) <|> (run1 Text.isBlank ++ textEnd))

/-- The shared rules, for looking them up by name. -/
def all : List Rule :=
  [collapseWhitespace, collapseHorizontal, trimLines, trailingSpace, innerSpaces, emptyLines, trimEnds]

/-- The shared rules for blanks: collapse them, within lines only if line breaks are kept, and drop
empty lines. -/
def pipeline (removeWhitespace preserveLineBreaks removeEmptyLines : Bool) : Pipeline :=
  Pipeline.onlyIf removeWhitespace
    (if preserveLineBreaks then [collapseHorizontal, trimLines] else [collapseWhitespace]) ++
  Pipeline.onlyIf removeEmptyLines [emptyLines]

end Minifier.Spacing
