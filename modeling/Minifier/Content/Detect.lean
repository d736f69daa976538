import Minifier.Files.Path
import Minifier.Json.Parser
import Minifier.Pattern.Match
import Minifier.Masking
import Minifier.Text.LowerCase

/-!
Guessing the language of a content. The languages are tried in a fixed order, and the first whose
marks show is taken; a content without any marks counts as JavaScript.
-/

namespace Minifier.Detect

open Pattern

/-! ### Marks of markup and data -/

/-- The end of an HTML document. -/
def htmlEnd : Pattern := wordAnyCase "</html" ++ run Text.isBlank ++ char '>'

/-- The name of an element. -/
def elementName : Pattern :=
  one (fun c => Class.letter c || c == '_') ++
    run (fun c => Text.isWord c || c == ':' || c == '.' || c == '-')

def attributes : Pattern := optional (one Text.isBlank ++ run (Class.except ['>']))

/-- An opening tag at the beginning, its name being the first part. -/
def openingElement : Pattern :=
  textStart ++ char '<' ++ part 1 elementName ++ attributes ++ char '>'

/-- A closing tag at the end, its name being the first part. -/
def closingElement : Pattern :=
  word "</" ++ part 1 elementName ++ run Text.isBlank ++ char '>' ++ textEnd

/-- One tag without a body. -/
def emptyElement : Pattern :=
  textStart ++ char '<' ++ elementName ++ attributes ++ word "/>" ++ textEnd

/-- Whether a text begins like one element and ends like it. -/
def isSingleElement (text : List Char) : Bool :=
  emptyElement.occursIn text ||
    match openingElement.find? text, closingElement.find? text with
    | some opening, some closing => opening.part 1 == closing.part 1
    | _, _ => false

/-- Whether a text is JSON in braces or brackets. -/
def isJson (text : List Char) : Bool :=
  let first := text.head?
  let last := text.getLast?
  ((first == some '\x7b' && last == some '\x7d') || (first == some '[' && last == some ']')) &&
    (Json.parseChars text).isOk

/-! ### Marks of a stylesheet -/

/-- An at-rule at the beginning of a line. -/
def atRule : Pattern :=
  lineStart ++ run Text.isBlank ++ char '@' ++
    words ["media", "import", "charset", "keyframes", "font-face", "supports"] ++ wordEdge

/-- What stands before a brace, the first part, and what stands after it. -/
def block : Pattern :=
  part 1 (run (Class.except ['\x7b', '\x7d', ';'])) ++ char '\x7b' ++
    part 2 (run (Class.except ['\x7b', '\x7d']))

/-- Text in square or round brackets. -/
def bracketed : Pattern :=
  (char '[' ++ run (Class.except [']']) ++ char ']') <|>
    (char '(' ++ run (Class.except [')']) ++ char ')')

/-- Whether a character can stand in a selector outside brackets. -/
def isSelectorChar (c : Char) : Bool :=
  Text.isWord c || Text.isBlank c || ['-', '.', '#', '*', ':', '>', '+', '~', ',', '%'].contains c

/-- A property, a colon and the beginning of a value. -/
def declaration : Pattern :=
  (textStart <|> one fun c => c == ';' || Text.isBlank c) ++ optional (char '-') ++ one Class.letter ++
    run (fun c => Text.isWord c || c == '-') ++ run Text.isBlank ++ char ':' ++ run Text.isBlank ++
    one fun c => !Text.isBlank c && Class.except [':', '=', ';', '\x7b', '\x7d'] c

/-- Words that begin a block of code and never a selector. -/
def codeWords : List String :=
  ["class", "interface", "type", "enum", "function", "const", "let", "var", "if", "else",
   "for", "while", "switch", "return", "export", "import", "def", "fn", "func", "struct"]

/-- Whether a text can be a selector. -/
def isSelector (selector : List Char) : Bool :=
  let firstWord := selector.takeWhile fun c => !(Text.isBlank c || c == '(')
  let bare := bracketed.replaceAll (fun _ => []) selector
  selector != [] && !codeWords.contains (String.ofList firstWord) && bare != [] &&
    bare.all isSelectorChar

/-- Whether a text holds an at-rule, or a selector with a declaration in its block. -/
def isStyle (text : List Char) : Bool :=
  atRule.occursIn text ||
    let uncommented := Lexer.blockComment.replaceAll (fun _ => [' ']) text
    (block.allMatches uncommented).any fun found =>
      let selector := Text.trim ((Text.lines (found.part 1)).getLast?.getD [])
      isSelector selector && declaration.occursIn (found.part 2)

/-! ### Marks of code -/

def scriptName : Pattern := one Class.nameStart ++ run Class.namePart

def typeParameters : Pattern := optional (char '<' ++ run (Class.except ['>']) ++ char '>')

/-- A construct that only TypeScript has. -/
def typeScriptMark : Pattern :=
  choice
    [wordEdge ++ word "interface" ++ run1 Text.isBlank ++ scriptName ++ run Text.isBlank ++
        typeParameters ++ run Text.isBlank ++
        optional (word "extends" ++ wordEdge ++ run (Class.except ['\x7b'])) ++ char '\x7b',
     wordEdge ++ word "type" ++ run1 Text.isBlank ++ scriptName ++ run Text.isBlank ++ typeParameters ++
        run Text.isBlank ++ char '=',
     wordEdge ++ word "enum" ++ run1 Text.isBlank ++ scriptName ++ run Text.isBlank ++ char '\x7b',
     one (fun c => Text.isWord c || c == '$' || c == ')' || c == ']') ++ run Text.isBlank ++
        optional (char '?') ++ char ':' ++ run Text.isBlank ++
        words ["string", "number", "boolean", "any", "void", "unknown", "never", "Record<", "Array<",
          "Promise<"],
     wordEdge ++ word "as" ++ run1 Text.isBlank ++ word "const" ++ wordEdge]

/-- A declaration or an arrow function. -/
def scriptMark : Pattern :=
  (wordEdge ++ words ["function", "const", "let", "var"] ++ wordEdge) <|> word "=>"

/-- A definition, an import or a class at the beginning of a line, or the test for the main module. -/
def pythonMark : Pattern :=
  let blanks := run1 Text.isBlank
  let statement :=
    choice
      [word "def" ++ blanks ++ run1 Text.isWord ++ run Text.isBlank ++ char '(',
       word "import" ++ blanks ++ one Text.isWord,
       word "from" ++ blanks ++ run1 (fun c => Text.isWord c || c == '.') ++ blanks ++ word "import" ++
         wordEdge,
       word "class" ++ blanks ++ run1 Text.isWord ++ run (Class.except ['\x7b', '\n']) ++ char ':' ++
         run Text.isBlank ++ lineEnd]
  let quote := oneOf ['\'', '"']
  (lineStart ++ run Text.isBlank ++ statement) <|>
    (word "__name__" ++ run Text.isBlank ++ word "==" ++ run Text.isBlank ++ quote ++ word "__main__" ++
      quote)

/-! ### The guess -/

/-- How many characters at the beginning are looked at for the opening of a document. -/
def headLength : Nat := 64

/-- Guesses the language of a content. -/
def language (content : String) : Language :=
  let text := Text.trim content.toList
  let head := Text.lowerAfter [] (text.take headLength)
  let opens (start : String) : Bool := start.toList.isPrefixOf head
  if opens "<!doctype html" || opens "<html" || htmlEnd.occursIn text then .html
  else if isJson text then .json
  else if opens "<?xml" || isSingleElement text then .xml
  else if isStyle text then .css
  else if typeScriptMark.occursIn text then .typescript
  else if scriptMark.occursIn text then .javascript
  else if Text.contains "<?php".toList text then .php
  else if pythonMark.occursIn text then .python
  else .javascript

/-- The language of a file by its extension, or else by its content. -/
def languageOfFile (path content : String) : Language :=
  (Language.ofPath? path).getD (language content)

end Minifier.Detect
