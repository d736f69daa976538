import Minifier.Options
import Minifier.Masking
import Minifier.Rule.Spacing

/-!
Minifying markup. Attribute values pass through untouched, and so do the bodies of elements whose
blanks count, or in XML the sections of character data.
-/

namespace Minifier.Markup

open Pattern

/-! ### Literals and comments -/

/-- Text between two quotes, line breaks included. -/
def quotedBy (quote : Char) : Pattern := char quote ++ run (Class.except [quote]) ++ char quote

/-- An equals sign and the quoted value after it, which is the literal. -/
def attributeValue : Pattern :=
  char '=' ++ run Text.isBlank ++ label .literal (quotedBy '"' <|> quotedBy '\'')

/-- An element whose body is the literal, from its opening tag to the first closing tag of its name. -/
def verbatim (tag : String) : Pattern :=
  char '<' ++ wordAnyCase tag ++ wordEdge ++ run (Class.except ['>']) ++ char '>' ++
    label .literal (shortRun Class.any) ++ word "</" ++ wordAnyCase tag ++ run Text.isBlank ++ char '>'

/-- The elements whose bodies pass through untouched. -/
def verbatimTags : List String := ["pre", "textarea", "script", "style"]

/-- A comment that asks for a browser by a condition carries behaviour and stays; any other goes
without a trace. -/
def stripUnconditional (comment : List Char) (_ : Nat) : Option (List Char) :=
  if "<!--[if".toList.isPrefixOf comment then none else some []

/-- The comments and literals of an HTML document. -/
def htmlLexer : Lexer where
  pattern := label .comment Lexer.markupComment <|> choice (verbatimTags.map verbatim) <|> attributeValue
  strip := stripUnconditional

/-- A section of character data. -/
def characterData : Pattern := Lexer.enclosed "<![CDATA[" "]]>"

/-- The comments and literals of an XML document. -/
def xmlLexer : Lexer where
  pattern := label .comment Lexer.markupComment <|> characterData <|> attributeValue
  strip _ _ := some []

/-! ### Rules -/

/-- Blanks between two tags go. -/
def interTag : Rule where
  name := "inter-tag"
  pattern := char '>' ++ run1 Text.isBlank ++ char '<'
  replace _ := ['>', '<']

/-- Spaces and tabs between two tags go. -/
def interTagInline : Rule where
  name := "inter-tag-inline"
  pattern := char '>' ++ run1 Class.spaceTab ++ char '<'
  replace _ := ['>', '<']

/-- Blanks before the end of a tag go. -/
def tagCloseSpace : Rule :=
  .keepPart "tag-close-space"
    (run1 (Class.among [' ', '\t', '\n']) ++ part 1 (optional (char '/') ++ char '>'))

/-- The rules for a document whose comments are gone already. -/
def pipeline (options : Options) : Pipeline :=
  Pipeline.onlyIf options.removeWhitespace
    (if options.preserveLineBreaks then
      Pipeline.onlyIf options.tightens [interTagInline] ++
        [Spacing.collapseHorizontal, Spacing.trimLines]
    else
      Pipeline.onlyIf options.tightens [interTag] ++ [Spacing.collapseWhitespace] ++
        Pipeline.onlyIf options.tightens [tagCloseSpace]) ++
  Pipeline.onlyIf options.removeEmptyLines [Spacing.emptyLines] ++
  [Spacing.trimEnds]

/-! ### Redundant attributes -/

/-- An opening tag with something after its name. -/
def openingTag : Pattern :=
  char '<' ++ one Class.letter ++ run (fun c => Text.isWord c || c == ':' || c == '-') ++
    one Text.isBlank ++ run (Class.except ['<', '>']) ++ char '>'

/-- The usual type of a script or stylesheet. -/
def redundantType : Pattern :=
  let value := wordAnyCase "text/" ++ wordsAnyCase ["javascript", "css"]
  run1 Text.isBlank ++ wordAnyCase "type" ++ run Text.isBlank ++ char '=' ++ run Text.isBlank ++
    ((char '"' ++ value ++ char '"') <|> (char '\'' ++ value ++ char '\''))

/-- Attributes that mean the same with and without a value. -/
def booleanNames : List String :=
  ["checked", "disabled", "selected", "readonly", "multiple", "hidden", "required", "autofocus",
   "async", "defer"]

/-- Such an attribute with a value that says nothing. -/
def booleanAttribute : Pattern :=
  let name := wordsAnyCase booleanNames
  wordEdge ++ part 1 name ++ run Text.isBlank ++ char '=' ++ run Text.isBlank ++
    (word "\"\"" <|> word "''" <|> (char '"' ++ name ++ char '"') <|> (char '\'' ++ name ++ char '\''))

/-- Attributes go whose presence or value is implied. -/
def redundantAttributes : Rule where
  name := "redundant-attributes"
  pattern := openingTag
  replace tag :=
    booleanAttribute.replaceAll (fun m => m.part 1) (redundantType.replaceAll (fun _ => []) tag.text)

/-- Drops redundant attributes from the opening tags of a masked text. A tag gets its values back first;
the bodies that stay placeholders keep the tags in them. -/
def dropRedundantAttributes (masked : MaskedText) (text : List Char) : List Char :=
  openingTag.replaceAll (fun tag => redundantAttributes.apply (masked.unmask tag.text)) text

/-! ### Minifying -/

/-- Minifies an HTML document or fragment. -/
def minifyHtml (text : List Char) (options : Options) : Except Unsafe (List Char) := do
  let lexed ← MaskedText.mask htmlLexer options.removeComments text
  let masked := lexed.maskAlso attributeValue
  let edited := (pipeline options).run masked.text
  return masked.unmask
    (if options.isAggressive then dropRedundantAttributes masked edited else edited)

/-- Minifies an XML document. -/
def minifyXml (text : List Char) (options : Options) : Except Unsafe (List Char) := do
  let masked ← MaskedText.mask xmlLexer options.removeComments text
  return masked.unmask ((pipeline options).run masked.text)

end Minifier.Markup
