import Minifier.Data
import Minifier.Error
import Minifier.Generic
import Minifier.Markup
import Minifier.Outcome
import Minifier.Script.Basic
import Minifier.Style

/-!
Minifying a text of any language. Nothing here fails: what goes wrong is recorded in the outcome, and
the text then comes back as it was.
-/

namespace Minifier

/-- Runs a transformation of a text behind one boundary. An empty text stays as it is, and an error is
recorded under a label. -/
def guarded (label : String) (content : String)
    (transform : List Char → Except Error (List Char × List String)) : Outcome :=
  if content.isEmpty then .unchanged content
  else
    match transform content.toList with
    | .ok (minified, warnings) => .ofTexts content (String.ofList minified) warnings
    | .error error => .failed content s!"{label} minification failed: {error.message}"

/-- An edit that has nothing to warn of. -/
def withoutWarnings (edited : Except Unsafe (List Char)) : Except Error (List Char × List String) :=
  (edited.mapError Error.ofUnsafe).map fun text => (text, [])

/-- Minifies JavaScript or TypeScript. -/
def minifyScript (content : String) (options : Options) : Outcome :=
  guarded "JavaScript" content fun text => (Script.minify text options).mapError Error.ofUnsafe

/-- Minifies a stylesheet. -/
def minifyStyle (content : String) (options : Options) : Outcome :=
  guarded "CSS" content fun text => withoutWarnings (Style.minify text options)

/-- Minifies an HTML document or fragment. -/
def minifyHtml (content : String) (options : Options) : Outcome :=
  guarded "HTML" content fun text => withoutWarnings (Markup.minifyHtml text options)

/-- Minifies an XML document. -/
def minifyXml (content : String) (options : Options) : Outcome :=
  guarded "XML" content fun text => withoutWarnings (Markup.minifyXml text options)

/-- Minifies JSON. -/
def minifyJson (content : String) : Outcome :=
  guarded "JSON" content fun text =>
    match Data.minify text with
    | .ok minified => .ok (minified, [])
    | .error error => .error (.ofSyntax error text)

/-- Minifies a text by the comments and line structure of its language. -/
def minifyGeneric (content : String) (language : Language) (options : Options) : Outcome :=
  guarded language.name content fun text => withoutWarnings (Generic.minify text language options)

/-- Minifies a text of any language. -/
def minify (content : String) (language : Language) (options : Options) : Outcome :=
  match language with
  | .html => minifyHtml content options
  | .css => minifyStyle content options
  | .javascript | .typescript => minifyScript content options
  | .json => minifyJson content
  | .xml => minifyXml content options
  | other => minifyGeneric content other options

end Minifier
