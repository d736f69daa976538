import Minifier.Text.Basic
import Minifier.Text.LowerCase

/-!
The languages that can be minified, with what sets them apart: their names and file extensions, how
their comments look, and how much of their line structure carries meaning.
-/

namespace Minifier

/-- A language that can be minified. -/
inductive Language where
  | html | css | javascript | typescript | json | xml | php | python | java | c | cpp | csharp | go
  | rust | swift | kotlin | dart | scala | ruby | perl | r | matlab | sql | shell | powershell
  deriving DecidableEq, Repr

/-- The shapes that comments take, for languages without a minifier of their own. -/
inductive CommentStyle where
  /-- Angle bracket, exclamation mark and two dashes. -/
  | markup : CommentStyle
  /-- A slash and a star, or two slashes. -/
  | cFamily : CommentStyle
  /-- A slash and a star, two slashes, or a hash sign. -/
  | php : CommentStyle
  /-- A hash sign. -/
  | hash : CommentStyle
  /-- A hash sign, or a hash sign in angle brackets. -/
  | powerShell : CommentStyle
  /-- Two dashes, or a slash and a star. -/
  | sql : CommentStyle
  /-- A percent sign, or one with braces. -/
  | matlab : CommentStyle
  /-- No comments. -/
  | none : CommentStyle
  deriving DecidableEq, Repr

/-- How much of the line structure carries meaning. -/
inductive LineRole where
  /-- A line break is a blank like any other. -/
  | freeForm : LineRole
  /-- A line break ends a statement. -/
  | lines : LineRole
  /-- Line breaks and the blanks at the start of a line both carry meaning. -/
  | indentation : LineRole
  deriving DecidableEq, Repr

namespace Language

/-- Every language once, in the order in which extensions are looked up. -/
def all : List Language :=
  [.html, .css, .javascript, .typescript, .json, .xml, .php, .python, .java, .c, .cpp, .csharp, .go,
   .rust, .swift, .kotlin, .dart, .scala, .ruby, .perl, .r, .matlab, .sql, .shell, .powershell]

/-- The name of a language. -/
def name : Language → String
  | .html => "html"
  | .css => "css"
  | .javascript => "javascript"
  | .typescript => "typescript"
  | .json => "json"
  | .xml => "xml"
  | .php => "php"
  | .python => "python"
  | .java => "java"
  | .c => "c"
  | .cpp => "cpp"
  | .csharp => "csharp"
  | .go => "go"
  | .rust => "rust"
  | .swift => "swift"
  | .kotlin => "kotlin"
  | .dart => "dart"
  | .scala => "scala"
  | .ruby => "ruby"
  | .perl => "perl"
  | .r => "r"
  | .matlab => "matlab"
  | .sql => "sql"
  | .shell => "shell"
  | .powershell => "powershell"

/-- The file extensions of a language, the usual one first. -/
def extensions : Language → List String
  | .html => ["html", "htm"]
  | .css => ["css"]
  | .javascript => ["js", "mjs", "cjs", "jsx"]
  | .typescript => ["ts", "tsx", "mts", "cts"]
  | .json => ["json"]
  | .xml => ["xml", "svg", "xsd", "xsl"]
  | .php => ["php"]
  | .python => ["py", "pyw"]
  | .java => ["java"]
  | .c => ["c", "h"]
  | .cpp => ["cpp", "cc", "cxx", "hpp", "hh"]
  | .csharp => ["cs"]
  | .go => ["go"]
  | .rust => ["rs"]
  | .swift => ["swift"]
  | .kotlin => ["kt", "kts"]
  | .dart => ["dart"]
  | .scala => ["scala", "sc"]
  | .ruby => ["rb"]
  | .perl => ["pl", "pm"]
  | .r => ["r"]
  | .matlab => ["m"]
  | .sql => ["sql"]
  | .shell => ["sh", "bash", "zsh"]
  | .powershell => ["ps1", "psm1"]

/-- The media type under which files of a language are served. -/
def mediaType : Language → String
  | .html => "text/html"
  | .css => "text/css"
  | .javascript => "text/javascript"
  | .typescript => "application/typescript"
  | .json => "application/json"
  | .xml => "application/xml"
  | .php => "application/x-httpd-php"
  | .python => "text/x-python"
  | .java => "text/x-java-source"
  | .c => "text/x-c"
  | .cpp => "text/x-c++src"
  | .csharp => "text/x-csharp"
  | .go => "text/x-go"
  | .rust => "text/x-rust"
  | .swift => "text/x-swift"
  | .kotlin => "text/x-kotlin"
  | .dart => "application/dart"
  | .scala => "text/x-scala"
  | .ruby => "text/x-ruby"
  | .perl => "text/x-perl"
  | .r => "text/x-r"
  | .matlab => "text/x-matlab"
  | .sql => "application/sql"
  | .shell => "application/x-sh"
  | .powershell => "application/x-powershell"

/-- The shape of the comments of a language. -/
def commentStyle : Language → CommentStyle
  | .html | .xml => .markup
  | .php => .php
  | .python | .ruby | .perl | .r | .shell => .hash
  | .powershell => .powerShell
  | .sql => .sql
  | .matlab => .matlab
  | .json => .none
  | .css | .javascript | .typescript | .java | .c | .cpp | .csharp | .go | .rust | .swift | .kotlin
  | .dart | .scala => .cFamily

/-- How much of the line structure of a language carries meaning. -/
def lineRole : Language → LineRole
  | .python => .indentation
  | .ruby | .r | .matlab | .shell | .powershell | .go | .swift | .kotlin | .scala | .c | .cpp
  | .csharp => .lines
  | .html | .css | .javascript | .typescript | .json | .xml | .php | .java | .rust | .dart | .perl
  | .sql => .freeForm

/-- The short forms of language names, with the names that they stand for. -/
def aliases : List (String × String) :=
  [("js", "javascript"), ("ts", "typescript"), ("c++", "cpp"), ("c#", "csharp"), ("cs", "csharp"),
   ("py", "python"), ("rb", "ruby"), ("sh", "shell"), ("bash", "shell"), ("ps1", "powershell")]

/-- The language with exactly this name. -/
def ofName? (text : String) : Option Language :=
  all.find? fun language => language.name == text

/-- The language that a user's spelling means: blanks around it and case do not matter, and short forms
are understood. -/
def ofSpelling? (text : String) : Option Language :=
  let lowered := Text.toLower (String.ofList (Text.trim text.toList))
  ofName? ((aliases.lookup lowered).getD lowered)

/-- The language of files with this extension, with or without leading dots and in any case. -/
def ofExtension? (extension : String) : Option Language :=
  let lowered := Text.toLower (String.ofList (extension.toList.dropWhile (· == '.')))
  all.find? fun language => language.extensions.contains lowered

end Language

end Minifier
