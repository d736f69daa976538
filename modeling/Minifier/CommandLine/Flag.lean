import Minifier.Config.Basic
import Minifier.Target.Basic

/-!
The words of the command line: its commands, the flags and operands that each of them takes, and how
the value of each is checked.
-/

namespace Minifier.CommandLine

/-- Why a command line is refused, or answered without running anything. -/
inductive Refusal where
  /-- Two arguments exclude each other, or one is given twice. -/
  | conflict : Refusal
  /-- A flag that is not known, or an operand too many. -/
  | unknownArgument : Refusal
  /-- A value is missing, empty where it must not be, or not one of a few. -/
  | invalidValue : Refusal
  /-- A value does not mean anything. -/
  | meaninglessValue : Refusal
  /-- A flag is given a value but takes none. -/
  | unexpectedValue : Refusal
  /-- An operand is missing. -/
  | missingOperand : Refusal
  /-- A command that is not known. -/
  | unknownCommand : Refusal
  /-- The user asks for help. -/
  | help : Refusal
  /-- The user asks for the version. -/
  | version : Refusal
  deriving DecidableEq, Repr

/-- Why a command line is refused, in words. -/
def Refusal.message : Refusal → String
  | conflict => "these arguments cannot be used together"
  | unknownArgument => "unexpected argument"
  | invalidValue => "a value is missing or not one of the possible ones"
  | meaninglessValue => "a value is not understood"
  | unexpectedValue => "a flag that takes no value is given one"
  | missingOperand => "a required argument is missing"
  | unknownCommand => "unrecognized subcommand"
  | help => "help was asked for"
  | version => "the version was asked for"

/-- What an argument can set. -/
inductive Parameter where
  | input | output | level | language | recursive | watch | config | keepComments | keepWhitespace
  | mangleVariables | removeConsole | keepDebugger | preserveLineBreaks | keepEmptyLines
  | verbose | quiet | help | version
  /-- The operand that names a target. -/
  | target : Parameter
  /-- The operand that names a file. -/
  | file : Parameter
  deriving DecidableEq, Repr

namespace Parameter

/-- The long name of a flag. -/
def long? : Parameter → Option String
  | input => some "input"
  | output => some "output"
  | level => some "level"
  | language => some "language"
  | recursive => some "recursive"
  | watch => some "watch"
  | config => some "config"
  | keepComments => some "keep-comments"
  | keepWhitespace => some "keep-whitespace"
  | mangleVariables => some "mangle-variables"
  | removeConsole => some "remove-console"
  | keepDebugger => some "keep-debugger"
  | preserveLineBreaks => some "preserve-linebreaks"
  | keepEmptyLines => some "keep-empty-lines"
  | verbose => some "verbose"
  | quiet => some "quiet"
  | help => some "help"
  | version => some "version"
  | target | file => none

/-- The one-letter name of a flag. -/
def short? : Parameter → Option Char
  | input => some 'i'
  | output => some 'o'
  | level => some 'l'
  | language => some 'L'
  | recursive => some 'r'
  | watch => some 'w'
  | config => some 'c'
  | verbose => some 'v'
  | quiet => some 'q'
  | help => some 'h'
  | version => some 'V'
  | _ => none

/-- Whether a flag takes a value. -/
def takesValue : Parameter → Bool
  | input | output | level | language | config => true
  | _ => false

/-- Refuses a value that a parameter cannot take. -/
def check (parameter : Parameter) (value : String) : Except Refusal Unit :=
  match parameter with
  | level => if (Level.ofSpelling? value).isSome then .ok () else .error .meaninglessValue
  | language => if (Language.ofSpelling? value).isSome then .ok () else .error .meaninglessValue
  | target => if (Target.ofName? false value).isSome then .ok () else .error .invalidValue
  | config | file => if value.isEmpty then .error .invalidValue else .ok ()
  | _ => .ok ()

/-- The flags that describe a run. -/
def ofRun : List Parameter :=
  [input, output, level, language, recursive, watch, config, keepComments, keepWhitespace,
   mangleVariables, removeConsole, keepDebugger, preserveLineBreaks, keepEmptyLines]

end Parameter

/-- The commands. -/
inductive Verb where
  /-- Minify, which needs no word of its own. -/
  | minify : Verb
  /-- Write a run for another tool. -/
  | generate : Verb
  /-- Look at one file. -/
  | detect : Verb
  /-- Serve requests. -/
  | worker : Verb
  deriving DecidableEq, Repr

namespace Verb

/-- The command that a word stands for. -/
def ofWord? : String → Option Verb
  | "generate" => some generate
  | "detect" => some detect
  | "worker" => some worker
  | _ => none

/-- The flags that a command takes. -/
def flags : Verb → List Parameter
  | minify => Parameter.ofRun ++ [.verbose, .quiet, .help, .version]
  | generate => Parameter.ofRun ++ [.verbose, .quiet, .help]
  | detect | worker => [.verbose, .quiet, .help]

/-- The operand that a command needs. -/
def operand? : Verb → Option Parameter
  | generate => some .target
  | detect => some .file
  | minify | worker => none

/-- The flag of a command with a long name. -/
def long? (verb : Verb) (name : String) : Option Parameter :=
  verb.flags.find? fun flag => flag.long? == some name

/-- The flag of a command with a one-letter name. -/
def short? (verb : Verb) (letter : Char) : Option Parameter :=
  verb.flags.find? fun flag => flag.short? == some letter

end Verb

end Minifier.CommandLine
