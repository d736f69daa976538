import Minifier.Language

/-!
What a minification is asked to do: a level and seven switches.
-/

namespace Minifier

/-- How far a minification goes. -/
inductive Level where
  | light | moderate | aggressive
  deriving DecidableEq, Repr

namespace Level

/-- The place of a level in the order from light to aggressive. -/
def rank : Level → Nat
  | light => 0
  | moderate => 1
  | aggressive => 2

/-- The name of a level. -/
def name : Level → String
  | light => "light"
  | moderate => "moderate"
  | aggressive => "aggressive"

def all : List Level := [light, moderate, aggressive]

/-- The level with exactly this name. -/
def ofName? (text : String) : Option Level :=
  all.find? fun level => level.name == text

/-- The level that a user's spelling means: blanks around it and case do not matter. -/
def ofSpelling? (text : String) : Option Level :=
  ofName? (Text.toLower (String.ofList (Text.trim text.toList)))

/-- From the moderate level on, blanks around punctuation go. -/
def tightens (level : Level) : Bool := moderate.rank ≤ level.rank

end Level

/-- The switches of one minification. -/
structure Options where
  level : Level := .moderate
  removeComments : Bool := true
  removeWhitespace : Bool := true
  removeEmptyLines : Bool := true
  preserveLineBreaks : Bool := false
  /-- Asks for short names; granted at the aggressive level only. -/
  mangleVariables : Bool := false
  removeConsoleLog : Bool := false
  removeDebugger : Bool := true
  deriving DecidableEq, Repr

namespace Options

def withLevel (options : Options) (level : Level) : Options := { options with level }

def isAggressive (options : Options) : Bool := options.level == .aggressive

/-- Names are shortened only if that is asked for and the level is aggressive. -/
def mangles (options : Options) : Bool := options.mangleVariables && options.isAggressive

/-- Whether blanks around punctuation go. -/
def tightens (options : Options) : Bool := options.level.tightens

end Options

end Minifier
