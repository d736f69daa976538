import Minifier.Pattern.Match

/-!
Rules and pipelines of them. A rule puts something in the place of every match of its pattern;
a pipeline runs its rules one after the other.
-/

namespace Minifier

/-- Something to do, under a name, with every match of a pattern. -/
structure Rule where
  name : String
  pattern : Pattern
  /-- What stands in the place of a match. -/
  replace : Match → List Char
  /-- How often the rule may run. Running again matters where one match takes up what another needs. -/
  passes : Nat := 1

namespace Rule

/-- Replaces every match once. -/
def once (rule : Rule) (text : List Char) : List Char :=
  rule.pattern.replaceAll rule.replace text

/-- Replaces at most a given number of times, until nothing changes. -/
def repeated (rule : Rule) : (passes : Nat) → List Char → List Char
  | 0, text => text
  | passes + 1, text =>
    let next := rule.once text
    if next = text then next else repeated rule passes next

def apply (rule : Rule) (text : List Char) : List Char := rule.repeated rule.passes text

def occursIn (rule : Rule) (text : List Char) : Bool := rule.pattern.occursIn text

def drop (name : String) (pattern : Pattern) : Rule := { name, pattern, replace := fun _ => [] }

def put (name : String) (pattern : Pattern) (c : Char) : Rule := { name, pattern, replace := fun _ => [c] }

def keepPart (name : String) (pattern : Pattern) : Rule := { name, pattern, replace := fun m => m.part 1 }

end Rule

/-- Rules in the order in which they run. -/
abbrev Pipeline := List Rule

namespace Pipeline

/-- Runs the rules one after the other. -/
def run (pipeline : Pipeline) (text : List Char) : List Char :=
  pipeline.foldl (fun text rule => rule.apply text) text

def names (pipeline : Pipeline) : List String := pipeline.map Rule.name

def onlyIf (condition : Bool) (rules : Pipeline) : Pipeline := if condition then rules else []

end Pipeline

end Minifier
