import Minifier.Pattern.Basic

/-!
Finding a pattern in a text. A walk follows a pattern from a spot and hands each spot that it reaches
to what comes after, most preferred first, until one of them leads to success. A text is then cut
into segments: the matches, found from left to right without overlap, and the characters between them.

Every function here recurses on the pattern or on the text, so the laws of a rule follow the shape of
its pattern and closed instances evaluate.
-/

namespace Minifier

/-- What a label took: where it begins and how long it is, with the text from its beginning on. -/
structure Span where
  start : Nat
  length : Nat
  onward : List Char
  deriving DecidableEq, Repr

def Span.text (span : Span) : List Char := span.onward.take span.length

/-- A spot in a text: how many characters stand before it, the last of those, and the characters after
it. It also carries the labels closed on the way there, the latest first. -/
structure Spot where
  index : Nat
  prev : Option Char
  rest : List Char
  labels : List (Label × Span)
  deriving DecidableEq, Repr

/-- Whether the condition holds at a spot. -/
def Anchor.holds (condition : Anchor) (spot : Spot) : Bool :=
  match condition with
  | .textStart => spot.prev.isNone
  | .textEnd => spot.rest.isEmpty
  | .lineStart => spot.prev.isNone || spot.prev == some '\n'
  | .lineEnd => spot.rest.isEmpty || spot.rest.head? == some '\n'
  | .wordEdge => spot.prev.any Text.isWord != spot.rest.head?.any Text.isWord

namespace Spot

/-- The spots reached by taking characters of a class, the farthest first, before those given. -/
def runStops (accepts : Char → Bool) (labels : List (Label × Span)) :
    Nat → Option Char → List Char → List Spot → List Spot
  | index, prev, [], stops => ⟨index, prev, [], labels⟩ :: stops
  | index, prev, c :: rest, stops =>
    let stops := ⟨index, prev, c :: rest, labels⟩ :: stops
    if accepts c then runStops accepts labels (index + 1) (some c) rest stops else stops

/-- The spots reached by taking plain characters and escaped ones, the farthest first, before those
given. -/
def escapedStops (plain follows : Char → Bool) (labels : List (Label × Span)) :
    Nat → Option Char → List Char → List Spot → List Spot
  | index, prev, [], stops => ⟨index, prev, [], labels⟩ :: stops
  | index, prev, [c], stops =>
    let stops := ⟨index, prev, [c], labels⟩ :: stops
    if plain c then ⟨index + 1, some c, [], labels⟩ :: stops else stops
  | index, prev, c :: d :: rest, stops =>
    let stops := ⟨index, prev, c :: d :: rest, labels⟩ :: stops
    if plain c then escapedStops plain follows labels (index + 1) (some c) (d :: rest) stops
    else if c == '\\' && follows d then
      escapedStops plain follows labels (index + 2) (some d) rest stops
    else stops

/-- The first success among the spots reached by taking characters of a class, the nearest first. -/
def firstStop {α : Type} (accepts : Char → Bool) (labels : List (Label × Span))
    (next : Spot → Option α) : Nat → Option Char → List Char → Option α
  | index, prev, [] => next ⟨index, prev, [], labels⟩
  | index, prev, c :: rest =>
    match next ⟨index, prev, c :: rest, labels⟩ with
    | some found => some found
    | none => if accepts c then firstStop accepts labels next (index + 1) (some c) rest else none

end Spot

namespace Pattern

/-- Repeats `step` at most `rounds` times, as often as possible first, and then goes on with `next`. -/
def rounds {α : Type} (step : Spot → (Spot → Option α) → Option α) (next : Spot → Option α) :
    Nat → Spot → Option α
  | 0, spot => next spot
  | n + 1, spot =>
    match step spot fun reached => if spot.index < reached.index then rounds step next n reached else none with
    | some found => some found
    | none => next spot

/-- Follows a pattern from a spot and hands the spots that it reaches to `next`, in order of preference,
until one of them succeeds. -/
def walk {α : Type} : Pattern → Spot → (Spot → Option α) → Option α
  | empty, spot, next => next spot
  | one accepts, spot, next =>
    match spot.rest with
    | [] => none
    | c :: rest => if accepts c then next ⟨spot.index + 1, some c, rest, spot.labels⟩ else none
  | run accepts, spot, next =>
    (Spot.runStops accepts spot.labels spot.index spot.prev spot.rest []).findSome? next
  | shortRun accepts, spot, next =>
    Spot.firstStop accepts spot.labels next spot.index spot.prev spot.rest
  | escapedRun plain follows, spot, next =>
    (Spot.escapedStops plain follows spot.labels spot.index spot.prev spot.rest []).findSome? next
  | anchor condition, spot, next => if condition.holds spot then next spot else none
  | seq first second, spot, next => first.walk spot fun reached => second.walk reached next
  | alt first second, spot, next =>
    match first.walk spot next with
    | some found => some found
    | none => second.walk spot next
  | star body, spot, next => rounds (fun reached onward => body.walk reached onward) next spot.rest.length spot
  | label name body, spot, next =>
    body.walk spot fun reached =>
      next { reached with
        labels := (name, ⟨spot.index, reached.index - spot.index, spot.rest⟩) :: reached.labels }

end Pattern

/-- A match: where it begins, its characters and its labels. -/
structure Match where
  start : Nat
  text : List Char
  labels : List (Label × Span)
  deriving DecidableEq, Repr

namespace Match

/-- What a label took, if it took part in the match. -/
def label? (found : Match) (name : Label) : Option Span :=
  (found.labels.find? fun entry => entry.1 == name).map Prod.snd

/-- The characters that a numbered part took, none if it took no part in the match. -/
def part (found : Match) (n : Nat) : List Char :=
  match found.label? (.part n) with
  | some span => span.text
  | none => []

/-- The index of the first character after the match. -/
def stop (found : Match) : Nat := found.start + found.text.length

end Match

namespace Pattern

/-- The match that begins at a given spot of a text, if there is one. -/
def matchAt (pattern : Pattern) (index : Nat) (prev : Option Char) (rest : List Char) : Option Match :=
  (pattern.walk ⟨index, prev, rest, []⟩ some).map fun reached =>
    ⟨index, rest.take (reached.index - index), reached.labels⟩

/-- The first match that begins at or after a given spot. -/
def findFrom (pattern : Pattern) : Nat → Option Char → List Char → Option Match
  | index, prev, [] => pattern.matchAt index prev []
  | index, prev, c :: rest =>
    match pattern.matchAt index prev (c :: rest) with
    | some found => some found
    | none => findFrom pattern (index + 1) (some c) rest

/-- The first match in a text. -/
def find? (pattern : Pattern) (text : List Char) : Option Match :=
  pattern.findFrom 0 none text

/-- Whether a text holds a match. -/
def occursIn (pattern : Pattern) (text : List Char) : Bool :=
  (pattern.find? text).isSome

end Pattern

/-- A piece of a text that was searched for a pattern. -/
inductive Segment where
  /-- A character outside every match. -/
  | plain (c : Char) : Segment
  /-- A match. -/
  | hit (found : Match) : Segment
  deriving DecidableEq, Repr

/-- The characters of a segment. -/
def Segment.text : Segment → List Char
  | .plain c => [c]
  | .hit found => found.text

namespace Pattern

/-- The reversed segments of a text from a spot on, before those given. `busy` counts the characters that
still belong to the last match, and `fresh` tells whether a match ended just here: an empty match is
not taken there. -/
def scan (pattern : Pattern) : (index : Nat) → (prev : Option Char) → (busy : Nat) → (fresh : Bool) →
    List Char → List Segment → List Segment
  | index, prev, busy, fresh, [], done =>
    if busy = 0 ∧ fresh = false then
      match pattern.matchAt index prev [] with
      | some found => .hit found :: done
      | none => done
    else done
  | index, prev, 0, fresh, c :: rest, done =>
    match pattern.matchAt index prev (c :: rest) with
    | none => scan pattern (index + 1) (some c) 0 false rest (.plain c :: done)
    | some found =>
      match found.text with
      | _ :: more => scan pattern (index + 1) (some c) more.length true rest (.hit found :: done)
      | [] =>
        if fresh then scan pattern (index + 1) (some c) 0 false rest (.plain c :: done)
        else scan pattern (index + 1) (some c) 0 false rest (.plain c :: .hit found :: done)
  | index, _, busy + 1, fresh, c :: rest, done =>
    scan pattern (index + 1) (some c) busy fresh rest done

/-- The segments of a text, in order: its matches, each sought where the one before it ended, and the
characters between them. -/
def segments (pattern : Pattern) (text : List Char) : List Segment :=
  (pattern.scan 0 none 0 false text []).reverse

/-- All matches in a text, from left to right. -/
def allMatches (pattern : Pattern) (text : List Char) : List Match :=
  (pattern.segments text).filterMap fun
    | .hit found => some found
    | .plain _ => none

/-- Puts the value of `replace` in the place of every match. -/
def replaceAll (pattern : Pattern) (replace : Match → List Char) (text : List Char) : List Char :=
  (pattern.segments text).flatMap fun
    | .plain c => [c]
    | .hit found => replace found

end Pattern

end Minifier
