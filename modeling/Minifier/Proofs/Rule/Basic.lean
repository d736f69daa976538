import Minifier.Proofs.Pattern.Shape
import Minifier.Proofs.Text.Basic
import Minifier.Rule.Basic

/-!
What holds of a rule or a pipeline because it holds of every step. A relation between a text and an edited
one that allows no edit and further edits holds of the passes of a rule, and of the rules of a pipeline, if
it holds of each.
-/

namespace Minifier

section Relation

variable {rel : List Char → List Char → Prop} (hrefl : ∀ text, rel text text)
  (htrans : ∀ {first second third}, rel first second → rel second third → rel first third)

include hrefl htrans

theorem Rule.apply_of_once {rule : Rule} (h : ∀ text, rel text (rule.once text)) (text : List Char) :
    rel text (rule.apply text) := by
  rw [apply]
  generalize rule.passes = passes
  induction passes generalizing text with
  | zero => exact hrefl text
  | succ passes ih =>
    rw [repeated]
    split
    · exact h text
    · exact htrans (h text) (ih _)

theorem Pipeline.run_of_apply {pipeline : Pipeline}
    (h : ∀ rule ∈ pipeline, ∀ text, rel text (rule.apply text)) (text : List Char) :
    rel text (pipeline.run text) := by
  induction pipeline generalizing text with
  | nil => exact hrefl text
  | cons rule pipeline ih =>
    obtain ⟨hrule, hrest⟩ := List.forall_mem_cons.mp h
    exact htrans (hrule text) (ih hrest _)

end Relation

/-- A rule that runs once replaces every match once. -/
theorem Rule.apply_eq_once {rule : Rule} (h : rule.passes = 1) (text : List Char) :
    rule.apply text = rule.once text := by
  rw [apply, h, repeated]
  split
  · rfl
  · rfl

namespace Pipeline

theorem run_nil (text : List Char) : Pipeline.run [] text = text := rfl

theorem run_cons (rule : Rule) (pipeline : Pipeline) (text : List Char) :
    Pipeline.run (rule :: pipeline) text = pipeline.run (rule.apply text) := rfl

theorem run_append (first second : Pipeline) (text : List Char) :
    (first ++ second).run text = second.run (first.run text) :=
  List.foldl_append

/-- Every rule of a pipeline has a property. -/
def Each (property : Rule → Prop) (pipeline : Pipeline) : Prop := ∀ rule ∈ pipeline, property rule

namespace Each

variable {property other : Rule → Prop} {pipeline rest : Pipeline} {rule : Rule} {condition : Bool}

theorem nil : Each property [] := fun _ h => absurd h List.not_mem_nil

theorem cons (h : property rule) (hrest : Each property pipeline) : Each property (rule :: pipeline) :=
  List.forall_mem_cons.mpr ⟨h, hrest⟩

theorem append (h : Each property pipeline) (hrest : Each property rest) :
    Each property (pipeline ++ rest) :=
  List.forall_mem_append.mpr ⟨h, hrest⟩

theorem onlyIf (h : condition = true → Each property pipeline) :
    Each property (Pipeline.onlyIf condition pipeline) := by
  cases condition with
  | true => exact h rfl
  | false => exact nil

theorem mono (himp : ∀ rule, property rule → other rule) (h : Each property pipeline) :
    Each other pipeline :=
  fun rule hrule => himp rule (h rule hrule)

end Each

end Pipeline

/-!
### Rules that add no bytes

A rule is asked about one match at a time; what it puts there is measured against
the parts of the match, or against the fewest characters that its pattern takes.
-/

open Pattern Text

namespace Rule

variable {rule : Rule} {name : String} {pattern : Pattern}

/-- A rule puts no more bytes in the place of a match than the match has. -/
def Shrinks (rule : Rule) : Prop :=
  ∀ index prev found behind, rule.pattern.matchAt index prev (found.text ++ behind) = some found →
    byteSize (rule.replace found) ≤ byteSize found.text

theorem Shrinks.byteSize_apply (h : rule.Shrinks) (text : List Char) :
    byteSize (rule.apply text) ≤ byteSize text := by
  refine @apply_of_once (fun text out => byteSize out ≤ byteSize text) ?_ ?_ rule ?_ text
  · exact fun text => Nat.le_refl _
  · exact fun hfirst hsecond => hsecond.trans hfirst
  · intro text
    refine ((edits_replaceAll rule.pattern rule.replace text).mono ?_).byteSize_le
    rintro _ old new rest _ ⟨index, prev, found, hfound, rfl, rfl⟩
    exact h index prev found rest hfound

/-- What a match takes and what its parts take is all that a rule is asked about. -/
theorem Shrinks.of_takes
    (h : ∀ prev found behind parts, rule.pattern.Takes prev found.text behind parts →
      (∀ n, found.part n = (parts.lookup (.part n)).getD []) →
      byteSize (rule.replace found) ≤ byteSize found.text) :
    rule.Shrinks := by
  intro index prev found behind hfound
  obtain ⟨behind', parts, -, htakes, hlabels⟩ := Match.exists_takes hfound
  exact h prev found behind' parts htakes (found.part_eq_getD hlabels)

theorem Shrinks.of_fewest (h : ∀ found, byteSize (rule.replace found) ≤ rule.pattern.fewest) :
    rule.Shrinks := by
  refine .of_takes fun prev found behind parts htakes _ => (h found).trans ?_
  exact htakes.fewest_le.trans (length_le_byteSize _)

theorem shrinks_drop : (Rule.drop name pattern).Shrinks := .of_fewest fun _ => Nat.zero_le _

theorem shrinks_put {c : Char} (h : c.utf8Size ≤ pattern.fewest) : (Rule.put name pattern c).Shrinks :=
  .of_fewest fun _ => by simpa [Rule.put] using h

theorem shrinks_keepPart : (Rule.keepPart name pattern).Shrinks :=
  fun _ _ _ _ hfound => byteSize_le_of_sublist (Match.part_infix hfound 1).sublist

end Rule

end Minifier
