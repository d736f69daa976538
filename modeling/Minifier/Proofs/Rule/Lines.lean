import Minifier.Generic
import Minifier.Proofs.Rule.Tightening
import Minifier.Proofs.Text.CodeLines
import Minifier.Script.Basic
import Minifier.Style

/-!
The lines of a text under the rules for blanks. A rule that keeps to blanks within a line leaves the code of
every line where it is; dropping lines without code and trimming the text take no code away either.
-/

namespace Minifier

open Pattern Text

variable {accepts : Char → Bool} {old new text : List Char}

/-! ### Blanks within a line -/

/-- The characters of a class are blanks, and the line feed is not among them. -/
def WithinLine (accepts : Char → Bool) : Prop := ∀ c, accepts c = true → isBlank c = true ∧ c ≠ '\n'

theorem WithinLine.among {chars : List Char} (h : (chars.all fun c => isBlank c && c != '\n') = true) :
    WithinLine (Class.among chars) := by
  intro c hc
  have hboth := List.all_eq_true.mp h c (List.contains_iff_mem.mp hc)
  simpa using hboth

theorem withinLine_spaceTab : WithinLine Class.spaceTab := by
  intro c hc
  refine ⟨Class.isBlank_of_spaceTab hc, ?_⟩
  rintro rfl
  exact absurd hc (by decide)

theorem WithinLine.skeleton_cons (h : WithinLine accepts) {c : Char} (hc : accepts c = true) (text : List Char) :
    skeleton (c :: text) = skeleton text := by
  obtain ⟨hblank, hbreak⟩ := h c hc
  simp [skeleton, hblank, hbreak]

/-- Dropping such characters leaves the skeleton. -/
theorem Drops.skeleton_eq (hin : WithinLine accepts) (h : Drops accepts old new) : skeleton old = skeleton new := by
  induction h with
  | nil => rfl
  | drop hc _ ih => rw [hin.skeleton_cons hc, ih]
  | keep c _ ih => rw [← List.singleton_append, skeleton_append, ih, ← skeleton_append, List.singleton_append]

theorem skeleton_squeezeFrom (hin : WithinLine accepts) (busy : Bool) (text : List Char) :
    skeleton (squeezeFrom accepts ' ' busy text) = skeleton text := by
  have hspace (text : List Char) : skeleton (' ' :: text) = skeleton text := rfl
  induction text generalizing busy with
  | nil => rfl
  | cons c rest ih =>
    by_cases hc : accepts c = true
    · cases busy with
      | false => rw [squeezeFrom_false_cons hc, hspace, ih, hin.skeleton_cons hc]
      | true => rw [squeezeFrom_true_cons hc, ih, hin.skeleton_cons hc]
    · rw [squeezeFrom_cons_of_neg (Bool.eq_false_iff.mpr hc), ← List.singleton_append, skeleton_append, ih,
        ← skeleton_append, List.singleton_append]

/-! ### Rules -/

/-- An edit leaves the code of every line where it is. -/
def KeepsLines (edit : List Char → List Char) : Prop := ∀ text, codeLines (edit text) = codeLines text

theorem Pipeline.keepsLines_run {pipeline : Pipeline} (h : pipeline.Each fun rule => KeepsLines rule.apply) :
    KeepsLines pipeline.run :=
  @run_of_apply (fun old new => codeLines new = codeLines old) (fun _ => rfl) (fun h h' => h'.trans h) pipeline h

theorem Rule.DropsOnly.keepsLines {rule : Rule} (h : rule.DropsOnly accepts) (hin : WithinLine accepts) :
    KeepsLines rule.apply :=
  fun text => (codeLines_eq_of_skeleton ((h.drops_apply text).skeleton_eq hin)).symm

/-- A rule that drops whole matches drops what its pattern takes. -/
theorem Rule.dropsOnly_drop (name : String) {pattern : Pattern}
    (h : ∀ {prev taken behind parts}, pattern.Takes prev taken behind parts → ∀ c ∈ taken, accepts c = true) :
    (Rule.drop name pattern).DropsOnly accepts := by
  intro index prev found behind hfound
  obtain ⟨_, _, -, htakes, -⟩ := Match.exists_takes hfound
  exact .of_forall (h htakes)

namespace Spacing

theorem withinLine_tailBlank : WithinLine tailBlank := .among (by decide)

theorem keepsLines_collapseHorizontal : KeepsLines collapseHorizontal.apply := by
  intro text
  rw [collapseHorizontal_apply]
  exact codeLines_eq_of_skeleton (skeleton_squeezeFrom (.among (by decide)) false text)

theorem mem_of_takes_lineTail {prev : Option Char} {taken behind : List Char} {parts : Parts}
    (h : lineTail.Takes prev taken behind parts) : ∀ c ∈ taken, tailBlank c = true := by
  obtain ⟨blanks, _, _, _, hblanks, ⟨-, rfl, -⟩, rfl, -⟩ := h
  obtain ⟨-, hall, -⟩ := (takes_run1 _).mp hblanks
  rw [List.append_nil]
  exact hall

theorem keepsLines_trailingSpace : KeepsLines trailingSpace.apply :=
  (Rule.dropsOnly_drop _ mem_of_takes_lineTail).keepsLines withinLine_tailBlank

theorem keepsLines_trimLines : KeepsLines trimLines.apply := by
  refine (Rule.dropsOnly_drop _ fun htakes => ?_).keepsLines withinLine_tailBlank
  rcases htakes with ⟨_, blanks, _, _, ⟨-, rfl, -⟩, hblanks, rfl, -⟩ | htail
  · obtain ⟨-, hall, -⟩ := (takes_run1 _).mp hblanks
    exact fun c hc => tailBlank_of_spaceTab (hall c hc)
  · exact mem_of_takes_lineTail htail

/-- Lines without code are left out anyway. -/
theorem nonBlankLines_emptyLines (text : List Char) : nonBlankLines (emptyLines.apply text) = nonBlankLines text := by
  obtain ⟨ended, last, rfl, hlines⟩ := exists_joinLines text
  have hkept : AreLines (ended.filter fun line => !isEmptyLine line) last :=
    ⟨fun line hline => hlines.1 line (List.mem_of_mem_filter hline), hlines.2⟩
  rw [emptyLines_apply hlines, nonBlankLines, cutLines_joinLines hkept, nonBlankLines, cutLines_joinLines hlines,
    List.filter_append, List.filter_append, List.filter_filter]
  congr 1
  refine List.filter_congr fun line _ => ?_
  cases hempty : isEmptyLine line with
  | false => simp
  | true => simp [nonBlank_eq_nil_iff.mpr (isBlank_of_isEmptyLine hempty)]

theorem keepsLines_emptyLines : KeepsLines emptyLines.apply := by
  intro text
  rw [codeLines, nonBlankLines_emptyLines, codeLines]

theorem keepsLines_trimEnds : KeepsLines trimEnds.apply := by
  intro text
  rw [trimEnds_apply, codeLines_eq_of_padded (padded_trim text)]

end Spacing

/-- Blanks around a mark go from its line only. -/
theorem keepsLines_around (name : String) (marks : List Char) :
    KeepsLines (Rule.keepPart name (run Class.spaceTab ++ part 1 (oneOf marks) ++ run Class.spaceTab)).apply :=
  (Rule.dropsOnly_around name Class.spaceTab marks).keepsLines withinLine_spaceTab

end Minifier
