import Minifier.Proofs.Minify.Stages
import Minifier.Proofs.Minify.Shortening
import Minifier.Proofs.Rule.Basic

/-!
The rules of every language add no bytes. Most drop their matches, keep a part of them, or put one character
in their place; the others put back parts of a match in their order, but for a font weight, whose number is
shorter than its name.
-/

namespace Minifier

open Pattern Text

theorem Rule.NarrowsOnly.shrinks {rule : Rule} (h : rule.NarrowsOnly) : rule.Shrinks :=
  fun index prev found behind hfound => (h index prev found behind hfound).byteSize_le

/-- Nothing becomes of an empty text. -/
theorem Pipeline.Each.run_eq_nil {pipeline : Pipeline} (h : pipeline.Each Rule.Shrinks) : pipeline.run [] = [] := by
  have hsize : Text.byteSize (pipeline.run []) ≤ Text.byteSize [] := by
    refine @Pipeline.run_of_apply (fun text out => Text.byteSize out ≤ Text.byteSize text) ?_ ?_ _ ?_ []
    · exact fun text => Nat.le_refl _
    · exact fun hfirst hsecond => hsecond.trans hfirst
    · exact fun rule hrule => (h rule hrule).byteSize_apply
  exact List.eq_nil_of_length_eq_zero (Nat.le_zero.mp ((Text.length_le_byteSize _).trans hsize))

/-! ### Blanks -/

namespace Spacing

/-- The character before the blanks stays, and one space takes the place of two blanks or more. -/
theorem shrinks_innerSpaces : innerSpaces.Shrinks := by
  apply Rule.Shrinks.of_takes
  intro prev found behind parts htakes hpart
  obtain ⟨_, blanks, _, _, ⟨kept, _, _, _, ⟨_, -, rfl⟩, hblank, rfl, rfl⟩, hblanks, htext, rfl⟩ := htakes
  obtain ⟨⟨d, -, rfl⟩, rfl⟩ := (takes_one _).mp hblank
  obtain ⟨-, -, rfl⟩ := (takes_run1 _).mp hblanks
  have hkept : found.part 1 = kept := hpart 1
  have hone : byteSize [' '] ≤ byteSize [d] := length_le_byteSize [d]
  simp only [innerSpaces, hkept, htext, byteSize_append]
  omega

theorem each_all_shrinks : Pipeline.Each Rule.Shrinks all :=
  each_all_iff.mpr
    ⟨Rule.shrinks_put (by decide), Rule.shrinks_put (by decide), Rule.shrinks_drop, Rule.shrinks_drop,
      shrinks_innerSpaces, Rule.shrinks_drop, Rule.shrinks_drop⟩

end Spacing

/-! ### Stylesheets -/

namespace Style

theorem each_aggressive_narrowsOnly :
    Pipeline.Each Rule.NarrowsOnly [semicolonBrace, zeroUnits, leadingZero, fontWeight] :=
  each_shortensPiece.mono fun _ => Rule.ShortensPiece.narrowsOnly

theorem each_shrinks (options : Options) : (Style.pipeline options).Each Rule.Shrinks := by
  apply each_pipeline Spacing.each_all_shrinks
  · exact Rule.shrinks_keepPart
  · exact Rule.shrinks_keepPart
  · exact fun _ => each_aggressive_narrowsOnly.mono fun _ => Rule.NarrowsOnly.shrinks

end Style

/-! ### Markup, scripts and other languages -/

theorem Markup.shrinks_interTag : interTag.Shrinks :=
  .of_fewest fun _ => show byteSize ['>', '<'] ≤ interTag.pattern.fewest by decide

theorem Markup.each_shrinks (options : Options) : (Markup.pipeline options).Each Rule.Shrinks := by
  apply each_pipeline Spacing.each_all_shrinks
  · exact shrinks_interTag
  · exact .of_fewest fun _ => show byteSize ['>', '<'] ≤ interTagInline.pattern.fewest by decide
  · exact Rule.shrinks_keepPart

theorem Generic.each_shrinks (language : Language) (options : Options) :
    (Generic.pipeline language options).Each Rule.Shrinks :=
  each_pipeline Spacing.each_all_shrinks Rule.shrinks_keepPart Rule.shrinks_keepPart language options

theorem Script.each_shrinks (options : Options) : (Script.pipeline options).Each Rule.Shrinks := by
  apply each_pipeline
  · exact fun _ => Rule.shrinks_drop
  · exact fun _ => Rule.shrinks_drop
  · exact Spacing.each_all_shrinks
  · exact Rule.shrinks_put (by decide)
  · exact Rule.shrinks_keepPart
  · exact Rule.shrinks_keepPart
  · exact fun _ => Rule.shrinks_put (by decide)

end Minifier
