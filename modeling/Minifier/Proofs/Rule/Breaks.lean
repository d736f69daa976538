import Minifier.Proofs.Rule.Basic
import Minifier.Proofs.Rule.Blanks

/-!
Line breaks under the rules for blanks. Such a rule accepts no character that is no blank, so it treats what stands
between two of them by itself; and unless it makes a space of every blank, a line break between them stays one.
-/

namespace Minifier

open Pattern

variable {c d : Char}

/-! ### Characters that are no blanks -/

namespace Spacing

theorem ne_of_not_blank (h : Text.isBlank c = false) {blank : Char} (hblank : Text.isBlank blank = true) :
    (c == blank) = false := by
  rw [beq_eq_false_iff_ne]
  rintro rfl
  rw [h] at hblank
  cases hblank

theorem among_eq_false (h : Text.isBlank c = false) {blanks : List Char}
    (hblanks : blanks.all Text.isBlank = true) : Class.among blanks c = false := by
  rw [Bool.eq_false_iff]
  intro hc
  rw [Class.isBlank_of_among hblanks hc] at h
  cases h

theorem spaceTab_eq_false (h : Text.isBlank c = false) : Class.spaceTab c = false := by
  rw [Class.spaceTab, ne_of_not_blank h (by decide), ne_of_not_blank h (by decide)]
  rfl

theorem avoids_run1 {accepts : Char → Bool} (h : accepts c = false) : (run1 accepts).avoids c = true := by
  have havoids : (run1 accepts).avoids c = (!accepts c && !accepts c) := rfl
  rw [havoids, h]
  rfl

theorem avoids_trimLines (hhead : Class.spaceTab c = false) (htail : tailBlank c = false) :
    trimLines.pattern.avoids c = true := by
  have havoids : trimLines.pattern.avoids c =
      ((!Class.spaceTab c && !Class.spaceTab c) && ((!tailBlank c && !tailBlank c) && true)) := rfl
  rw [havoids, hhead, htail]
  rfl

theorem avoids_emptyLines (h : Text.isBlank c = false) : emptyLines.pattern.avoids c = true := by
  have havoids : emptyLines.pattern.avoids c =
      (!(c == ' ' || c == '\t') && (!(c == '\r') && true) && !(c == '\n')) := rfl
  rw [havoids, ne_of_not_blank h (by decide), ne_of_not_blank h (by decide), ne_of_not_blank h (by decide),
    ne_of_not_blank h (by decide)]
  rfl

theorem avoids_trimEnds (h : Text.isBlank c = false) : trimEnds.pattern.avoids c = true := by
  have havoids : trimEnds.pattern.avoids c =
      ((!Text.isBlank c && !Text.isBlank c) && (!Text.isBlank c && !Text.isBlank c && true)) := rfl
  rw [havoids, h]
  rfl

/-- What is taken without the last character leaves it in the text. -/
theorem exists_before_last {mid before taken rest : List Char} (hne : taken ≠ []) (hd : d ∉ taken)
    (h : mid ++ [d] = before ++ (taken ++ rest)) :
    ∃ more, mid = before ++ (taken ++ more) ∧ rest = more ++ [d] := by
  rw [← List.append_assoc] at h
  have hrest : rest ≠ [] := by
    rintro rfl
    obtain ⟨most, last, rfl⟩ := (List.eq_nil_or_concat' taken).resolve_left hne
    rw [List.append_nil, ← List.append_assoc] at h
    obtain ⟨-, hlast⟩ := List.append_inj' h rfl
    obtain rfl := (List.cons.inj hlast).1
    exact hd (List.mem_append_right most (List.mem_singleton_self d))
  obtain ⟨more, rfl, hmore⟩ := exists_of_concat_eq hrest h
  exact ⟨more, List.append_assoc _ _ _, hmore⟩

/-- What stands between two characters is at neither end of the text. -/
theorem rewrites_trimEnds {mid : List Char} (hd : Text.isBlank d = false) (new : List Char → List Char) :
    trimEnds.pattern.Rewrites new (some c) (mid ++ [d]) (mid ++ [d]) := by
  refine .of_forall_ne fun before behind taken hsplit htaken => ?_
  obtain ⟨rest, parts, rfl, htakes⟩ := exists_takes_of_taken? htaken
  have hd' : d ∉ taken := htakes.not_mem (avoids_trimEnds hd)
  have hne : taken ≠ [] := ne_nil_of_taken? puts_trimEnds.exceeds htaken
  rcases htakes with ⟨_, _, _, _, ⟨hstart, -⟩, -⟩ | ⟨_, _, _, _, -, ⟨hend, -⟩, -⟩
  · simp [Anchor.holdsBetween_textStart] at hstart
  · obtain rfl := Anchor.holdsBetween_textEnd.mp hend
    obtain ⟨more, -, hmore⟩ := exists_before_last hne hd' hsplit
    simp at hmore

end Spacing

/-! ### Between two characters -/

namespace Pattern.Rewrites

variable {pattern : Pattern} {new : List Char → List Char} {prev : Option Char} {text out : List Char}

/-- A character that is neither accepted nor put is left where it was, and nowhere else. -/
theorem mem_iff (h : pattern.Rewrites new prev text out) (hc : pattern.avoids c = true)
    (hnew : ∀ taken, c ∉ new taken) : c ∈ out ↔ c ∈ text := by
  induction h with
  | nil => exact Iff.rfl
  | plain _ _ ih => simp only [List.mem_cons, ih]
  | hit htaken htext _ _ ih =>
    obtain ⟨behind, parts, -, htakes⟩ := exists_takes_of_taken? htaken
    rw [htext]
    simp only [List.mem_append, ih, hnew, htakes.not_mem hc]

end Pattern.Rewrites

/-- What stands between two characters that a pattern does not accept becomes something else, of what stood there and
of what is put. -/
theorem Rule.Puts.exists_bridges {rule : Rule} {new : List Char → List Char} (h : rule.Puts new)
    (hc : rule.pattern.avoids c = true) (hd : rule.pattern.avoids d = true) (mid : List Char) :
    ∃ mid', Bridges rule.apply c d mid mid' ∧
      rule.pattern.Rewrites new (some c) (mid ++ [d]) (mid' ++ [d]) ∧
      ∀ x ∈ mid', x ∈ mid ∨ ∃ taken, x ∈ new taken := by
  obtain ⟨out, hout⟩ := h.exists_rewrites hc (mid ++ [d])
  have hend : rule.pattern.Rewrites new (some d) [] [] := .nil
  obtain ⟨⟨mid', rfl, hmid'⟩, -⟩ := hout.append hd h.exceeds hend
  exact ⟨mid', h.bridges hc hd hout, hout, hmid'⟩

/-- Between two characters that are no blanks an edit leaves a line break if there was one. -/
def SparesBreaks (edit : List Char → List Char) : Prop :=
  ∀ c d, Text.isBlank c = false → Text.isBlank d = false → ∀ mid, ∃ mid',
    Bridges edit c d mid mid' ∧ ('\n' ∈ mid' ↔ '\n' ∈ mid)

/-- Rules that do so one after the other do so together. -/
theorem Pipeline.sparesBreaks_run {pipeline : Pipeline} (h : pipeline.Each fun rule => SparesBreaks rule.apply) :
    SparesBreaks pipeline.run := by
  induction pipeline with
  | nil => exact fun c d _ _ mid => ⟨mid, .pipeline_nil c d mid, Iff.rfl⟩
  | cons rule pipeline ih =>
    obtain ⟨hrule, hrest⟩ := List.forall_mem_cons.mp h
    intro c d hc hd mid
    obtain ⟨mid', hbridges, hbreak⟩ := hrule c d hc hd mid
    obtain ⟨mid'', hbridges', hbreak'⟩ := ih hrest c d hc hd mid'
    exact ⟨mid'', hbridges.pipeline_cons hbridges', hbreak'.trans hbreak⟩

/-- A rule that takes no line break and puts none. -/
theorem Rule.Puts.sparesBreaks {rule : Rule} {new : List Char → List Char} (h : rule.Puts new)
    (havoids : ∀ c, Text.isBlank c = false → rule.pattern.avoids c = true)
    (hbreak : rule.pattern.avoids '\n' = true) (hnew : ∀ taken, '\n' ∉ new taken) : SparesBreaks rule.apply := by
  intro c d hc hd mid
  obtain ⟨mid', hbridges, hrewrites, -⟩ := h.exists_bridges (havoids c hc) (havoids d hd) mid
  have hne : '\n' ∉ [d] := by
    rw [List.mem_singleton]
    rintro rfl
    cases hd
  refine ⟨mid', hbridges, ?_⟩
  simpa [hne] using hrewrites.mem_iff hbreak hnew

namespace Spacing

theorem sparesBreaks_trimLines : SparesBreaks trimLines.apply :=
  puts_trimLines.sparesBreaks
    (fun _ hc => avoids_trimLines (spaceTab_eq_false hc) (among_eq_false hc (by decide))) (by decide) (by simp)

/-- Behind a character that is no line break no empty line begins before the next one. -/
private theorem mem_of_rewrites_emptyLines {text out : List Char} (hc : c ≠ '\n')
    (h : emptyLines.pattern.Rewrites (fun _ => []) (some c) text out) (hbreak : '\n' ∈ text) : '\n' ∈ out := by
  induction text generalizing c out with
  | nil => exact absurd hbreak List.not_mem_nil
  | cons x text ih =>
    have hnone : emptyLines.pattern.taken? (some c) (x :: text) = none := by
      rw [Option.eq_none_iff_forall_ne_some]
      intro taken htaken
      rcases Anchor.holdsBetween_lineStart.mp (taken?_emptyLines_iff.mp htaken).1 with hstart | hstart
      · cases hstart
      · exact hc (Option.some.inj hstart)
    obtain ⟨more, rfl, hrest⟩ := h.of_cons hnone
    by_cases hx : x = '\n'
    · exact hx ▸ List.mem_cons_self
    · exact List.mem_cons_of_mem _ (ih hx hrest ((List.mem_cons.mp hbreak).resolve_left (Ne.symm hx)))

theorem ne_break_of_not_blank (h : Text.isBlank c = false) : c ≠ '\n' :=
  beq_eq_false_iff_ne.mp (ne_of_not_blank h (by decide))

theorem sparesBreaks_emptyLines : SparesBreaks emptyLines.apply := by
  intro c d hc hd mid
  obtain ⟨mid', hbridges, hrewrites, hmem⟩ :=
    puts_emptyLines.exists_bridges (avoids_emptyLines hc) (avoids_emptyLines hd) mid
  refine ⟨mid', hbridges, fun hbreak => ?_, fun hbreak => ?_⟩
  · simpa using hmem '\n' hbreak
  · have hout := mem_of_rewrites_emptyLines (ne_break_of_not_blank hc) hrewrites (List.mem_append_left _ hbreak)
    simpa [Ne.symm (ne_break_of_not_blank hd)] using hout

theorem sparesBreaks_trimEnds : SparesBreaks trimEnds.apply := fun _ _ hc hd mid =>
  ⟨mid, puts_trimEnds.bridges (avoids_trimEnds hc) (avoids_trimEnds hd) (rewrites_trimEnds hd _), Iff.rfl⟩

/-- Where every blank becomes a space, no line break stays. -/
theorem exists_bridges_collapseWhitespace (hc : Text.isBlank c = false) (hd : Text.isBlank d = false)
    (mid : List Char) : ∃ mid', Bridges collapseWhitespace.apply c d mid mid' ∧ '\n' ∉ mid' := by
  obtain ⟨mid', hbridges, -⟩ := puts_collapseWhitespace.exists_bridges (avoids_run1 hc) (avoids_run1 hd) mid
  refine ⟨mid', hbridges, fun hbreak => ?_⟩
  have hmem : '\n' ∈ collapseWhitespace.apply ([] ++ c :: (mid ++ d :: [])) := by
    rw [(hbridges [] []).1]
    simp [hbreak]
  rw [collapseWhitespace_apply] at hmem
  exact not_mem_squeezeFrom rfl (by decide) false _ hmem

end Spacing

end Minifier
