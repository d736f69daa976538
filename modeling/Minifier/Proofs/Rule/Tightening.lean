import Mathlib.Data.List.Chain
import Minifier.Proofs.Rule.Basic
import Minifier.Proofs.Rule.Blanks

/-!
What the rules for blanks make of a text from which some blanks were dropped before. Whatever the rest of a line
loses, no line becomes longer by it, and a line that was empty stays so; that a line becomes empty only now can
only make the text smaller.
-/

namespace Minifier

open Pattern Text

/-! ### Rules that drop or narrow -/

namespace Rule

variable {rule : Rule} {name : String} {accepts : Char → Bool}

/-- A rule only drops characters of a class from a match. -/
def DropsOnly (accepts : Char → Bool) (rule : Rule) : Prop :=
  ∀ index prev found behind, rule.pattern.matchAt index prev (found.text ++ behind) = some found →
    Drops accepts found.text (rule.replace found)

theorem DropsOnly.drops_apply (h : rule.DropsOnly accepts) (text : List Char) :
    Drops accepts text (rule.apply text) := by
  refine apply_of_once .refl .trans (fun text => ?_) text
  refine ((edits_replaceAll rule.pattern rule.replace text).mono ?_).drops
  rintro _ old new rest _ ⟨index, prev, found, hfound, rfl, rfl⟩
  exact h index prev found rest hfound

/-- A mark stays and blanks around it go. -/
theorem dropsOnly_around (name : String) (accepts : Char → Bool) (marks : List Char) :
    (Rule.keepPart name (run accepts ++ part 1 (oneOf marks) ++ run accepts)).DropsOnly accepts := by
  intro index prev found behind hfound
  obtain ⟨_, _, -, ⟨_, after, _, _, ⟨before, mark, _, _, ⟨hbefore, rfl⟩, ⟨_, hmark, rfl⟩, rfl, rfl⟩, ⟨hafter, rfl⟩,
    htext, rfl⟩, hlabels⟩ := Match.exists_takes hfound
  obtain ⟨-, rfl⟩ := (takes_oneOf marks).mp hmark
  have hpart : found.part 1 = mark := found.part_eq_getD hlabels 1
  have hdrops := ((Drops.of_forall hbefore).append (.refl mark)).append (.of_forall hafter)
  simpa [Rule.keepPart, htext, hpart] using hdrops

/-- A rule puts something narrower in the place of a match. -/
def NarrowsOnly (rule : Rule) : Prop :=
  ∀ index prev found behind, rule.pattern.matchAt index prev (found.text ++ behind) = some found →
    Narrows found.text (rule.replace found)

theorem NarrowsOnly.narrows_apply (h : rule.NarrowsOnly) (text : List Char) : Narrows text (rule.apply text) := by
  refine apply_of_once .refl .trans (fun text => ?_) text
  refine ((edits_replaceAll rule.pattern rule.replace text).mono ?_).narrows
  rintro _ old new rest _ ⟨index, prev, found, hfound, rfl, rfl⟩
  exact h index prev found rest hfound

/-- What a match takes and what its parts take is all that a rule is asked about. -/
theorem NarrowsOnly.of_takes
    (h : ∀ prev found behind parts, rule.pattern.Takes prev found.text behind parts →
      (∀ n, found.part n = (parts.lookup (.part n)).getD []) → Narrows found.text (rule.replace found)) :
    rule.NarrowsOnly := by
  intro index prev found behind hfound
  obtain ⟨behind', parts, -, htakes, hlabels⟩ := Match.exists_takes hfound
  exact h prev found behind' parts htakes (found.part_eq_getD hlabels)

end Rule

theorem Pipeline.narrows_run {pipeline : Pipeline} (h : pipeline.Each Rule.NarrowsOnly) (text : List Char) :
    Narrows text (pipeline.run text) :=
  run_of_apply .refl .trans (fun rule hrule => (h rule hrule).narrows_apply) text

/-! ### Blanks dropped before -/

namespace Drops

variable {old new line line' last last' : List Char} {ended ended' : List (List Char)}

theorem collapseHorizontal (h : Drops Class.spaceTab old new) :
    Drops Class.spaceTab (Spacing.collapseHorizontal.apply old) (Spacing.collapseHorizontal.apply new) := by
  rw [Spacing.collapseHorizontal_apply, Spacing.collapseHorizontal_apply]
  exact h.squeeze (fun _ => Class.of_spaceTab rfl rfl) rfl

theorem collapseWhitespace (h : Drops isBlank old new) :
    Drops isBlank (Spacing.collapseWhitespace.apply old) (Spacing.collapseWhitespace.apply new) := by
  rw [Spacing.collapseWhitespace_apply, Spacing.collapseWhitespace_apply]
  exact h.squeeze (fun _ hc => hc) rfl

theorem trimLine (h : Drops Class.spaceTab line line') :
    Drops Class.spaceTab (Spacing.trimLine line) (Spacing.trimLine line') :=
  (h.dropWhile fun _ hc => hc).dropTail fun _ hc => Spacing.tailBlank_of_spaceTab hc

theorem trimLines (h : Drops Class.spaceTab old new) :
    Drops Class.spaceTab (Spacing.trimLines.apply old) (Spacing.trimLines.apply new) := by
  obtain ⟨ended, last, rfl, hlines⟩ := Text.exists_joinLines old
  obtain ⟨ended', last', rfl, hended, hlast⟩ := h.exists_joinLines rfl
  rw [Spacing.trimLines_apply hlines, Spacing.trimLines_apply (areLines hended hlast hlines)]
  refine .joinLines ?_ hlast.trimLine
  rw [List.forall₂_map_left_iff, List.forall₂_map_right_iff]
  exact hended.imp fun _ _ hline => hline.trimLine

/-- Without spaces and tabs an empty line is still empty. -/
theorem isEmptyLine (h : Drops Class.spaceTab line line') (hempty : Spacing.isEmptyLine line = true) :
    Spacing.isEmptyLine line' = true := by
  have htail := h.dropWhile fun _ hc => hc
  simp only [Spacing.isEmptyLine, Bool.or_eq_true, List.isEmpty_iff, beq_iff_eq] at hempty ⊢
  rcases hempty with hnil | hreturn
  · rw [hnil] at htail
    exact Or.inl (htail.eq_of_forall_not (by simp))
  · rw [hreturn] at htail
    exact Or.inr (htail.eq_of_forall_not (List.forall_mem_singleton.mpr rfl))

/-- So all empty lines that went still go. -/
theorem emptyLines_sublist (h : Drops Class.spaceTab old new) :
    (Spacing.emptyLines.apply new).Sublist (Spacing.emptyLines.apply old) := by
  obtain ⟨ended, last, rfl, hlines⟩ := Text.exists_joinLines old
  obtain ⟨ended', last', rfl, hended, hlast⟩ := h.exists_joinLines rfl
  rw [Spacing.emptyLines_apply hlines, Spacing.emptyLines_apply (areLines hended hlast hlines)]
  clear h hlines
  induction hended with
  | nil => exact hlast.sublist
  | @cons line line' ended ended' hline _ ih =>
    cases hempty : Spacing.isEmptyLine line with
    | true =>
      simp only [List.filter_cons, hempty, hline.isEmptyLine hempty, Bool.not_true, Bool.false_eq_true, if_false]
      exact ih
    | false =>
      cases hempty' : Spacing.isEmptyLine line' with
      | true =>
        simp only [List.filter_cons, hempty, hempty', Bool.not_true, Bool.not_false, Bool.false_eq_true, if_false,
          if_true]
        exact (ih.cons '\n').trans (List.sublist_append_right line _)
      | false =>
        simp only [List.filter_cons, hempty, hempty', Bool.not_false, if_true]
        exact hline.sublist.append (ih.cons_cons '\n')

end Drops

/-! ### Line breaks that stand alone -/

/-- No blank follows a line break. -/
def BreaksAlone (text : List Char) : Prop := text.IsChain fun c d => c = '\n' → isBlank d = false

theorem breaksAlone_cons {c : Char} {rest : List Char} :
    BreaksAlone (c :: rest) ↔ (c = '\n' → ∀ d ∈ rest.head?, isBlank d = false) ∧ BreaksAlone rest := by
  rw [BreaksAlone, List.isChain_cons]
  exact and_congr_left' ⟨fun h hc d hd => h d hd hc, fun h d hd hc => h hc d hd⟩

theorem breaksAlone_of_not_mem {text : List Char} (h : '\n' ∉ text) : BreaksAlone text := by
  induction text with
  | nil => exact .nil
  | cons c rest ih =>
    obtain ⟨hc, hrest⟩ := not_or.mp (mt List.mem_cons.mpr h)
    exact breaksAlone_cons.mpr ⟨fun heq => absurd heq.symm hc, ih hrest⟩

namespace Spacing

variable {line last text : List Char} {ended : List (List Char)}

theorem isBlank_of_isEmptyLine (h : isEmptyLine line = true) : ∀ c ∈ line, isBlank c = true := by
  obtain ⟨blanks, hblanks, hline⟩ := isEmptyLine_iff.mp h
  have hall : ∀ c ∈ blanks, isBlank c = true := fun c hc => Class.isBlank_of_spaceTab (hblanks c hc)
  rcases hline with rfl | rfl
  · exact hall
  · exact List.forall_mem_append.mpr ⟨hall, List.forall_mem_singleton.mpr rfl⟩

/-- Where line breaks stand alone and no blank comes first, no line is empty. -/
private theorem filter_eq_self (h : BreaksAlone (joinLines ended last))
    (hfirst : ∀ c ∈ (joinLines ended last).head?, isBlank c = false) :
    (ended.filter fun line => !isEmptyLine line) = ended := by
  induction ended with
  | nil => rfl
  | cons line ended ih =>
    have hline : isEmptyLine line = false := by
      rw [Bool.eq_false_iff]
      intro hempty
      cases line with
      | nil => exact absurd (hfirst '\n' rfl) (by decide)
      | cons c line =>
        have hblank := isBlank_of_isEmptyLine hempty c List.mem_cons_self
        rw [hfirst c rfl] at hblank
        cases hblank
    obtain ⟨hnext, hrest⟩ := breaksAlone_cons.mp (List.IsChain.right_of_append h)
    rw [List.filter_cons_of_pos (by simp [hline]), ih hrest (hnext rfl)]

/-- Only the first line of such a text may be empty, and trimming takes it away in any case. -/
theorem trim_emptyLines_apply (h : BreaksAlone text) : trim (emptyLines.apply text) = trim text := by
  obtain ⟨ended, last, rfl, hlines⟩ := exists_joinLines text
  rw [emptyLines_apply hlines]
  cases ended with
  | nil => rfl
  | cons line ended =>
    obtain ⟨hnext, hrest⟩ := breaksAlone_cons.mp (List.IsChain.right_of_append h)
    by_cases hempty : isEmptyLine line = true
    · have hblank := isBlank_of_isEmptyLine hempty
      rw [List.filter_cons_of_neg (by simp [hempty]), filter_eq_self hrest (hnext rfl), joinLines_cons, trim, trim,
        List.dropWhile_append_of_pos hblank, List.dropWhile_cons_of_pos (by decide)]
    · rw [List.filter_cons_of_pos (by simp [hempty]), filter_eq_self hrest (hnext rfl)]

end Spacing

end Minifier
