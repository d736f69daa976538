import Minifier.Proofs.Masking.Slots
import Minifier.Proofs.Rule.Carry
import Minifier.Proofs.Text.Basic

/-!
Blanks in masked texts. They belong to no placeholder, so they may go wherever they stand, and what stands
between them is restored as it would be with them.
-/

namespace Minifier

open Template

namespace Text

variable {blanks : List Char}

theorem unreserved_of_blank (h : ∀ c ∈ blanks, isBlank c = true) : Unreserved blanks := by
  have hnone : isBlank Placeholder.opening = false ∧ isBlank Placeholder.closing = false := by decide
  constructor
  · exact fun hmem => Bool.false_ne_true (hnone.1.symm.trans (h _ hmem))
  · exact fun hmem => Bool.false_ne_true (hnone.2.symm.trans (h _ hmem))

theorem isDigit_of_isBlank {c : Char} (h : isBlank c = true) : c.isDigit = false := by
  by_contra hdigit
  have hrange : 48 ≤ c.toNat ∧ c.toNat ≤ 57 := by
    simp only [Bool.not_eq_false, Char.isDigit, Bool.and_eq_true, decide_eq_true_eq] at hdigit
    exact ⟨UInt32.le_iff_toNat_le.mp hdigit.1, UInt32.le_iff_toNat_le.mp hdigit.2⟩
  simp [isBlank] at h
  omega

theorem clear_of_blank (h : ∀ c ∈ blanks, isBlank c = true) (hne : blanks ≠ []) : Clear blanks := by
  obtain ⟨c, more, rfl⟩ := List.exists_cons_of_ne_nil hne
  exact ⟨unreserved_of_blank h, c, List.mem_cons_self, isDigit_of_isBlank (h c List.mem_cons_self)⟩

/-- Blanks belong to no placeholder, so they may go wherever they stand. -/
theorem carriedTo_of_blank (hblank : ∀ c ∈ blanks, isBlank c = true) (before behind : List Char) :
    CarriedTo Eq (before ++ (blanks ++ behind)) (before ++ behind) := by
  by_cases hne : blanks = []
  · subst hne
    exact .refl keeping_eq _
  · intro template hclean htext
    obtain ⟨first, last, rfl, rfl, rfl⟩ := exists_split htext (clear_of_blank hblank hne)
    simp only [clean_append] at hclean
    exact ⟨first ++ last, clean_append.mpr ⟨hclean.1.1, hclean.2⟩, by simp, by simp⟩

theorem carriedTo_trim (text : List Char) : CarriedTo Eq text (trim text) := by
  obtain ⟨before, behind, hbefore, hbehind, htext⟩ := padded_trim text
  have hfirst := carriedTo_of_blank hbefore [] (trim text ++ behind)
  have hsecond := carriedTo_of_blank hbehind (trim text) []
  rw [List.nil_append, List.nil_append, ← htext] at hfirst
  rw [List.append_nil, List.append_nil] at hsecond
  exact hfirst.trans keeping_eq hsecond

theorem trim_sublist (text : List Char) : (trim text).Sublist text := by
  obtain ⟨before, behind, -, -, htext⟩ := padded_trim text
  have hinfix : trim text <:+: text := ⟨before, behind, by rw [List.append_assoc, ← htext]⟩
  exact hinfix.sublist

end Text

namespace Template

variable {template : Template} {core text : List Char}

/-- The blanks around a masked text are code. -/
theorem exists_of_padded (h : Text.Padded core text) (htext : template.render = text) :
    ∃ before middle behind, (∀ c ∈ before, Text.isBlank c = true) ∧ (∀ c ∈ behind, Text.isBlank c = true) ∧
      template = ofCode before ++ (middle ++ ofCode behind) ∧ middle.render = core := by
  obtain ⟨before, behind, hbefore, hbehind, rfl⟩ := h
  obtain ⟨rest, rfl, hrest⟩ := exists_of_render_eq htext (Text.unreserved_of_blank hbefore)
  by_cases hne : behind = []
  · subst hne
    exact ⟨before, rest, [], hbefore, hbehind, by simp [ofCode], by simpa using hrest⟩
  · have hlast : rest.render = core ++ (behind ++ []) := by rw [hrest, List.append_nil]
    obtain ⟨middle, last, rfl, hmiddle, hnil⟩ := exists_split hlast (Text.clear_of_blank hbehind hne)
    obtain rfl := eq_nil_of_render hnil
    exact ⟨before, middle, behind, hbefore, hbehind, by simp, hmiddle⟩

end Template

/-- If a masked text is restored to the text, then what stands between blanks in it is restored to what
stands between them in the text. -/
theorem Layout.padded_unmask {scanned masked : MaskedText} {text core : List Char} {inner : Nat → Template}
    {source code : Template} (h : Layout scanned masked text inner source code) (htext : Unreserved text)
    (hback : masked.unmask masked.text = text) (hcore : Text.Padded core masked.text) :
    Text.Padded (masked.unmask core) text := by
  obtain ⟨before, middle, behind, hbefore, hbehind, rfl, rfl⟩ :=
    exists_of_padded hcore h.masked_text.symm
  have hclean := h.clean
  simp only [clean_append] at hclean
  have hslots : middle.slots = (ofCode before ++ (middle ++ ofCode behind)).slots := by simp
  have hkeeps : KeepsSlots False middle (ofCode before ++ (middle ++ ofCode behind)) :=
    ⟨hslots ▸ .refl _, fun _ => hslots⟩
  have hkeeps' : KeepsSlots False (ofCode before ++ (middle ++ ofCode behind)) _ := ⟨.refl _, fun _ => rfl⟩
  have hmiddle := h.unmask_render htext hclean.2.1 hkeeps
  have hwhole := h.unmask_render htext h.clean hkeeps'
  rw [← h.masked_text, hback] at hwhole
  refine ⟨before, behind, hbefore, hbehind, ?_⟩
  rw [hwhole, hmiddle, fill_expand, fill_expand]
  simp

end Minifier
