import Minifier.Proofs.Minify.Literals
import Minifier.Proofs.Rule.Gaps
import Minifier.Proofs.Rule.ZeroUnits

/-!
Selectors in a minified style sheet. The rules for blanks do not ask whether a mark stands in a selector or in a
declaration, so what becomes of the blanks between two words depends on the characters next to them only.
-/

namespace Minifier.Style

open Pattern

variable {options : Options} {c d : Char} {gap : List Char}

/-! ### Blanks -/

theorem isBlank_of_mem_marks : ∀ c ∈ punctuationMarks, Text.isBlank c = false := Text.forall_mem_of_all (by decide)

theorem editsBlanks_punctuation : EditsBlanks punctuation.apply :=
  Rule.editsBlanks_aroundMarks id isBlank_of_mem_marks 'a' (by decide) (by decide)

theorem editsBlanks_punctuationInline : EditsBlanks punctuationInline.apply :=
  Rule.editsBlanks_aroundMarks Spacing.spaceTab_eq_false isBlank_of_mem_marks 'a' (by decide) (by decide)

theorem bridges_punctuation (hc : Text.isBlank c = false) (hd : Text.isBlank d = false)
    (hgap : ∀ x ∈ gap, Text.isBlank x = true) :
    Bridges punctuation.apply c d gap (if c ∈ punctuationMarks ∨ d ∈ punctuationMarks then [] else gap) :=
  bridges_aroundMarks isBlank_of_mem_marks 'a' (by decide) (by decide) hc hd hgap

theorem bridges_punctuationInline (hc : Text.isBlank c = false) (hd : Text.isBlank d = false)
    (hgap : ∀ x ∈ gap, Class.spaceTab x = true) :
    Bridges punctuationInline.apply c d gap (if c ∈ punctuationMarks ∨ d ∈ punctuationMarks then [] else gap) :=
  bridges_aroundMarks (fun x hx => Spacing.spaceTab_eq_false (isBlank_of_mem_marks x hx)) 'a' (by decide)
    (by decide) (Spacing.spaceTab_eq_false hc) (Spacing.spaceTab_eq_false hd) hgap

/-- The rules for blanks, at every level but the light one. -/
def spacing (options : Options) : Pipeline :=
  Pipeline.onlyIf options.removeWhitespace
    (if options.preserveLineBreaks then [Spacing.collapseHorizontal, Spacing.trimLines, punctuationInline]
    else [Spacing.collapseWhitespace, punctuation]) ++
  Pipeline.onlyIf options.removeEmptyLines [Spacing.emptyLines]

theorem pipeline_eq (h : options.isAggressive = true) :
    pipeline options =
      spacing options ++ [semicolonBrace, zeroUnits, leadingZero, fontWeight] ++ [Spacing.trimEnds] := by
  have htightens : options.tightens = true := by
    rw [Options.tightens, beq_iff_eq.mp h]
    rfl
  simp [pipeline, spacing, h, htightens, Pipeline.onlyIf]

theorem each_spacing {property : Rule → Prop} (hwhitespace : property Spacing.collapseWhitespace)
    (hhorizontal : property Spacing.collapseHorizontal) (hlines : property Spacing.trimLines)
    (hfree : property punctuation) (hinline : property punctuationInline) (hempty : property Spacing.emptyLines) :
    (spacing options).Each property := by
  refine .append (.onlyIf fun _ => ?_) (.onlyIf fun _ => .cons hempty .nil)
  split
  · exact .cons hhorizontal (.cons hlines (.cons hinline .nil))
  · exact .cons hwhitespace (.cons hfree .nil)

theorem editsBlanks_spacing (options : Options) : EditsBlanks (spacing options).run :=
  Pipeline.editsBlanks_run (each_spacing Spacing.editsBlanks_collapseWhitespace Spacing.editsBlanks_collapseHorizontal
    Spacing.editsBlanks_trimLines editsBlanks_punctuation editsBlanks_punctuationInline Spacing.editsBlanks_emptyLines)

/-- Whether anything is left of the blanks between two characters. Beside a punctuation mark nothing is, unless blanks
stay anyway, or lines do and the gap is one that lasts. -/
def KeepsGap (options : Options) (besideMark : Prop) (gap : List Char) : Prop :=
  gap ≠ [] ∧ (options.removeWhitespace = false ∨ ¬ besideMark ∨ options.preserveLineBreaks = true ∧ Lasting gap)

/-- What becomes of spaces between two characters: a space, or next to a punctuation mark nothing. -/
def tightGap (c d : Char) (gap : List Char) : List Char :=
  if c ∈ punctuationMarks ∨ d ∈ punctuationMarks then [] else spaceFor gap

theorem eq_space_of_mem_tightGap {x : Char} (h : x ∈ tightGap c d gap) : x = ' ' := by
  unfold tightGap at h
  split at h
  · cases h
  · exact eq_space_of_mem_spaceFor h

theorem tightGap_ne_nil_iff :
    tightGap c d gap ≠ [] ↔ gap ≠ [] ∧ ¬ (c ∈ punctuationMarks ∨ d ∈ punctuationMarks) := by
  unfold tightGap
  split
  · rename_i hmarks
    simp [hmarks]
  · rename_i hmarks
    cases gap with
    | nil => simp [spaceFor]
    | cons x gap => simp [spaceFor, hmarks]

/-- Where every blank becomes a space. -/
theorem bridges_collapsed (hc : Text.isBlank c = false) (hd : Text.isBlank d = false)
    (hgap : ∀ x ∈ gap, Text.isBlank x = true) :
    Bridges (Pipeline.run [Spacing.collapseWhitespace, punctuation]) c d gap (tightGap c d gap) :=
  (bridges_put_run1 hc hd hgap).pipeline_cons <|
    (bridges_punctuation hc hd fun _ hx => eq_space_of_mem_spaceFor hx ▸ rfl).pipeline_cons (.pipeline_nil c d _)

/-- Where lines stay, and all blanks are within one. -/
theorem bridges_within_line (hc : Text.isBlank c = false) (hd : Text.isBlank d = false) (hgap : ¬ Lasting gap) :
    Bridges (Pipeline.run [Spacing.collapseHorizontal, Spacing.trimLines, punctuationInline]) c d gap
      (tightGap c d gap) := by
  have hhorizontal : Bridges Spacing.collapseHorizontal.apply c d gap (spaceFor gap) :=
    bridges_put_run1 (Spacing.among_eq_false hc (by decide)) (Spacing.among_eq_false hd (by decide))
      (horizontal_of_not_lasting hgap)
  have hbreak : '\n' ∉ spaceFor gap := fun h => absurd (eq_space_of_mem_spaceFor h) (by decide)
  exact hhorizontal.pipeline_cons <| (Spacing.bridges_trimLines hc hd hbreak).pipeline_cons <|
    (bridges_punctuationInline hc hd fun _ hx => eq_space_of_mem_spaceFor hx ▸ rfl).pipeline_cons (.pipeline_nil c d _)

theorem bridges_onlyIf_emptyLines (hc : Text.isBlank c = false) (hd : Text.isBlank d = false) (hgap : '\n' ∉ gap)
    (condition : Bool) : Bridges (Pipeline.onlyIf condition [Spacing.emptyLines]).run c d gap gap := by
  cases condition with
  | true => exact (Spacing.bridges_emptyLines hc hd hgap).pipeline_cons (.pipeline_nil c d gap)
  | false => exact .pipeline_nil c d gap

/-- Where blanks stay anyway, or lines do and the gap is one that lasts. -/
theorem sparesGaps_spacing (h : options.removeWhitespace = true → options.preserveLineBreaks = true) :
    SparesGaps (spacing options).run := by
  refine Pipeline.sparesGaps_run (.append (.onlyIf fun hremove => ?_) (.onlyIf fun _ => ?_))
  · rw [if_pos (h hremove)]
    exact .cons Spacing.sparesGaps_collapseHorizontal (.cons Spacing.sparesGaps_trimLines
      (.cons (sparesGaps_aroundMarks isBlank_of_mem_marks 'a' (by decide) (by decide)) .nil))
  · exact .cons Spacing.sparesGaps_emptyLines .nil

/-- What is left of the blanks between two characters that are none. -/
theorem exists_bridges_spacing (hc : Text.isBlank c = false) (hd : Text.isBlank d = false)
    (hgap : ∀ x ∈ gap, Text.isBlank x = true) :
    ∃ gap', Bridges (spacing options).run c d gap gap' ∧ (∀ x ∈ gap', Text.isBlank x = true) ∧
      (gap' ≠ [] ↔ KeepsGap options (c ∈ punctuationMarks ∨ d ∈ punctuationMarks) gap) := by
  by_cases hspares : (options.removeWhitespace = true → options.preserveLineBreaks = true) ∧ Lasting gap
  · obtain ⟨h, hlasting⟩ := hspares
    obtain ⟨gap', hbridges, hkept⟩ := sparesGaps_spacing h c d hc hd gap hgap
    refine ⟨gap', hbridges, hkept.isBlank hgap, fun _ => ⟨hlasting.ne_nil, ?_⟩, fun _ => (hkept.lasting hlasting).ne_nil⟩
    by_cases hremove : options.removeWhitespace = true
    · exact Or.inr (Or.inr ⟨h hremove, hlasting⟩)
    · exact Or.inl (Bool.eq_false_iff.mpr hremove)
  · have htight : '\n' ∉ tightGap c d gap := fun h => absurd (eq_space_of_mem_tightGap h) (by decide)
    have hblank : ∀ x ∈ tightGap c d gap, Text.isBlank x = true := fun _ hx => eq_space_of_mem_tightGap hx ▸ rfl
    by_cases hremove : options.removeWhitespace = true
    · refine ⟨tightGap c d gap, ?_, hblank, ?_⟩
      · refine Bridges.pipeline_append ?_ (bridges_onlyIf_emptyLines hc hd htight _)
        rw [hremove]
        by_cases hpreserve : options.preserveLineBreaks = true
        · rw [hpreserve]
          exact bridges_within_line hc hd fun hlasting => hspares ⟨fun _ => hpreserve, hlasting⟩
        · rw [Bool.eq_false_iff.mpr hpreserve]
          exact bridges_collapsed hc hd hgap
      · rw [tightGap_ne_nil_iff, KeepsGap]
        refine and_congr_right fun _ => ⟨fun h => Or.inr (Or.inl h), ?_⟩
        rintro (h | h | ⟨hpreserve, hlasting⟩)
        · rw [hremove] at h
          cases h
        · exact h
        · exact absurd ⟨fun _ => hpreserve, hlasting⟩ hspares
    · have hlasting : ¬ Lasting gap := fun hlasting => hspares ⟨fun h => absurd h hremove, hlasting⟩
      have hremove := Bool.eq_false_iff.mpr hremove
      refine ⟨gap, ?_, hgap, fun hne => ⟨hne, Or.inl hremove⟩, And.left⟩
      rw [spacing, hremove]
      exact bridges_onlyIf_emptyLines hc hd (mt Lasting.of_break hlasting) _

/-! ### Words with blanks between them -/

/-- At the default options. -/
theorem bridges_default (hc : Text.isBlank c = false) (hd : Text.isBlank d = false)
    (hgap : ∀ x ∈ gap, Text.isBlank x = true) : Bridges (pipeline {}).run c d gap (tightGap c d gap) := by
  have hbreak : '\n' ∉ tightGap c d gap := fun h => absurd (eq_space_of_mem_tightGap h) (by decide)
  exact (bridges_collapsed hc hd hgap).pipeline_append <|
    (Spacing.bridges_emptyLines hc hd hbreak).pipeline_cons <|
      (Spacing.bridges_trimEnds hc hd).pipeline_cons (.pipeline_nil c d _)

theorem editsBlanks_default : EditsBlanks (pipeline {}).run :=
  Pipeline.editsBlanks_run <| .cons Spacing.editsBlanks_collapseWhitespace <| .cons editsBlanks_punctuation <|
    .cons Spacing.editsBlanks_emptyLines <| .cons Spacing.editsBlanks_trimEnds .nil

variable {content : String} {masked : MaskedText} {left first second right : List Char}

theorem scan_of_mask (hmask : MaskedText.mask lexer options.removeComments content.toList = .ok masked) :
    Stages.scan .css options content.toList = .ok masked := by
  have hlexer : MaskedText.mask (Stages.lexer .css) options.removeComments content.toList = .ok masked := hmask
  rw [Stages.scan, hlexer]
  rfl

theorem minified_of_mask (hmask : MaskedText.mask lexer options.removeComments content.toList = .ok masked)
    (hleft : masked.text ≠ []) : (minifyStyle content options).errors = [] ∧
      (minifyStyle content options).minified.toList = masked.unmask ((pipeline options).run masked.text) :=
  Stages.minified_of_scan (by decide) (scan_of_mask hmask) hleft

/-- Where code is left in what the rules make of a text, what stands on either side of it is restored by itself. -/
theorem minified_around {front mid back : List Char}
    (hmask : MaskedText.mask lexer options.removeComments content.toList = .ok masked) (hleft : masked.text ≠ [])
    (hrun : (pipeline options).run masked.text = left ++ (front ++ (mid ++ (back ++ right))))
    (hpiece : Clear (front ++ (mid ++ back))) :
    (minifyStyle content options).errors = [] ∧ (minifyStyle content options).minified.toList =
      masked.unmask (left ++ front) ++ (mid ++ masked.unmask (back ++ right)) :=
  Stages.minified_around (by decide) (by simp) (scan_of_mask hmask) hleft hrun hpiece

theorem clear_of_mem_marks (hc : c ∈ punctuationMarks) : Clear [c] := by
  have hmarks : ∀ c ∈ punctuationMarks, Unreserved [c] ∧ c.isDigit = false := Text.forall_mem_of_all (by decide)
  exact ⟨(hmarks c hc).1, c, List.mem_singleton_self c, (hmarks c hc).2⟩

/-- At the default options blanks between two words become a space, unless a punctuation mark stands next to them. Then
they go, and the text is the same as without them. A colon is such a mark wherever it stands: also where it begins a
pseudo-class, so that a descendant can no longer be told from what it descends from. -/
theorem words_gap (hmask : MaskedText.mask lexer true content.toList = .ok masked)
    (htext : masked.text = left ++ (first ++ c :: (gap ++ d :: (second ++ right))))
    (hfirst : ∀ x ∈ first ++ [c], Text.isBlank x = false) (hsecond : ∀ x ∈ d :: second, Text.isBlank x = false)
    (hgap : ∀ x ∈ gap, Text.isBlank x = true) (hne : gap ≠ []) :
    (minifyStyle content {}).errors = [] ∧
      (∃ before behind, (pipeline {}).run (left ++ (first ++ [c])) = before ++ (first ++ [c]) ∧
        (pipeline {}).run (d :: (second ++ right)) = d :: (second ++ behind) ∧
        (minifyStyle content {}).minified.toList = masked.unmask (before ++ (first ++ [c])) ++
          ((if c ∈ punctuationMarks ∨ d ∈ punctuationMarks then [] else [' ']) ++
            masked.unmask (d :: (second ++ behind)))) ∧
      (c ∈ punctuationMarks ∨ d ∈ punctuationMarks → (minifyStyle content {}).minified.toList =
        masked.unmask ((pipeline {}).run (left ++ (first ++ c :: d :: (second ++ right))))) := by
  have hc : Text.isBlank c = false := hfirst c (by simp)
  have hd : Text.isBlank d = false := hsecond d List.mem_cons_self
  obtain ⟨before, behind, hbefore, hbehind, haround⟩ := editsBlanks_default.exists_around hfirst hsecond left right
  have hrun := fun mid hmid => haround mid _ (bridges_default hc hd hmid)
  have hedit : (pipeline {}).run masked.text =
      before ++ (first ++ c :: (tightGap c d gap ++ d :: (second ++ behind))) := by
    rw [htext, hrun gap hgap]
  have hleft : masked.text ≠ [] := by simp [htext]
  have hmask : MaskedText.mask lexer (Options.removeComments {}) content.toList = .ok masked := hmask
  by_cases hmarks : c ∈ punctuationMarks ∨ d ∈ punctuationMarks
  · have htight : ∀ mid, tightGap c d mid = [] := fun mid => if_pos hmarks
    rw [htight] at hedit
    have hsame : (pipeline {}).run masked.text = (pipeline {}).run (left ++ (first ++ c :: d :: (second ++ right))) := by
      have hnone := hrun [] (List.forall_mem_nil _)
      rw [htight] at hnone
      exact hedit.trans hnone.symm
    have hcut : (minifyStyle content {}).errors = [] ∧ (minifyStyle content {}).minified.toList =
        masked.unmask (before ++ (first ++ [c])) ++ ([] ++ masked.unmask (d :: (second ++ behind))) := by
      rcases hmarks with hmark | hmark
      · have hsplit : (pipeline {}).run masked.text =
            (before ++ first) ++ ([c] ++ ([] ++ ([] ++ d :: (second ++ behind)))) := by simpa using hedit
        simpa using minified_around hmask hleft hsplit (clear_of_mem_marks hmark)
      · have hsplit : (pipeline {}).run masked.text =
            (before ++ (first ++ [c])) ++ ([] ++ ([] ++ ([d] ++ (second ++ behind)))) := by simpa using hedit
        simpa using minified_around hmask hleft hsplit (clear_of_mem_marks hmark)
    rw [if_pos hmarks]
    refine ⟨hcut.1, ⟨before, behind, hbefore, hbehind, hcut.2⟩, fun _ => ?_⟩
    rw [(minified_of_mask hmask hleft).2, hsame]
  · have htight : tightGap c d gap = [' '] := by
      obtain ⟨x, gap, rfl⟩ := List.exists_cons_of_ne_nil hne
      exact if_neg hmarks
    rw [htight] at hedit
    rw [if_neg hmarks]
    have hsplit : (pipeline {}).run masked.text =
        (before ++ (first ++ [c])) ++ ([] ++ ([' '] ++ ([] ++ d :: (second ++ behind)))) := by simpa using hedit
    have hcut := minified_around hmask hleft hsplit ⟨by decide, ' ', by simp, rfl⟩
    rw [List.append_nil, List.nil_append] at hcut
    exact ⟨hcut.1, ⟨before, behind, hbefore, hbehind, hcut.2⟩, fun h => absurd h hmarks⟩

/-- Two selectors, of which the second is no pseudo-class. -/
theorem words_gap_hover :
    MaskedText.mask lexer true ".a :hover \x7b\x7d".toList = .ok ⟨".a :hover \x7b\x7d".toList, #[]⟩ ∧
      (minifyStyle ".a :hover \x7b\x7d" {}).errors = [] ∧
      (minifyStyle ".a :hover \x7b\x7d" {}).minified.toList = MaskedText.unmask ⟨".a :hover \x7b\x7d".toList, #[]⟩
        ((pipeline {}).run ".a:hover \x7b\x7d".toList) := by
  have hmask : MaskedText.mask lexer true ".a :hover \x7b\x7d".toList = .ok ⟨".a :hover \x7b\x7d".toList, #[]⟩ := by
    decide +kernel
  have htext : ".a :hover \x7b\x7d".toList =
      [] ++ (['.'] ++ 'a' :: ([' '] ++ ':' :: ("hover".toList ++ " \x7b\x7d".toList))) := rfl
  obtain ⟨herrors, -, hsame⟩ := words_gap hmask htext (Text.forall_mem_of_all (by decide))
    (Text.forall_mem_of_all (by decide)) (Text.forall_mem_of_all (by decide)) (by decide)
  exact ⟨hmask, herrors, hsame (by decide)⟩

/-- A descendant becomes the element itself. -/
theorem minifyStyle_hover :
    minifyStyle ".a :hover \x7b\x7d" {} = .ofTexts ".a :hover \x7b\x7d" ".a:hover\x7b\x7d" [] ∧
      minifyStyle ".a:hover \x7b\x7d" {} = .ofTexts ".a:hover \x7b\x7d" ".a:hover\x7b\x7d" [] := by
  decide +kernel

end Minifier.Style
