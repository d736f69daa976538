import Minifier.Proofs.Minify.LineBreaks
import Minifier.Proofs.Minify.Sizes
import Minifier.Proofs.Rule.Tightening

/-!
Levels. A higher level has more rules, and they run in the middle of a pipeline: the rules behind them get
another text. So what these make of the one text is compared with what they make of the other, and not only the
size of what the additional rules take.
-/

namespace Minifier

open Pattern Template Text

/-! ### Blanks around punctuation -/

/-- One text is what another one is left as by rules that drop blanks before empty lines go: either only spaces and
tabs were dropped, or no line of the other text is empty but for the first. -/
def Tighter (old new : List Char) : Prop :=
  Drops Class.spaceTab old new ∨ new.Sublist old ∧ BreaksAlone old

theorem Tighter.refl (text : List Char) : Tighter text text := Or.inl (.refl text)

/-- The tighter text stays the narrower one when empty lines and the blanks at the ends go. -/
theorem Tighter.narrows {old new : List Char} (h : Tighter old new) (removeEmptyLines : Bool) :
    Narrows (trim ((Pipeline.onlyIf removeEmptyLines [Spacing.emptyLines]).run old))
      (trim ((Pipeline.onlyIf removeEmptyLines [Spacing.emptyLines]).run new)) := by
  have hdrops : Spacing.emptyLines.DropsOnly fun _ => true :=
    fun _ _ found _ _ => .of_forall fun _ _ => rfl
  cases removeEmptyLines with
  | false =>
    rcases h with h | ⟨hsublist, -⟩
    · exact (Narrows.of_sublist h.sublist).trim
    · exact (Narrows.of_sublist hsublist).trim
  | true =>
    rcases h with h | ⟨hsublist, hbreaks⟩
    · exact (Narrows.of_sublist h.emptyLines_sublist).trim
    · have hold : trim (Spacing.emptyLines.apply old) = trim old := Spacing.trim_emptyLines_apply hbreaks
      have hnew := (hdrops.drops_apply new).sublist.trans hsublist
      have hnarrows := (Narrows.of_sublist hnew).trim
      rwa [← hold] at hnarrows

/-- A pipeline by level: rules that are always there, rules for blanks of which some may tighten, empty lines, rules
of the aggressive level and the ends of the text. -/
structure Levelled (pipeline : Level → Pipeline) (first : Pipeline) (blanks : Bool → Pipeline)
    (removeEmptyLines : Bool) (extra : Pipeline) : Prop where
  eq : ∀ level, pipeline level = first ++ blanks level.tightens ++
    Pipeline.onlyIf removeEmptyLines [Spacing.emptyLines] ++ Pipeline.onlyIf (level == .aggressive) extra ++
    [Spacing.trimEnds]
  tighter : ∀ text, Tighter ((blanks false).run text) ((blanks true).run text)
  narrows : extra.Each Rule.NarrowsOnly

/-- At a higher level such a pipeline leaves no more. -/
theorem Levelled.byteSize_run_le {pipeline : Level → Pipeline} {first extra : Pipeline} {blanks : Bool → Pipeline}
    {removeEmptyLines : Bool} (h : Levelled pipeline first blanks removeEmptyLines extra) {low high : Level}
    (hlevel : low.rank ≤ high.rank) (text : List Char) :
    byteSize ((pipeline high).run text) ≤ byteSize ((pipeline low).run text) := by
  by_cases heq : low = high
  · rw [heq]
  have hlow : (low == .aggressive) = false := by
    revert hlevel heq
    cases low <;> cases high <;> decide
  have htightens : low.tightens = true → high.tightens = true := by
    revert hlevel
    cases low <;> cases high <;> decide
  have htighter : ∀ text, Tighter ((blanks low.tightens).run text) ((blanks high.tightens).run text) := by
    intro text
    cases hlow : low.tightens with
    | true =>
      rw [htightens hlow]
      exact .refl _
    | false =>
      cases high.tightens with
      | true => exact h.tighter text
      | false => exact .refl _
  have hends (text : List Char) : Pipeline.run [Spacing.trimEnds] text = trim text := Spacing.trimEnds_apply text
  have hextra : (Pipeline.onlyIf (high == .aggressive) extra).Each Rule.NarrowsOnly := .onlyIf fun _ => h.narrows
  simp only [h.eq, Pipeline.run_append, hends, hlow]
  have hbefore := (htighter (first.run text)).narrows removeEmptyLines
  have hafter := (Pipeline.narrows_run hextra
    ((Pipeline.onlyIf removeEmptyLines [Spacing.emptyLines]).run ((blanks high.tightens).run (first.run text)))).trim
  exact (hbefore.trans hafter).byteSize_le

/-! ### Languages -/

/-- Where every blank has become a space, no line break is left. -/
theorem Spacing.breaksAlone_collapseWhitespace (text : List Char) :
    BreaksAlone (collapseWhitespace.apply text) := by
  rw [collapseWhitespace_apply]
  exact breaksAlone_of_not_mem (not_mem_squeezeFrom rfl (by decide) false text)

/-- Spaces and tabs around marks may go behind any rules. -/
theorem tighter_of_dropsOnly {rule : Rule} (h : rule.DropsOnly Class.spaceTab) (first : Pipeline) (text : List Char) :
    Tighter ((first ++ Pipeline.onlyIf false [rule]).run text) ((first ++ Pipeline.onlyIf true [rule]).run text) := by
  simp only [Pipeline.run_append]
  exact Or.inl (h.drops_apply _)

/-- Any blanks may go behind rules that leave no line empty. -/
theorem tighter_of_breaksAlone {rule : Rule} {accepts : Char → Bool} (h : rule.DropsOnly accepts) (first : Pipeline)
    {text : List Char} (hbreaks : BreaksAlone (first.run text)) :
    Tighter ((first ++ Pipeline.onlyIf false [rule]).run text) ((first ++ Pipeline.onlyIf true [rule]).run text) := by
  simp only [Pipeline.run_append]
  exact Or.inr ⟨(h.drops_apply _).sublist, hbreaks⟩

/-- Rules for blanks that run only if blanks are to go. -/
theorem tighter_onlyIf {condition : Bool} {rules rules' : Pipeline} {text : List Char}
    (h : Tighter (rules.run text) (rules'.run text)) :
    Tighter ((Pipeline.onlyIf condition rules).run text) ((Pipeline.onlyIf condition rules').run text) := by
  cases condition with
  | true => exact h
  | false => exact .refl text

namespace Generic

/-- The rules for blanks of a language. -/
def blankRules (language : Language) (options : Options) (tightens : Bool) : Pipeline :=
  let tighten := tightens && plainDelimiters language.commentStyle
  let withinLines :=
    [Spacing.collapseHorizontal, Spacing.trimLines] ++ Pipeline.onlyIf tighten [loosePunctuation]
  Pipeline.onlyIf options.removeWhitespace
    (match language.lineRole with
    | .indentation => [Spacing.trailingSpace, Spacing.innerSpaces]
    | .lines => withinLines
    | .freeForm =>
      if options.preserveLineBreaks then withinLines
      else [Spacing.collapseWhitespace] ++ Pipeline.onlyIf tighten [freePunctuation])

theorem tighter_blankRules (language : Language) (options : Options) (text : List Char) :
    Tighter ((blankRules language options false).run text) ((blankRules language options true).run text) := by
  have hloose : loosePunctuation.DropsOnly Class.spaceTab := Rule.dropsOnly_around _ _ _
  have hfree : freePunctuation.DropsOnly isBlank := Rule.dropsOnly_around _ _ _
  refine tighter_onlyIf ?_
  cases plainDelimiters language.commentStyle with
  | false => exact .refl _
  | true =>
    cases language.lineRole with
    | indentation => exact .refl _
    | lines => exact tighter_of_dropsOnly hloose _ text
    | freeForm =>
      cases options.preserveLineBreaks with
      | true => exact tighter_of_dropsOnly hloose _ text
      | false => exact tighter_of_breaksAlone hfree _ (Spacing.breaksAlone_collapseWhitespace text)

theorem levelled_pipeline (language : Language) (options : Options) :
    Levelled (fun level => pipeline language (options.withLevel level)) [] (blankRules language options)
      options.removeEmptyLines [] where
  eq level := by
    have hnone : Pipeline.onlyIf (level == .aggressive) [] = [] := by
      cases level <;> rfl
    rw [hnone, List.append_nil]
    rfl
  tighter := tighter_blankRules language options
  narrows := .nil

end Generic

namespace Style

/-- The rules for blanks of a stylesheet. -/
def blankRules (options : Options) (tightens : Bool) : Pipeline :=
  Pipeline.onlyIf options.removeWhitespace
    (if options.preserveLineBreaks then
      [Spacing.collapseHorizontal, Spacing.trimLines] ++ Pipeline.onlyIf tightens [punctuationInline]
    else [Spacing.collapseWhitespace] ++ Pipeline.onlyIf tightens [punctuation])

theorem tighter_blankRules (options : Options) (text : List Char) :
    Tighter ((blankRules options false).run text) ((blankRules options true).run text) := by
  have hinline : punctuationInline.DropsOnly Class.spaceTab := Rule.dropsOnly_around _ _ _
  have hfree : punctuation.DropsOnly isBlank := Rule.dropsOnly_around _ _ _
  refine tighter_onlyIf ?_
  cases options.preserveLineBreaks with
  | true => exact tighter_of_dropsOnly hinline _ text
  | false => exact tighter_of_breaksAlone hfree _ (Spacing.breaksAlone_collapseWhitespace text)

theorem levelled_pipeline (options : Options) :
    Levelled (fun level => pipeline (options.withLevel level)) [] (blankRules options) options.removeEmptyLines
      [semicolonBrace, zeroUnits, leadingZero, fontWeight] where
  eq _ := rfl
  tighter := tighter_blankRules options
  narrows := each_aggressive_narrowsOnly

end Style

namespace Markup

/-- The rules for blanks of a document. -/
def blankRules (options : Options) (tightens : Bool) : Pipeline :=
  Pipeline.onlyIf options.removeWhitespace
    (if options.preserveLineBreaks then
      Pipeline.onlyIf tightens [interTagInline] ++ [Spacing.collapseHorizontal, Spacing.trimLines]
    else
      Pipeline.onlyIf tightens [interTag] ++ [Spacing.collapseWhitespace] ++
        Pipeline.onlyIf tightens [tagCloseSpace])

/-- Blanks between brackets go, and the brackets stay. -/
theorem dropsOnly_between {accepts : Char → Bool} {rule : Rule}
    (hpattern : rule.pattern = char '>' ++ run1 accepts ++ char '<')
    (hreplace : ∀ found, rule.replace found = ['>', '<']) : rule.DropsOnly accepts := by
  intro index prev found behind hfound
  rw [hpattern] at hfound
  obtain ⟨_, _, -, ⟨_, _, _, _, ⟨_, blanks, _, _, hopen, hblanks, rfl, rfl⟩, hclose, htext, rfl⟩, -⟩ :=
    Match.exists_takes hfound
  obtain ⟨rfl, rfl⟩ := (takes_char '>').mp hopen
  obtain ⟨rfl, rfl⟩ := (takes_char '<').mp hclose
  obtain ⟨-, hall, rfl⟩ := (takes_run1 accepts).mp hblanks
  rw [hreplace, htext]
  exact ((Drops.refl ['>']).append (.of_forall hall)).append (.refl ['<'])

theorem dropsOnly_tagCloseSpace : tagCloseSpace.DropsOnly isBlank := by
  intro index prev found behind hfound
  obtain ⟨_, _, -, ⟨blanks, stays, _, _, hblanks, ⟨_, hstays, rfl⟩, htext, rfl⟩, hlabels⟩ := Match.exists_takes hfound
  obtain ⟨-, hall, rfl⟩ := (takes_run1 _).mp hblanks
  have hpart : found.part 1 = stays := found.part_eq_getD hlabels 1
  have hblank : ∀ c ∈ blanks, isBlank c = true := fun c hc => Class.isBlank_of_among rfl (hall c hc)
  have hreplace : tagCloseSpace.replace found = stays := hpart
  rw [hreplace, htext]
  exact (Drops.of_forall hblank).append (.refl stays)

theorem tighter_blankRules (options : Options) (text : List Char) :
    Tighter ((blankRules options false).run text) ((blankRules options true).run text) := by
  have hinline : interTagInline.DropsOnly Class.spaceTab := dropsOnly_between rfl fun _ => rfl
  have hinter : interTag.DropsOnly isBlank := dropsOnly_between rfl fun _ => rfl
  refine tighter_onlyIf ?_
  cases options.preserveLineBreaks with
  | true =>
    simp only [if_true, Pipeline.onlyIf, Bool.false_eq_true, if_false, Pipeline.run_append, Pipeline.run_cons,
      Pipeline.run_nil]
    exact Or.inl (hinline.drops_apply text).collapseHorizontal.trimLines
  | false =>
    simp only [if_true, Pipeline.onlyIf, Bool.false_eq_true, if_false, Pipeline.run_append, Pipeline.run_cons,
      Pipeline.run_nil]
    refine Or.inr ⟨?_, Spacing.breaksAlone_collapseWhitespace text⟩
    have hcollapse := (hinter.drops_apply text).collapseWhitespace
    exact (dropsOnly_tagCloseSpace.drops_apply _).sublist.trans hcollapse.sublist

theorem levelled_pipeline (options : Options) :
    Levelled (fun level => pipeline (options.withLevel level)) [] (blankRules options) options.removeEmptyLines []
    where
  eq level := by
    have hnone : Pipeline.onlyIf (level == .aggressive) [] = [] := by
      cases level <;> rfl
    rw [hnone, List.append_nil]
    rfl
  tighter := tighter_blankRules options
  narrows := .nil

end Markup

namespace Script

/-- The rules for debugging aids. -/
def debugRules (options : Options) : Pipeline :=
  Pipeline.onlyIf options.removeConsoleLog [consoleCall] ++ Pipeline.onlyIf options.removeDebugger [debuggerStatement]

/-- The rules for blanks of a script. -/
def blankRules (options : Options) (tightens : Bool) : Pipeline :=
  Pipeline.onlyIf options.removeWhitespace
    (if options.preserveLineBreaks then
      [Spacing.collapseHorizontal, Spacing.trimLines] ++ Pipeline.onlyIf tightens [punctuationInline]
    else [newlineRuns, Spacing.collapseHorizontal] ++ Pipeline.onlyIf tightens [punctuation])

theorem breaksAlone_collapseHorizontal_newlineRuns (text : List Char) :
    BreaksAlone (Spacing.collapseHorizontal.apply (newlineRuns.apply text)) := by
  have hseams := along_collapseHorizontal (settles_newlineRuns.good_apply text)
  exact hseams.isChain.imp fun c d hseam hc => hseam.after (congrArg some hc)

theorem tighter_blankRules (options : Options) (text : List Char) :
    Tighter ((blankRules options false).run text) ((blankRules options true).run text) := by
  have hinline : punctuationInline.DropsOnly Class.spaceTab := Rule.dropsOnly_around _ _ _
  have hfree : punctuation.DropsOnly gapBlank := Rule.dropsOnly_around _ _ _
  refine tighter_onlyIf ?_
  cases options.preserveLineBreaks with
  | true => exact tighter_of_dropsOnly hinline _ text
  | false => exact tighter_of_breaksAlone hfree _ (breaksAlone_collapseHorizontal_newlineRuns text)

theorem narrowsOnly_semicolonBrace : semicolonBrace.NarrowsOnly := by
  apply Rule.NarrowsOnly.of_takes
  intro prev found behind parts htakes _
  obtain ⟨before, brace, _, _, -, hbrace, htext, -⟩ := htakes
  obtain ⟨rfl, -⟩ := (takes_char '\x7d').mp hbrace
  have hreplace : semicolonBrace.replace found = ['\x7d'] := rfl
  rw [hreplace, htext]
  exact .of_sublist (List.sublist_append_right before _)

theorem levelled_pipeline (options : Options) :
    Levelled (fun level => pipeline (options.withLevel level)) (debugRules options) (blankRules options)
      options.removeEmptyLines [semicolonBrace] where
  eq _ := rfl
  tighter := tighter_blankRules options
  narrows := .cons narrowsOnly_semicolonBrace .nil

end Script

/-! ### Minifying -/

namespace Stages

variable {language : Language} {options : Options} {text : List Char} {scanned : MaskedText} {low high : Level}

theorem exists_levelled_rules (language : Language) (options : Options) :
    ∃ first blanks extra, Levelled (fun level => rules language (options.withLevel level)) first blanks
      options.removeEmptyLines extra := by
  unfold rules
  split
  · exact ⟨_, _, _, Markup.levelled_pipeline options⟩
  · exact ⟨_, _, _, Markup.levelled_pipeline options⟩
  · exact ⟨_, _, _, Style.levelled_pipeline options⟩
  · exact ⟨_, _, _, Script.levelled_pipeline options⟩
  · exact ⟨_, _, _, Script.levelled_pipeline options⟩
  · exact ⟨_, _, _, Generic.levelled_pipeline _ options⟩

/-- Calls of a console are dropped first, and all other rules keep every slot. -/
theorem exists_rules_eq (language : Language) (options : Options) :
    ∃ first : Pipeline, Carries List.Sublist first.run ∧ ∀ level,
      rules language (options.withLevel level) =
        first ++ rules language { options.withLevel level with removeConsoleLog := false } := by
  by_cases hscript : language = .javascript ∨ language = .typescript
  · refine ⟨Pipeline.onlyIf options.removeConsoleLog [Script.consoleCall], ?_, fun level => ?_⟩
    · exact Pipeline.carries_run keeping_sublist (.onlyIf fun _ => .cons Script.carries_consoleCall .nil)
    · rcases hscript with rfl | rfl
      all_goals
        simp only [rules, Script.pipeline, List.append_assoc]
        rfl
  · refine ⟨[], fun text => .refl keeping_sublist text, fun level => ?_⟩
    unfold rules
    split <;> first | rfl | exact absurd (by simp) hscript

/-- Before the literals are put back, the masked texts of two levels have the same slots. -/
theorem byteSize_unmask_edit_le_of_level (h : scan language options text = .ok scanned)
    (hlevel : low.rank < high.rank) :
    byteSize ((prepare language scanned).unmask
        (edit language (options.withLevel high) (prepare language scanned))) ≤
      byteSize ((prepare language scanned).unmask
        (edit language (options.withLevel low) (prepare language scanned))) := by
  obtain ⟨inner, source, code, hlayout⟩ := exists_layout h
  have htext : Unreserved text := MaskedText.unreserved_of_mask (mask_of_scan h)
  have hlow : (options.withLevel low).level ≠ .aggressive := by
    change low ≠ .aggressive
    revert hlevel
    cases low <;> cases high <;> decide
  obtain ⟨first, hfirst, hrules⟩ := exists_rules_eq language options
  obtain ⟨common, hcommon, hrender, hslots⟩ := hfirst _ code hlayout.clean hlayout.masked_text.symm
  have hedited (level : Level) : ∃ edited : Template, edited.Clean ∧
      edited.render = (rules language (options.withLevel level)).run (prepare language scanned).text ∧
        edited.slots = common.slots := by
    have heach : (rules language { options.withLevel level with removeConsoleLog := false }).Each fun rule =>
        Carries Eq rule.apply := each_rules (fun h => absurd h.2 Bool.false_ne_true) fun _ h => h
    rw [hrules, Pipeline.run_append, ← hrender]
    exact Pipeline.carries_run keeping_eq heach _ common hcommon rfl
  obtain ⟨lower, hcleanLow, hrenderLow, hslotsLow⟩ := hedited low
  obtain ⟨higher, hcleanHigh, hrenderHigh, hslotsHigh⟩ := hedited high
  have hlighter : Lighter (Layout.values scanned inner) higher lower := by
    obtain ⟨_, _, _, hlevelled⟩ := exists_levelled_rules language options
    refine .of_slots_eq (hslotsHigh.trans hslotsLow.symm) ?_
    rw [hrenderHigh, hrenderLow]
    exact hlevelled.byteSize_run_le hlevel.le _
  obtain ⟨result, hclean, hresult, hlighter'⟩ :=
    lightens_edit_of_rules hlayout htext language (options.withLevel high) higher hcleanHigh
      (hslotsHigh ▸ hslots) hrenderHigh
  have hkeepsLow : KeepsSlots True lower code := ⟨hslotsLow ▸ hslots, fun hnot => absurd trivial hnot⟩
  have hkeeps : KeepsSlots True result code :=
    ⟨hlighter'.slots.trans (hslotsHigh ▸ hslots), fun hnot => absurd trivial hnot⟩
  rw [edit_eq hlow, ← hrenderLow, ← hresult, hlayout.unmask_render htext hclean hkeeps,
    hlayout.unmask_render htext hcleanLow hkeepsLow, fill_expand, fill_expand]
  exact hlighter'.size.trans hlighter.size

end Stages

/-- Whether a text is refused does not depend on the level. -/
theorem refused_withLevel_iff (options : Options) (text : List Char) (language : Language) (level : Level) :
    Refused (options.withLevel level) text language ↔ Refused options text language := by
  by_cases hjson : language = .json
  · subst hjson
    rw [Refused.json_iff, Refused.json_iff]
  · rw [← Stages.exists_scan_error_iff hjson, ← Stages.exists_scan_error_iff hjson]
    rfl

theorem byteSize_minify_withLevel_le (content : String) (language : Language) (options : Options)
    {low high : Level} (hlevel : low.rank < high.rank) :
    byteSize (minify content language (options.withLevel high)).minified.toList ≤
      byteSize (minify content language (options.withLevel low)).minified.toList := by
  by_cases hjson : language = .json
  · subst hjson
    exact Nat.le_refl _
  by_cases hempty : content = ""
  · subst hempty
    rw [minify_empty, minify_empty]
  · have herrors (level : Level) : (minify content language (options.withLevel level)).errors ≠ [] ↔
        content ≠ "" ∧ Refused options content.toList language := by
      rw [minify_errors_ne_nil_iff, refused_withLevel_iff]
    by_cases hrefused : content ≠ "" ∧ Refused options content.toList language
    · rw [(minify_of_errors_ne_nil _ _ _ ((herrors high).mpr hrefused)).2.2,
        (minify_of_errors_ne_nil _ _ _ ((herrors low).mpr hrefused)).2.2]
    · have hnone (level : Level) := not_not.mp (mt (herrors level).mp hrefused)
      obtain ⟨scanned, hscan, hminified⟩ :=
        (Stages.minified_cases hjson (hnone high)).resolve_left fun h => hempty h.1
      obtain ⟨scanned', hscan', hminified'⟩ :=
        (Stages.minified_cases hjson (hnone low)).resolve_left fun h => hempty h.1
      have hsame : Stages.scan language options content.toList = .ok scanned := hscan
      obtain rfl : scanned' = scanned := Except.ok.inj (hscan'.symm.trans hscan)
      rw [hminified, hminified']
      exact Stages.byteSize_unmask_edit_le_of_level hsame hlevel

/-- A higher level never leaves a larger text, and it reports an error exactly if the lower one does. -/
theorem minifiedSize_level_le (content : String) (language : Language) (options : Options) (low high : Level)
    (hlevel : low.rank ≤ high.rank) :
    (minify content language (options.withLevel high)).minifiedSize ≤
        (minify content language (options.withLevel low)).minifiedSize ∧
      ((minify content language (options.withLevel high)).errors ≠ [] ↔
        (minify content language (options.withLevel low)).errors ≠ []) := by
  constructor
  · rw [(minify_sizes _ _ _).2, (minify_sizes _ _ _).2, utf8ByteSize_eq, utf8ByteSize_eq]
    rcases hlevel.eq_or_lt with heq | hlt
    · have hsame : low = high := by
        revert heq
        cases low <;> cases high <;> decide
      rw [hsame]
    · exact byteSize_minify_withLevel_le content language options hlt
  · rw [minify_errors_ne_nil_iff, minify_errors_ne_nil_iff, refused_withLevel_iff, refused_withLevel_iff]

theorem minifiedSize_level_le_style :
    Level.light.rank ≤ Level.aggressive.rank ∧
      (minify "a \x7b margin : 0.0px ; \x7d\n\n" .css (Options.withLevel {} .light)).minified = "a \x7b margin : 0.0px ; \x7d" ∧
      (minify "a \x7b margin : 0.0px ; \x7d\n\n" .css (Options.withLevel {} .aggressive)).minified = "a\x7bmargin:0\x7d" ∧
      (minify "a \x7b margin : 0.0px ; \x7d\n\n" .css (Options.withLevel {} .aggressive)).minifiedSize ≤
        (minify "a \x7b margin : 0.0px ; \x7d\n\n" .css (Options.withLevel {} .light)).minifiedSize ∧
      ((minify "a \x7b margin : 0.0px ; \x7d\n\n" .css (Options.withLevel {} .aggressive)).errors ≠ [] ↔
        (minify "a \x7b margin : 0.0px ; \x7d\n\n" .css (Options.withLevel {} .light)).errors ≠ []) :=
  ⟨by decide, by decide +kernel, by decide +kernel, minifiedSize_level_le _ _ _ _ _ (by decide)⟩

end Minifier
