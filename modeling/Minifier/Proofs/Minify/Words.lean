import Minifier.Proofs.Minify.Stages
import Minifier.Proofs.Pattern.Segments
import Minifier.Proofs.Rule.Basic
import Minifier.Proofs.Rule.Blanks
import Minifier.Proofs.Text.Words
import Minifier.Worker.Handler

/-!
The rules for blanks spare words. Below the aggressive level, and as long as no debugging aid is
removed, there are no other rules: so the rules of every language leave the characters that are no
blanks, and the words, as they were. Markup has no other rules at any level.

A swap spares words in one of three ways: it leaves an outline as it was, or it drops blanks behind which
no word begins, or it drops blanks where a line begins. After the second way a word is still open in what
is written although a blank ended it in the text. This does no harm, for neither of the other two ways can
follow it before something else ends the word: a line does not begin there, and an outline whose first
character is in no word is the same whether a word is open or not.
-/

namespace Minifier

open Pattern Text

section Swaps

variable {prev out : Option Char} {old new behind text : List Char}

/-- Whether a swap keeps the words of the text around it. -/
inductive SparesWords (prev : Option Char) (old new behind : List Char) : Prop where
  /-- The outline stays, and no word is open behind. -/
  | alike : old ≠ [] → new ≠ [] → (∀ prev, outline prev new = outline prev old) →
      old.getLast?.any isWord = false → new.getLast?.any isWord = false →
      SparesWords prev old new behind
  /-- Blanks go before the end of the text, or within a line before something that begins no word. -/
  | before : old ≠ [] → (∀ c ∈ old, isBlank c = true) → new = [] →
      behind = [] ∨ old.getLast? ≠ some '\n' ∧ behind.head?.any isWord = false →
      SparesWords prev old new behind
  /-- Blanks go where a line begins. -/
  | lineStart : old ≠ [] → (∀ c ∈ old, isBlank c = true) → new = [] →
      prev = none ∨ prev = some '\n' → SparesWords prev old new behind

/-- What has been written agrees with what has been read: a word is open in both or in neither, or it
makes no difference, since no word goes on and no line begins. -/
inductive InStep (prev out : Option Char) (text : List Char) : Prop where
  | equal : out.any isWord = prev.any isWord → InStep prev out text
  | ended : text = [] → InStep prev out text
  | between : prev ≠ none → prev ≠ some '\n' → prev.any isWord = false →
      text.head?.any isWord = false → InStep prev out text

/-- The outline of a piece at the beginning is the same. -/
theorem InStep.outline_eq_of_append (h : InStep prev out (text ++ behind)) :
    outline out text = outline prev text := by
  cases h with
  | equal h => exact outline_congr h text
  | ended h => rw [(List.append_eq_nil_iff.mp h).1, outline, outline]
  | between _ _ _ h =>
    cases text with
    | nil => rw [outline, outline]
    | cons c text => exact outline_eq_of_head h

/-- Behind blanks no word is open. -/
theorem exists_getLast?_of_blank (hne : old ≠ []) (hblank : ∀ c ∈ old, isBlank c = true) :
    ∃ c, old.getLast? = some c ∧ isWord c = false := by
  obtain ⟨c, hc⟩ := Option.ne_none_iff_exists'.mp (mt List.getLast?_eq_none_iff.mp hne)
  exact ⟨c, hc, isWord_of_isBlank (hblank c (List.mem_of_getLast? hc))⟩

/-- One swap keeps what is written in step with what is read. -/
theorem SparesWords.step (h : SparesWords prev old new behind) (hstep : InStep prev out (old ++ behind)) :
    outline out new = outline prev old ∧
      InStep (old.getLast?.or prev) (new.getLast?.or out) behind := by
  cases h with
  | alike hold hnew houtline hlast hlast' =>
    refine ⟨(houtline out).trans hstep.outline_eq_of_append, .equal ?_⟩
    obtain ⟨c, hc⟩ := Option.ne_none_iff_exists'.mp (mt List.getLast?_eq_none_iff.mp hold)
    obtain ⟨d, hd⟩ := Option.ne_none_iff_exists'.mp (mt List.getLast?_eq_none_iff.mp hnew)
    rw [hc] at hlast ⊢
    rw [hd] at hlast' ⊢
    exact hlast'.trans hlast.symm
  | before hold hblank hnew hbehind =>
    subst hnew
    refine ⟨(outline_of_blank hblank).symm, ?_⟩
    obtain ⟨c, hlast, hword⟩ := exists_getLast?_of_blank hold hblank
    rcases hbehind with hbehind | ⟨hbreak, hhead⟩
    · exact .ended hbehind
    · rw [hlast] at hbreak
      rw [hlast, Option.some_or]
      exact .between (by simp) hbreak hword hhead
  | lineStart hold hblank hnew hprev =>
    subst hnew
    refine ⟨(outline_of_blank hblank).symm, .equal ?_⟩
    obtain ⟨c, hlast, hword⟩ := exists_getLast?_of_blank hold hblank
    rw [hlast, Option.some_or]
    cases hstep with
    | equal h =>
      refine h.trans ?_
      rcases hprev with rfl | rfl
      · exact hword.symm
      · exact Eq.trans (by decide) hword.symm
    | ended h => exact absurd (List.append_eq_nil_iff.mp h).1 hold
    | between hnone hbreak _ _ => exact absurd hprev (not_or.mpr ⟨hnone, hbreak⟩)

/-! ### Rules -/

/-- A rule spares words if every swap of its does. -/
def Rule.SparesWords (rule : Rule) : Prop :=
  ∀ index prev found behind,
    rule.pattern.matchAt index prev (found.text ++ behind) = some found →
    Minifier.SparesWords prev found.text (rule.replace found) behind

namespace Rule

variable {rule : Rule}

/-- Whatever a search finds, replacing it leaves the outline. -/
private theorem outline_of_segmented (h : rule.SparesWords) {index : Nat} {segments : List Segment}
    (hsegments : rule.pattern.Segmented index prev text segments) (hstep : InStep prev out text) :
    outline out (segments.flatMap (Segment.replaced rule.replace)) = outline prev text := by
  induction hsegments generalizing out with
  | done => rfl
  | @plain _ prev c rest _ _ _ ih =>
    have hstep : InStep prev out ([c] ++ rest) := hstep
    have hhead : outline out [c] = outline prev [c] := hstep.outline_eq_of_append
    have hrest : outline prev (c :: rest) = outline prev [c] ++ outline (some c) rest :=
      outline_append prev [c] rest
    rw [List.flatMap_cons, Segment.replaced, outline_append, hhead, hrest]
    exact congrArg _ (ih (.equal rfl))
  | @hit index prev _ rest found _ hfound htext _ ih =>
    subst htext
    obtain ⟨houtline, hnext⟩ := (h index prev found rest hfound).step hstep
    rw [List.flatMap_cons, Segment.replaced, outline_append, houtline, ih hnext, ← outline_append]

theorem sameOutline_apply (h : rule.SparesWords) (text : List Char) :
    SameOutline text (rule.apply text) := by
  refine apply_of_once SameOutline.refl SameOutline.trans (fun text => ?_) text
  exact (outline_of_segmented h (Pattern.segments_segmented _ _) (.equal rfl)).symm

end Rule

/-- Rules that spare words leave the words of a text. -/
theorem Pipeline.sameOutline_run {pipeline : Pipeline} (h : pipeline.Each Rule.SparesWords)
    (text : List Char) : SameOutline text (pipeline.run text) :=
  run_of_apply SameOutline.refl SameOutline.trans
    (fun rule hrule text => Rule.sameOutline_apply (h rule hrule) text) text

end Swaps

/-! ### Classes -/

theorem isWord_of_any_eq_false {text : List Char} (h : text.any isWord = false) :
    ∀ c ∈ text, isWord c = false := by
  intro c hc
  exact Bool.eq_false_iff.mpr (List.any_eq_false.mp h c hc)

/-! ### Swaps -/

namespace SparesWords

variable {prev : Option Char} {old new before kept after behind : List Char}

theorem nonBlank_of_blank {text : List Char} (h : ∀ c ∈ text, isBlank c = true) :
    nonBlank text = [] := by
  simpa [nonBlank] using h

/-- Outside words, only the characters that are no blanks matter. -/
theorem of_not_isWord (hold : old ≠ []) (hnew : new ≠ []) (hword : ∀ c ∈ old, isWord c = false)
    (hword' : ∀ c ∈ new, isWord c = false) (hsame : nonBlank new = nonBlank old) :
    SparesWords prev old new behind := by
  have hlast {text : List Char} (h : ∀ c ∈ text, isWord c = false) :
      text.getLast?.any isWord = false := by
    cases htext : text.getLast? with
    | none => rfl
    | some c => exact h c (List.mem_of_getLast? htext)
  have houtline (prev : Option Char) : outline prev new = outline prev old := by
    rw [outline_of_not_isWord hword, outline_of_not_isWord hword', hsame]
  exact .alike hold hnew houtline (hlast hword) (hlast hword')

/-- Blanks go on both sides of something outside words. -/
theorem of_around (hkept : kept ≠ []) (hword : ∀ c ∈ kept, isWord c = false)
    (hbefore : ∀ c ∈ before, isBlank c = true) (hafter : ∀ c ∈ after, isBlank c = true) :
    SparesWords prev (before ++ kept ++ after) kept behind := by
  refine of_not_isWord (by simp [hkept]) hkept ?_ hword ?_
  · intro c hc
    rcases List.mem_append.mp hc with hc | hc
    · rcases List.mem_append.mp hc with hc | hc
      · exact isWord_of_isBlank (hbefore c hc)
      · exact hword c hc
    · exact isWord_of_isBlank (hafter c hc)
  · have hbefore' := nonBlank_of_blank hbefore
    have hafter' := nonBlank_of_blank hafter
    simp only [nonBlank] at hbefore' hafter' ⊢
    simp [hbefore', hafter']

end SparesWords

/-! ### Rules -/

namespace Rule

/-- What a match takes and what its parts take is all that a rule is asked about. -/
theorem SparesWords.of_takes {rule : Rule}
    (h : ∀ prev found behind parts, rule.pattern.Takes prev found.text behind parts →
      (∀ n, found.part n = (parts.lookup (.part n)).getD []) →
      Minifier.SparesWords prev found.text (rule.replace found) behind) :
    rule.SparesWords := by
  intro index prev found behind hfound
  obtain ⟨behind', parts, hrest, htakes, hlabels⟩ := Match.exists_takes hfound
  rw [← List.append_cancel_left hrest] at htakes
  exact h prev found behind parts htakes (found.part_eq_getD hlabels)

/-- A rule that puts a blank in the place of blanks. -/
theorem sparesWords_put {name : String} {pattern : Pattern} {c : Char} (hc : isBlank c = true)
    (hpattern : ∀ prev taken behind parts, pattern.Takes prev taken behind parts →
      taken ≠ [] ∧ ∀ d ∈ taken, isBlank d = true) :
    (Rule.put name pattern c).SparesWords := by
  apply SparesWords.of_takes
  intro prev found behind parts htakes _
  obtain ⟨hne, hblank⟩ := hpattern _ _ _ _ htakes
  have hblank' : ∀ d ∈ [c], isBlank d = true := List.forall_mem_singleton.mpr hc
  apply Minifier.SparesWords.of_not_isWord hne (List.cons_ne_nil _ _)
  · intro d hd
    exact isWord_of_isBlank (hblank d hd)
  · intro d hd
    exact isWord_of_isBlank (hblank' d hd)
  · exact (SparesWords.nonBlank_of_blank hblank').trans (SparesWords.nonBlank_of_blank hblank).symm

/-- A rule that puts a blank in the place of a run of blanks. -/
theorem sparesWords_collapse {name : String} {accepts : Char → Bool} {c : Char}
    (hc : isBlank c = true) (haccepts : ∀ d, accepts d = true → isBlank d = true) :
    (Rule.put name (run1 accepts) c).SparesWords := by
  apply sparesWords_put hc
  intro prev taken behind parts htakes
  obtain ⟨hne, htaken, -⟩ := (takes_run1 accepts).mp htakes
  exact ⟨hne, fun d hd => haccepts d (htaken d hd)⟩

/-- A rule that drops its matches, each of which spares words. -/
theorem sparesWords_drop {name : String} {pattern : Pattern}
    (h : ∀ prev taken behind parts, pattern.Takes prev taken behind parts →
      Minifier.SparesWords prev taken [] behind) :
    (Rule.drop name pattern).SparesWords :=
  .of_takes fun prev found behind parts htakes _ => h prev found.text behind parts htakes

/-- A rule that drops blanks around punctuation. -/
theorem sparesWords_punctuation {name : String} {accepts : Char → Bool} {marks : List Char}
    (haccepts : ∀ c, accepts c = true → isBlank c = true)
    (hmarks : marks.any isWord = false) :
    (Rule.keepPart name (run accepts ++ part 1 (oneOf marks) ++ run accepts)).SparesWords := by
  apply SparesWords.of_takes
  intro prev found behind parts htakes hpart
  obtain ⟨_, after, _, _, ⟨before, _, _, _, ⟨hbefore, rfl⟩, ⟨_, hone, rfl⟩, rfl, rfl⟩,
    ⟨hafter, rfl⟩, htext, rfl⟩ := htakes
  obtain ⟨⟨mark, hmark, rfl⟩, rfl⟩ := (takes_oneOf marks).mp hone
  have hnew : found.part 1 = [mark] := by simp [hpart]
  have hword : ∀ c ∈ [mark], isWord c = false :=
    List.forall_mem_singleton.mpr (isWord_of_any_eq_false hmarks mark hmark)
  simp only [keepPart]
  rw [hnew, htext]
  exact .of_around (List.cons_ne_nil _ _) hword (fun c hc => haccepts c (hbefore c hc))
    fun c hc => haccepts c (hafter c hc)

end Rule

namespace Spacing

theorem sparesWords_collapseWhitespace : collapseWhitespace.SparesWords :=
  Rule.sparesWords_collapse (by decide) fun _ h => h

theorem sparesWords_collapseHorizontal : collapseHorizontal.SparesWords :=
  Rule.sparesWords_collapse (by decide) fun _ => Class.isBlank_of_among rfl

/-- Blanks at the end of a line stand before a line break or the end of the text. -/
theorem sparesWords_of_takes_lineTail {prev : Option Char} {taken behind : List Char} {parts : Parts}
    (h : lineTail.Takes prev taken behind parts) : SparesWords prev taken [] behind := by
  obtain ⟨blanks, _, _, _, hblanks, ⟨hend, rfl, rfl⟩, rfl, rfl⟩ := h
  obtain ⟨hne, htaken, -⟩ := (takes_run1 _).mp hblanks
  rw [List.append_nil]
  refine .before hne (fun c hc => Class.isBlank_of_among rfl (htaken c hc)) rfl ?_
  rcases Anchor.holdsBetween_lineEnd.mp hend with hbehind | hbehind
  · exact Or.inl hbehind
  · refine Or.inr ⟨?_, by rw [hbehind]; decide⟩
    intro hlast
    have hbreak := htaken _ (List.mem_of_getLast? hlast)
    exact absurd hbreak (by decide)

theorem sparesWords_trimLines : trimLines.SparesWords := by
  apply Rule.sparesWords_drop
  intro prev taken behind parts htakes
  rcases htakes with ⟨_, _, _, _, ⟨hstart, rfl, rfl⟩, hblanks, rfl, rfl⟩ | htakes
  · obtain ⟨hne, hblank, -⟩ := (takes_run1 _).mp hblanks
    exact .lineStart hne (fun c hc => Class.isBlank_of_spaceTab (hblank c hc)) rfl
      (Anchor.holdsBetween_lineStart.mp hstart)
  · exact sparesWords_of_takes_lineTail htakes

theorem sparesWords_trailingSpace : trailingSpace.SparesWords :=
  Rule.sparesWords_drop fun _ _ _ _ => sparesWords_of_takes_lineTail

/-- The character before the blanks may be in a word, which ends behind it with or without them. -/
theorem sparesWords_innerSpaces : innerSpaces.SparesWords := by
  apply Rule.SparesWords.of_takes
  intro prev found behind parts htakes hpart
  obtain ⟨_, blanks, _, _, ⟨_, _, _, _, ⟨_, ⟨⟨c, -, rfl⟩, rfl⟩, rfl⟩, ⟨⟨d, hd, rfl⟩, rfl⟩, rfl, rfl⟩,
    hblanks, htext, rfl⟩ := htakes
  obtain ⟨hne, hblank, rfl⟩ := (takes_run1 _).mp hblanks
  have hnew : found.part 1 = [c] := by simp [hpart]
  have hold : ∀ e ∈ d :: blanks, isBlank e = true :=
    List.forall_mem_cons.mpr
      ⟨Class.isBlank_of_spaceTab hd, fun e he => Class.isBlank_of_spaceTab (hblank e he)⟩
  have hspace : ∀ e ∈ [' '], isBlank e = true := List.all_eq_true.mp rfl
  simp only [innerSpaces]
  rw [hnew, htext]
  apply SparesWords.alike (by simp) (by simp)
  · intro prev
    have hnone (blanks : List Char) (h : ∀ e ∈ blanks, isBlank e = true) :
        outline prev ([c] ++ blanks) = outline prev [c] := by
      rw [outline_append, outline_of_blank h, List.append_nil]
    rw [hnone _ hspace, List.append_assoc]
    exact (hnone _ hold).symm
  · obtain ⟨e, hlast, hword⟩ := exists_getLast?_of_blank hne
      fun e he => Class.isBlank_of_spaceTab (hblank e he)
    rw [List.getLast?_append, hlast]
    exact hword
  · rw [List.getLast?_append]
    rfl

theorem sparesWords_emptyLines : emptyLines.SparesWords := by
  apply Rule.sparesWords_drop
  intro prev taken behind parts htakes
  obtain ⟨_, _, _, _, ⟨_, returns, _, _, ⟨_, blanks, _, _, ⟨hstart, rfl, rfl⟩, ⟨hblanks, rfl⟩, rfl, rfl⟩,
    hreturn, rfl, rfl⟩, hbreak, rfl, rfl⟩ := htakes
  obtain ⟨rfl, rfl⟩ := (takes_char '\n').mp hbreak
  have hreturns : ∀ c ∈ returns, isBlank c = true := by
    rcases hreturn with h | ⟨rfl, rfl⟩
    · obtain ⟨rfl, -⟩ := (takes_char '\r').mp h
      exact List.all_eq_true.mp rfl
    · exact List.forall_mem_nil _
  refine .lineStart (by simp) ?_ rfl (Anchor.holdsBetween_lineStart.mp hstart)
  intro c hc
  simp only [List.mem_append] at hc
  rcases hc with (hc | hc) | hc
  · exact Class.isBlank_of_spaceTab (hblanks c hc)
  · exact hreturns c hc
  · rw [List.mem_singleton.mp hc]
    decide

theorem sparesWords_trimEnds : trimEnds.SparesWords := by
  apply Rule.sparesWords_drop
  intro prev taken behind parts htakes
  rcases htakes with ⟨_, _, _, _, ⟨hstart, rfl, rfl⟩, hblanks, rfl, rfl⟩ |
    ⟨_, _, _, _, hblanks, ⟨hend, rfl, rfl⟩, rfl, rfl⟩
  · obtain ⟨hne, hblank, -⟩ := (takes_run1 _).mp hblanks
    exact .lineStart hne hblank rfl (Or.inl (Anchor.holdsBetween_textStart.mp hstart))
  · obtain ⟨hne, hblank, -⟩ := (takes_run1 _).mp hblanks
    rw [List.append_nil]
    exact .before hne hblank rfl (Or.inl (Anchor.holdsBetween_textEnd.mp hend))

theorem each_all_sparesWords : Pipeline.Each Rule.SparesWords all :=
  each_all_iff.mpr ⟨sparesWords_collapseWhitespace, sparesWords_collapseHorizontal,
    sparesWords_trimLines, sparesWords_trailingSpace, sparesWords_innerSpaces,
    sparesWords_emptyLines, sparesWords_trimEnds⟩

end Spacing

namespace Markup

/-- Blanks between the end of one tag and the beginning of another. -/
theorem sparesWords_of_between {rule : Rule} {accepts : Char → Bool}
    (haccepts : ∀ c, accepts c = true → isBlank c = true)
    (hpattern : rule.pattern = char '>' ++ run1 accepts ++ char '<')
    (hreplace : ∀ found, rule.replace found = ['>', '<']) : rule.SparesWords := by
  apply Rule.SparesWords.of_takes
  intro prev found behind parts htakes _
  rw [hpattern] at htakes
  obtain ⟨_, _, _, _, ⟨_, blanks, _, _, hopen, hblanks, rfl, rfl⟩, hclose, htext, rfl⟩ := htakes
  obtain ⟨rfl, rfl⟩ := (takes_char '>').mp hopen
  obtain ⟨rfl, rfl⟩ := (takes_char '<').mp hclose
  obtain ⟨-, hblank, rfl⟩ := (takes_run1 _).mp hblanks
  rw [htext, hreplace]
  have hnone : nonBlank blanks = [] :=
    SparesWords.nonBlank_of_blank fun c hc => haccepts c (hblank c hc)
  have hmarks : isWord '>' = false ∧ isWord '<' = false := by decide
  refine .of_not_isWord (by simp) (by simp) ?_ (by simp [hmarks]) ?_
  · intro c hc
    simp only [List.mem_append, List.mem_singleton] at hc
    rcases hc with (rfl | hc) | rfl
    · exact hmarks.1
    · exact isWord_of_isBlank (haccepts c (hblank c hc))
    · exact hmarks.2
  · simp only [nonBlank] at hnone ⊢
    rw [List.filter_append, List.filter_append, hnone, List.append_nil]
    rfl

theorem sparesWords_interTag : interTag.SparesWords :=
  sparesWords_of_between (fun _ h => h) rfl fun _ => rfl

theorem sparesWords_interTagInline : interTagInline.SparesWords :=
  sparesWords_of_between (fun _ => Class.isBlank_of_spaceTab) rfl fun _ => rfl

theorem sparesWords_tagCloseSpace : tagCloseSpace.SparesWords := by
  apply Rule.SparesWords.of_takes
  intro prev found behind parts htakes hpart
  obtain ⟨blanks, kept, _, _, hblanks, ⟨_, hend, rfl⟩, htext, rfl⟩ := htakes
  obtain ⟨-, hblank, rfl⟩ := (takes_run1 _).mp hblanks
  obtain ⟨slash, _, _, _, hslash, hclose, rfl, rfl⟩ := hend
  obtain ⟨rfl, rfl⟩ := (takes_char '>').mp hclose
  have hnew : found.part 1 = slash ++ ['>'] := by simp [hpart]
  have hword : ∀ c ∈ slash ++ ['>'], isWord c = false := by
    rcases hslash with h | ⟨rfl, rfl⟩
    · obtain ⟨rfl, -⟩ := (takes_char '/').mp h
      exact isWord_of_any_eq_false rfl
    · exact isWord_of_any_eq_false rfl
  simp only [tagCloseSpace, Rule.keepPart]
  rw [hnew, htext, ← List.append_nil (blanks ++ _)]
  exact .of_around (by simp) hword (fun c hc => Class.isBlank_of_among rfl (hblank c hc))
    (by simp)

end Markup

/-- A run of blanks with a line break in it holds blanks only. -/
theorem Script.sparesWords_newlineRuns : Script.newlineRuns.SparesWords := by
  apply Rule.sparesWords_put (by decide)
  intro prev taken behind parts htakes
  obtain ⟨_, after, _, _, ⟨before, _, _, _, ⟨hbefore, rfl⟩, hbreak, rfl, rfl⟩, ⟨hafter, rfl⟩, rfl, rfl⟩ :=
    htakes
  obtain ⟨rfl, rfl⟩ := (takes_char '\n').mp hbreak
  constructor
  · simp
  · intro c hc
    simp only [List.mem_append] at hc
    rcases hc with (hc | hc) | hc
    · exact Class.isBlank_of_among rfl (hbefore c hc)
    · rw [List.mem_singleton.mp hc]
      decide
    · exact hafter c hc

/-! ### Pipelines -/

theorem Style.sparesWords_pipeline {options : Options} (h : options.level ≠ .aggressive) :
    (Style.pipeline options).Each Rule.SparesWords := by
  have haggressive : options.isAggressive = false := by simpa [Options.isAggressive] using h
  apply each_pipeline Spacing.each_all_sparesWords
  · exact Rule.sparesWords_punctuation (fun _ => Class.isBlank_of_spaceTab) rfl
  · exact Rule.sparesWords_punctuation (fun _ h => h) rfl
  · intro h
    rw [haggressive] at h
    cases h

theorem Markup.sparesWords_pipeline (options : Options) :
    (Markup.pipeline options).Each Rule.SparesWords :=
  each_pipeline Spacing.each_all_sparesWords sparesWords_interTag sparesWords_interTagInline
    sparesWords_tagCloseSpace options

theorem Script.sparesWords_pipeline {options : Options} (h : options.level ≠ .aggressive)
    (hconsole : options.removeConsoleLog = false) (hdebugger : options.removeDebugger = false) :
    (Script.pipeline options).Each Rule.SparesWords := by
  have haggressive : options.isAggressive = false := by simpa [Options.isAggressive] using h
  apply each_pipeline
  · intro h
    rw [hconsole] at h
    cases h
  · intro h
    rw [hdebugger] at h
    cases h
  · exact Spacing.each_all_sparesWords
  · exact sparesWords_newlineRuns
  · exact Rule.sparesWords_punctuation (fun _ => Class.isBlank_of_spaceTab) rfl
  · exact Rule.sparesWords_punctuation (fun _ => Class.isBlank_of_among rfl) rfl
  · intro h
    rw [haggressive] at h
    cases h

theorem Generic.sparesWords_pipeline (language : Language) (options : Options) :
    (Generic.pipeline language options).Each Rule.SparesWords := by
  apply each_pipeline Spacing.each_all_sparesWords
  · exact Rule.sparesWords_punctuation (fun _ => Class.isBlank_of_spaceTab) rfl
  · exact Rule.sparesWords_punctuation (fun _ h => h) rfl

theorem Worker.sparesWords_blankRules (language : Language) (options : Options) :
    (Worker.blankRules language options).Each Rule.SparesWords := by
  have hspaces : collapseSpaces.SparesWords :=
    Rule.sparesWords_collapse (by decide) fun _ => Class.isBlank_of_spaceTab
  refine .append (.onlyIf fun _ => .append ?_ (.onlyIf fun _ => ?_)) (.onlyIf fun _ => ?_)
  · split
    · exact .cons Spacing.sparesWords_trailingSpace .nil
    · split
      · exact .cons hspaces (.cons Spacing.sparesWords_trimLines .nil)
      · exact .cons Spacing.sparesWords_collapseWhitespace .nil
  · exact .cons Markup.sparesWords_interTag .nil
  · exact .cons Spacing.sparesWords_emptyLines .nil

/-- Whatever the options, the rules of a language without a minifier of its own and those of markup
leave what a text says apart from its blanks: its other characters and its words. So do those of
stylesheets and scripts below the aggressive level, and those of a worker before and after it trims
the text, if no debugging aids are removed. -/
theorem sameWords_run (text : List Char) (language : Language) (options : Options) :
    SameWords text ((Generic.pipeline language options).run text) ∧
      (options.level ≠ .aggressive → SameWords text ((Style.pipeline options).run text)) ∧
      SameWords text ((Markup.pipeline options).run text) ∧
      (options.level ≠ .aggressive → options.removeConsoleLog = false →
        options.removeDebugger = false → SameWords text ((Script.pipeline options).run text)) ∧
      (options.removeConsoleLog = false → options.removeDebugger = false →
        let edited := (Worker.debugRules language options ++ Worker.blankRules language options).run text
        SameWords text edited ∧ SameWords text (Text.trim edited)) := by
  have hsame {pipeline : Pipeline} (h : pipeline.Each Rule.SparesWords) :
      SameWords text (pipeline.run text) := (Pipeline.sameOutline_run h text).sameWords
  refine ⟨hsame (Generic.sparesWords_pipeline language options),
    fun h => hsame (Style.sparesWords_pipeline h), hsame (Markup.sparesWords_pipeline options),
    fun h hconsole hdebugger => hsame (Script.sparesWords_pipeline h hconsole hdebugger),
    fun hconsole hdebugger => ?_⟩
  have hnone : Worker.debugRules language options = [] := by
    simp [Worker.debugRules, hconsole, hdebugger, Pipeline.onlyIf]
  have hspares : Pipeline.Each Rule.SparesWords
      (Worker.debugRules language options ++ Worker.blankRules language options) := by
    rw [hnone]
    exact Worker.sparesWords_blankRules language options
  exact ⟨hsame hspares, ((Pipeline.sameOutline_run hspares text).trans (sameOutline_trim _)).sameWords⟩

end Minifier
