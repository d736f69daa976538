import Minifier.Proofs.Minify.LineBreaks
import Minifier.Proofs.Rule.Settling

/-!
Running the rules a second time. Without the rules that change what a program or a stylesheet says, what a pipeline has
made of a text it leaves as it is: every rule of it is done after one run, and no rule behind it gives it anything new
to do. So it is enough to look at two rules of a pipeline at a time.
-/

namespace Minifier

open Text Spacing

/-! ### Pipelines in order -/

namespace Pipeline

variable {rule : Rule} {pipeline blanks full : Pipeline} {removeWhitespace removeEmptyLines : Bool}

namespace Orderly

theorem nil : Orderly [] := ⟨Each.nil, .nil⟩

theorem cons (honce : ∀ text, rule.apply (rule.apply text) = rule.apply text) (hlater : pipeline.Each rule.StaysUnder)
    (h : pipeline.Orderly) : Orderly (rule :: pipeline) :=
  ⟨Each.cons honce h.once, List.pairwise_cons.mpr ⟨hlater, h.later⟩⟩

end Orderly

@[simp] theorem onlyIf_false (pipeline : Pipeline) : onlyIf false pipeline = [] := rfl

theorem onlyIf_sublist (condition : Bool) (pipeline : Pipeline) : List.Sublist (onlyIf condition pipeline) pipeline := by
  cases condition with
  | true => exact .refl _
  | false => exact List.nil_sublist _

/-- The rules for blanks, where options leave some of them out. -/
theorem Orderly.withEnds (h : Orderly (full ++ [emptyLines, trimEnds])) (hblanks : List.Sublist blanks full) :
    Orderly (onlyIf removeWhitespace blanks ++ onlyIf removeEmptyLines [emptyLines] ++ [trimEnds]) := by
  refine h.sublist ?_
  rw [List.append_assoc]
  exact ((onlyIf_sublist _ _).trans hblanks).append ((onlyIf_sublist _ [emptyLines]).append (.refl [trimEnds]))

theorem orderly_ends : Orderly [emptyLines, trimEnds] :=
  .cons settles_emptyLines.apply_apply (.cons (settles_emptyLines.staysUnder fun _ h => h.trimEnds) .nil)
    (.cons settles_trimEnds.apply_apply .nil .nil)

end Pipeline

theorem SparesEnds.each_staysUnder {rule : Rule} {seam : Option Char → Option Char → Prop} (h : SparesEnds seam)
    (hrule : rule.Settles fun text => Along seam none text none) :
    Pipeline.Each rule.StaysUnder [Spacing.emptyLines, Spacing.trimEnds] :=
  .cons (hrule.staysUnder fun _ => h.emptyLines) (.cons (hrule.staysUnder fun _ => h.trimEnds) .nil)

theorem LacksWideGaps.each_staysUnder : Pipeline.Each innerSpaces.StaysUnder [emptyLines, trimEnds] :=
  .cons (settles_innerSpaces.staysUnder fun _ h => h.emptyLines)
    (.cons (settles_innerSpaces.staysUnder fun _ h => h.trimEnds) .nil)

theorem orderly_indentation : Pipeline.Orderly ([trailingSpace, innerSpaces] ++ [emptyLines, trimEnds]) :=
  have hnever : SparesEnds (Trimmed fun _ => false) := sparesEnds_trimmed fun _ => rfl
  .cons settles_trailingSpace.apply_apply
    (.cons staysUnder_trailingSpace_innerSpaces (hnever.each_staysUnder settles_trailingSpace))
    (.cons settles_innerSpaces.apply_apply LacksWideGaps.each_staysUnder Pipeline.orderly_ends)

/-! ### Blanks around punctuation -/

/-- Punctuation is no blank, the characters that go around it are blanks, and there are others than these. -/
structure Punctuates (accepts : Char → Bool) (marks : List Char) : Prop where
  mark : ∀ m ∈ marks, isBlank m = false
  blank : ∀ c, accepts c = true → isBlank c = true
  letter : 'a' ∉ marks

theorem eq_false_of_not_blank {accepts : Char → Bool} (hblank : ∀ c, accepts c = true → isBlank c = true) {c : Char}
    (hc : isBlank c = false) : accepts c = false :=
  Bool.eq_false_iff.mpr fun haccepts => Bool.eq_false_iff.mp hc (hblank c haccepts)

namespace Punctuates

variable {name : String} {accepts collapses : Char → Bool} {marks text : List Char} {new : Char}
  {seam : Option Char → Option Char → Prop} (h : Punctuates accepts marks)

include h

theorem disjoint : ∀ m ∈ marks, accepts m = false := fun m hm => eq_false_of_not_blank h.blank (h.mark m hm)

theorem settles : (Rule.aroundMarks name accepts marks).Settles fun text => Along (Tightened accepts marks) none text none :=
  Rule.settles_aroundMarks h.disjoint (eq_false_of_not_blank h.blank (by decide)) h.letter

theorem orderly : Pipeline.Orderly (Rule.aroundMarks name accepts marks :: [emptyLines, trimEnds]) :=
  .cons h.settles.apply_apply ((sparesEnds_tightened accepts marks).each_staysUnder h.settles) Pipeline.orderly_ends

/-- A mark may stand next to anything, and what stands behind a blank that goes may stand behind a mark. -/
theorem along (hahead : ∀ a, ∀ m ∈ marks, seam a (some m)) (hafter : ∀ {a b}, ∀ m ∈ marks, seam a b → seam (some m) b)
    (htext : Along seam none text none) : Along seam none ((Rule.aroundMarks name accepts marks).apply text) none :=
  along_aroundMarks h.disjoint (eq_false_of_not_blank h.blank (by decide)) h.letter hahead hafter htext

theorem along_squeezed (hcollapses : ∀ c, collapses c = true → isBlank c = true)
    (htext : Along (Squeezed collapses new) none text none) :
    Along (Squeezed collapses new) none ((Rule.aroundMarks name accepts marks).apply text) none := by
  have hmark : ∀ m ∈ marks, collapses m = false := fun m hm => eq_false_of_not_blank hcollapses (h.mark m hm)
  refine h.along (fun _ m hm => squeezed_of_not (hmark m hm)) (fun m hm hseam c hc haccepts => ?_) htext
  exact ⟨(hseam c hc haccepts).1, hmark m hm⟩

theorem along_trimmed (htext : Along (Trimmed Class.spaceTab) none text none) :
    Along (Trimmed Class.spaceTab) none ((Rule.aroundMarks name accepts marks).apply text) none := by
  have hinside : ∀ m ∈ marks, ¬ AtEdge (some m) := fun m hm => by
    simpa [AtEdge] using ne_break_of_not_blank (h.mark m hm)
  refine h.along (fun _ m hm => ⟨fun _ => ?_, fun hedge => ?_⟩) (fun m hm _ => ⟨fun hedge => ?_, fun _ => ?_⟩) htext
  · exact spaceTab_eq_false (h.mark m hm)
  · exact absurd hedge (hinside m hm)
  · exact absurd hedge (hinside m hm)
  · exact among_eq_false (h.mark m hm) (by decide)

theorem along_bareBreak (htext : Along Script.BareBreak none text none) :
    Along Script.BareBreak none ((Rule.aroundMarks name accepts marks).apply text) none := by
  have hbreak : ∀ m ∈ marks, some m ≠ some '\n' := fun m hm heq =>
    ne_break_of_not_blank (h.mark m hm) (Option.some.inj heq)
  refine h.along (fun _ m hm => ⟨fun _ => ?_, fun hmark => ?_⟩) (fun m hm _ => ⟨fun hmark => ?_, fun _ => ?_⟩) htext
  · exact h.mark m hm
  · exact absurd hmark (hbreak m hm)
  · exact absurd hmark (hbreak m hm)
  · exact among_eq_false (h.mark m hm) (by decide)

/-- The rules where line breaks stay. -/
theorem orderly_withinLines : Pipeline.Orderly
    ([collapseHorizontal, trimLines, Rule.aroundMarks name accepts marks] ++ [emptyLines, trimEnds]) := by
  have hcollapse : collapseHorizontal.StaysUnder trimLines :=
    settles_collapseHorizontal.staysUnder fun _ => along_trimLines (by decide)
  have hcollapse' : collapseHorizontal.StaysUnder (Rule.aroundMarks name accepts marks) :=
    settles_collapseHorizontal.staysUnder fun _ => h.along_squeezed fun _ => Class.isBlank_of_among rfl
  have htrim : trimLines.StaysUnder (Rule.aroundMarks name accepts marks) :=
    settles_trimLines.staysUnder fun _ => h.along_trimmed
  have hlead : SparesEnds (Trimmed Class.spaceTab) := sparesEnds_trimmed spaceTab_eq_false
  exact .cons settles_collapseHorizontal.apply_apply
    (.cons hcollapse (.cons hcollapse' ((sparesEnds_squeezed _ _).each_staysUnder settles_collapseHorizontal)))
    (.cons settles_trimLines.apply_apply (.cons htrim (hlead.each_staysUnder settles_trimLines)) h.orderly)

/-- The rules where every line break becomes a space. -/
theorem orderly_acrossLines : Pipeline.Orderly
    ([collapseWhitespace, Rule.aroundMarks name accepts marks] ++ [emptyLines, trimEnds]) := by
  have hcollapse : collapseWhitespace.StaysUnder (Rule.aroundMarks name accepts marks) :=
    settles_collapseWhitespace.staysUnder fun _ => h.along_squeezed fun _ => id
  exact .cons settles_collapseWhitespace.apply_apply
    (.cons hcollapse ((sparesEnds_squeezed _ _).each_staysUnder settles_collapseWhitespace)) h.orderly

/-- The rules where a run of line breaks becomes one. -/
theorem orderly_betweenStatements : Pipeline.Orderly
    ([Script.newlineRuns, collapseHorizontal, Rule.aroundMarks name accepts marks] ++ [emptyLines, trimEnds]) := by
  have hbreaks : Script.newlineRuns.StaysUnder collapseHorizontal :=
    Script.settles_newlineRuns.staysUnder fun _ => Script.along_collapseHorizontal
  have hbreaks' : Script.newlineRuns.StaysUnder (Rule.aroundMarks name accepts marks) :=
    Script.settles_newlineRuns.staysUnder fun _ => h.along_bareBreak
  have hcollapse : collapseHorizontal.StaysUnder (Rule.aroundMarks name accepts marks) :=
    settles_collapseHorizontal.staysUnder fun _ => h.along_squeezed fun _ => Class.isBlank_of_among rfl
  exact .cons Script.settles_newlineRuns.apply_apply
    (.cons hbreaks (.cons hbreaks' (Script.sparesEnds_bareBreak.each_staysUnder Script.settles_newlineRuns)))
    (.cons settles_collapseHorizontal.apply_apply
      (.cons hcollapse ((sparesEnds_squeezed _ _).each_staysUnder settles_collapseHorizontal)) h.orderly)

end Punctuates

/-! ### The pipelines -/

section Choice

variable {inline free : Rule} {across : Pipeline} {removeWhitespace removeEmptyLines : Bool}

/-- Blanks within lines only, or across them as well, and around punctuation if this is asked for. -/
theorem Pipeline.orderly_choice
    (hwithin : Orderly ([collapseHorizontal, trimLines, inline] ++ [emptyLines, trimEnds]))
    (hacross : Orderly (across ++ [free] ++ [emptyLines, trimEnds])) (preserves tightens : Bool) :
    Orderly (onlyIf removeWhitespace
        (if preserves then [collapseHorizontal, trimLines] ++ onlyIf tightens [inline]
        else across ++ onlyIf tightens [free]) ++
      onlyIf removeEmptyLines [emptyLines] ++ [trimEnds]) := by
  cases preserves with
  | true => exact hwithin.withEnds ((List.Sublist.refl [collapseHorizontal, trimLines]).append (onlyIf_sublist _ _))
  | false => exact hacross.withEnds ((List.Sublist.refl across).append (onlyIf_sublist _ _))

end Choice

namespace Generic

theorem punctuates_inline : Punctuates Class.spaceTab punctuationMarks :=
  ⟨Text.forall_mem_of_all (by decide), fun _ => Class.isBlank_of_spaceTab, by decide⟩

theorem punctuates_free : Punctuates isBlank punctuationMarks :=
  ⟨Text.forall_mem_of_all (by decide), fun _ => id, by decide⟩

theorem orderly_withinLines :
    Pipeline.Orderly ([collapseHorizontal, trimLines, loosePunctuation] ++ [emptyLines, trimEnds]) :=
  punctuates_inline.orderly_withinLines

theorem orderly_acrossLines :
    Pipeline.Orderly ([collapseWhitespace, freePunctuation] ++ [emptyLines, trimEnds]) :=
  punctuates_free.orderly_acrossLines

theorem orderly_pipeline (language : Language) (options : Options) : Pipeline.Orderly (pipeline language options) := by
  rw [pipeline]
  cases language.lineRole with
  | indentation => exact orderly_indentation.withEnds (.refl _)
  | lines =>
    have hblanks : List.Sublist ([collapseHorizontal, trimLines] ++
        Pipeline.onlyIf (options.tightens && plainDelimiters language.commentStyle) [loosePunctuation])
        [collapseHorizontal, trimLines, loosePunctuation] :=
      (List.Sublist.refl [collapseHorizontal, trimLines]).append (Pipeline.onlyIf_sublist _ _)
    exact orderly_withinLines.withEnds hblanks
  | freeForm => exact Pipeline.orderly_choice orderly_withinLines orderly_acrossLines _ _

end Generic

/-- The shared rules are those of a language with lines or without, in which no punctuation is tightened. -/
theorem Spacing.orderly_pipeline (removeWhitespace preserveLineBreaks removeEmptyLines : Bool) :
    Pipeline.Orderly (pipeline removeWhitespace preserveLineBreaks removeEmptyLines ++ [trimEnds]) := by
  cases preserveLineBreaks with
  | true => exact Generic.orderly_withinLines.withEnds (List.sublist_append_left [collapseHorizontal, trimLines] _)
  | false => exact Generic.orderly_acrossLines.withEnds (List.sublist_append_left [collapseWhitespace] _)

theorem Style.orderly_pipeline {options : Options} (hlevel : options.level ≠ .aggressive) :
    Pipeline.Orderly (pipeline options) := by
  have haggressive : options.isAggressive = false := by simpa [Options.isAggressive] using hlevel
  have hinline : Punctuates Class.spaceTab punctuationMarks :=
    ⟨Text.forall_mem_of_all (by decide), fun _ => Class.isBlank_of_spaceTab, by decide⟩
  have hfree : Punctuates isBlank punctuationMarks := ⟨Text.forall_mem_of_all (by decide), fun _ => id, by decide⟩
  rw [pipeline, haggressive, Pipeline.onlyIf_false, List.append_nil]
  exact Pipeline.orderly_choice hinline.orderly_withinLines hfree.orderly_acrossLines _ _

theorem Script.orderly_pipeline {options : Options} (hlevel : options.level ≠ .aggressive)
    (hconsole : options.removeConsoleLog = false) (hdebugger : options.removeDebugger = false) :
    Pipeline.Orderly (pipeline options) := by
  have haggressive : options.isAggressive = false := by simpa [Options.isAggressive] using hlevel
  have hinline : Punctuates Class.spaceTab punctuationMarks :=
    ⟨Text.forall_mem_of_all (by decide), fun _ => Class.isBlank_of_spaceTab, by decide⟩
  have hfree : Punctuates gapBlank punctuationMarks :=
    ⟨Text.forall_mem_of_all (by decide), fun _ => isBlank_of_gapBlank, by decide⟩
  rw [pipeline, haggressive, hconsole, hdebugger]
  simp only [Pipeline.onlyIf_false, List.nil_append, List.append_nil]
  exact Pipeline.orderly_choice hinline.orderly_withinLines hfree.orderly_betweenStatements _ _

/-- A second run of a pipeline changes nothing, and neither does any one of its rules. This holds of the shared rules
for blanks with and without the trimming behind them, of the rules of every language that has no minifier of its own, of
those of stylesheets below the aggressive level, and of those of scripts below it where debugging aids stay. -/
theorem pipelines_idempotent :
    (∀ removeWhitespace preserveLineBreaks removeEmptyLines,
      (Spacing.pipeline removeWhitespace preserveLineBreaks removeEmptyLines).Idempotent ∧
        Pipeline.Idempotent (Spacing.pipeline removeWhitespace preserveLineBreaks removeEmptyLines ++
          [Spacing.trimEnds])) ∧
      (∀ language options, (Generic.pipeline language options).Idempotent) ∧
      (∀ options : Options, options.level ≠ .aggressive → (Style.pipeline options).Idempotent) ∧
      ∀ options : Options, options.level ≠ .aggressive → options.removeConsoleLog = false →
        options.removeDebugger = false → (Script.pipeline options).Idempotent := by
  refine ⟨fun removeWhitespace preserveLineBreaks removeEmptyLines => ?_, fun language options => ?_,
    fun options hlevel => ?_, fun options hlevel hconsole hdebugger => ?_⟩
  · have horderly := Spacing.orderly_pipeline removeWhitespace preserveLineBreaks removeEmptyLines
    exact ⟨(horderly.sublist (List.sublist_append_left _ _)).idempotent, horderly.idempotent⟩
  · exact (Generic.orderly_pipeline language options).idempotent
  · exact (Style.orderly_pipeline hlevel).idempotent
  · exact (Script.orderly_pipeline hlevel hconsole hdebugger).idempotent

end Minifier
