import Minifier.Minify
import Minifier.Proofs.Rule.Gaps

/-!
Operators in languages whose lines end statements. The rule for punctuation takes an equals sign for a delimiter,
whatever operator it is the end or the beginning of. So blanks next to an operator go or stay on each side for itself,
as the characters on this side have it.
-/

namespace Minifier.Generic

open Pattern

variable {language : Language} {options : Options} {c d first last : Char} {gap front back operator : List Char}

theorem isBlank_of_mem_punctuationMarks : ∀ c ∈ punctuationMarks, Text.isBlank c = false :=
  Text.forall_mem_of_all (by decide)

theorem sparesGaps_loosePunctuation : SparesGaps loosePunctuation.apply :=
  sparesGaps_aroundMarks isBlank_of_mem_punctuationMarks 'a' (by decide) (by decide)

theorem editsBlanks_loosePunctuation : EditsBlanks loosePunctuation.apply :=
  Rule.editsBlanks_aroundMarks Spacing.spaceTab_eq_false isBlank_of_mem_punctuationMarks 'a' (by decide) (by decide)

theorem bridges_loosePunctuation (hc : Text.isBlank c = false) (hd : Text.isBlank d = false)
    (hgap : ∀ x ∈ gap, Class.spaceTab x = true) :
    Bridges loosePunctuation.apply c d gap (if c ∈ punctuationMarks ∨ d ∈ punctuationMarks then [] else gap) :=
  bridges_aroundMarks (fun x hx => Spacing.spaceTab_eq_false (isBlank_of_mem_punctuationMarks x hx)) 'a' (by decide)
    (by decide) (Spacing.spaceTab_eq_false hc) (Spacing.spaceTab_eq_false hd) hgap

/-- The rules of a language whose lines end statements, and whose braces and semicolons are plain delimiters. -/
def linePipeline (options : Options) : Pipeline :=
  Pipeline.onlyIf options.removeWhitespace
    ([Spacing.collapseHorizontal, Spacing.trimLines] ++ Pipeline.onlyIf options.tightens [loosePunctuation]) ++
  Pipeline.onlyIf options.removeEmptyLines [Spacing.emptyLines] ++
  [Spacing.trimEnds]

theorem pipeline_eq_linePipeline (hlines : language.lineRole = .lines)
    (hplain : plainDelimiters language.commentStyle = true) : pipeline language options = linePipeline options := by
  rw [pipeline, hlines, hplain, Bool.and_true, linePipeline]

theorem each_linePipeline {property : Rule → Prop} (hhorizontal : property Spacing.collapseHorizontal)
    (hlines : property Spacing.trimLines)
    (hloose : options.removeWhitespace = true → options.tightens = true → property loosePunctuation)
    (hempty : property Spacing.emptyLines) (hends : property Spacing.trimEnds) : (linePipeline options).Each property :=
  .append
    (.append
      (.onlyIf fun hremove =>
        .append (.cons hhorizontal (.cons hlines .nil)) (.onlyIf fun htightens => .cons (hloose hremove htightens) .nil))
      (.onlyIf fun _ => .cons hempty .nil))
    (.cons hends .nil)

theorem editsBlanks_linePipeline : EditsBlanks (linePipeline options).run :=
  Pipeline.editsBlanks_run (each_linePipeline Spacing.editsBlanks_collapseHorizontal Spacing.editsBlanks_trimLines
    (fun _ _ => editsBlanks_loosePunctuation) Spacing.editsBlanks_emptyLines Spacing.editsBlanks_trimEnds)

theorem sparesGaps_linePipeline : SparesGaps (linePipeline options).run :=
  Pipeline.sparesGaps_run (each_linePipeline Spacing.sparesGaps_collapseHorizontal Spacing.sparesGaps_trimLines
    (fun _ _ => sparesGaps_loosePunctuation) Spacing.sparesGaps_emptyLines Spacing.sparesGaps_trimEnds)

/-! ### Gaps -/

/-- Whether nothing is between two characters in the end. There was nothing, or there were blanks within a line, next to
a punctuation mark, and blanks are to go and to be tightened. -/
def ClosesGap (options : Options) (c d : Char) (gap : List Char) : Prop :=
  gap = [] ∨ options.removeWhitespace = true ∧ options.tightens = true ∧
    (c ∈ punctuationMarks ∨ d ∈ punctuationMarks) ∧ ¬ Lasting gap

/-- Blanks within a line, where they are tightened. -/
theorem bridges_tightened (hremove : options.removeWhitespace = true) (htightens : options.tightens = true)
    (hc : Text.isBlank c = false) (hd : Text.isBlank d = false) (hgap : ¬ Lasting gap) :
    Bridges (linePipeline options).run c d gap
      (if c ∈ punctuationMarks ∨ d ∈ punctuationMarks then [] else spaceFor gap) := by
  have hhorizontal : Bridges Spacing.collapseHorizontal.apply c d gap (spaceFor gap) :=
    bridges_put_run1 (Spacing.among_eq_false hc (by decide)) (Spacing.among_eq_false hd (by decide))
      (horizontal_of_not_lasting hgap)
  have hbreak : '\n' ∉ spaceFor gap := fun h => absurd (eq_space_of_mem_spaceFor h) (by decide)
  have htight : '\n' ∉ if c ∈ punctuationMarks ∨ d ∈ punctuationMarks then [] else spaceFor gap := by
    split
    · exact List.not_mem_nil
    · exact hbreak
  have hwithin := hhorizontal.pipeline_cons <| (Spacing.bridges_trimLines hc hd hbreak).pipeline_cons <|
    (bridges_loosePunctuation hc hd fun _ hx => eq_space_of_mem_spaceFor hx ▸ rfl).pipeline_cons (.pipeline_nil c d _)
  have hends := (Spacing.bridges_trimEnds hc hd).pipeline_cons (.pipeline_nil c d
    (if c ∈ punctuationMarks ∨ d ∈ punctuationMarks then [] else spaceFor gap))
  rw [linePipeline, hremove, htightens]
  refine Bridges.pipeline_append (hwithin.pipeline_append ?_) hends
  cases options.removeEmptyLines with
  | true => exact (Spacing.bridges_emptyLines hc hd htight).pipeline_cons (.pipeline_nil c d _)
  | false => exact .pipeline_nil c d _

/-- What is left of the blanks between two characters that are none. -/
theorem exists_bridges_linePipeline (options : Options) (hc : Text.isBlank c = false) (hd : Text.isBlank d = false)
    (hgap : ∀ x ∈ gap, Text.isBlank x = true) :
    ∃ gap', Bridges (linePipeline options).run c d gap gap' ∧ (∀ x ∈ gap', Text.isBlank x = true) ∧
      (gap' = [] ↔ ClosesGap options c d gap) := by
  by_cases htight : options.removeWhitespace = true ∧ options.tightens = true
  · obtain ⟨hremove, htightens⟩ := htight
    by_cases hlasting : Lasting gap
    · obtain ⟨gap', hbridges, hspares⟩ := sparesGaps_linePipeline c d hc hd gap hgap
      refine ⟨gap', hbridges, hspares.isBlank hgap, iff_of_false (hspares.lasting hlasting).ne_nil ?_⟩
      rintro (hnil | ⟨-, -, -, hwithin⟩)
      · exact hlasting.ne_nil hnil
      · exact hwithin hlasting
    · refine ⟨_, bridges_tightened hremove htightens hc hd hlasting, ?_, ?_⟩
      · split
        · exact List.forall_mem_nil _
        · exact fun _ hx => eq_space_of_mem_spaceFor hx ▸ rfl
      · split
        · rename_i hmarks
          exact iff_of_true rfl (.inr ⟨hremove, htightens, hmarks, hlasting⟩)
        · rename_i hmarks
          rw [spaceFor_eq_nil_iff]
          exact ⟨.inl, fun h => h.resolve_right fun ⟨_, _, h, _⟩ => hmarks h⟩
  · have hleaves : LeavesGaps (linePipeline options).run :=
      Pipeline.leavesGaps_run (each_linePipeline Spacing.leavesGaps_collapseHorizontal Spacing.leavesGaps_trimLines
        (fun hremove htightens => absurd ⟨hremove, htightens⟩ htight) Spacing.leavesGaps_emptyLines
        Spacing.leavesGaps_trimEnds)
    obtain ⟨gap', hbridges, hmem, hnil⟩ := hleaves c d hc hd gap hgap
    refine ⟨gap', hbridges, fun x hx => (hmem x hx).elim (hgap x) fun hspace => hspace ▸ rfl, hnil.trans ?_⟩
    exact ⟨.inl, fun h => h.resolve_right fun ⟨hremove, htightens, _⟩ => htight ⟨hremove, htightens⟩⟩

/-! ### Operators -/

/-- An operator in Swift or Scala, or any other characters that are no blanks, with or without blanks on either side of
it. It stays whole, and what stands before and behind is edited by itself. On each side the blanks go if they are within
a line, one of the two characters there is a punctuation mark, and blanks are tightened; otherwise some stay. The one
character of operators that is a punctuation mark is the equals sign. -/
theorem operator_gaps (hlanguage : language = .swift ∨ language = .scala) (options : Options)
    (hfirst : operator.head? = some first) (hlast : operator.getLast? = some last)
    (hoperator : ∀ x ∈ operator, Text.isBlank x = false) (hc : Text.isBlank c = false) (hd : Text.isBlank d = false)
    (hfront : ∀ x ∈ front, Text.isBlank x = true) (hback : ∀ x ∈ back, Text.isBlank x = true)
    (left right : List Char) :
    ∃ before front' back' behind,
      (pipeline language options).run (left ++ [c]) = before ++ [c] ∧
      (pipeline language options).run (d :: right) = d :: behind ∧
      (pipeline language options).run (left ++ c :: (front ++ (operator ++ back) ++ d :: right)) =
        before ++ c :: (front' ++ (operator ++ back') ++ d :: behind) ∧
      (∀ x ∈ front' ++ back', Text.isBlank x = true) ∧
      (front' = [] ↔ ClosesGap options c first front) ∧ (back' = [] ↔ ClosesGap options last d back) := by
  have hpipeline : pipeline language options = linePipeline options := by
    rcases hlanguage with rfl | rfl
    all_goals exact pipeline_eq_linePipeline rfl rfl
  obtain ⟨more, hmore⟩ := List.head?_eq_some_iff.mp hfirst
  obtain ⟨most, hmost⟩ := List.getLast?_eq_some_iff.mp hlast
  have hfirst' : Text.isBlank first = false := hoperator first (hmore ▸ List.mem_cons_self)
  have hlast' : Text.isBlank last = false := hoperator last (hmost ▸ by simp)
  obtain ⟨front', hbridges, hblank, hcloses⟩ := exists_bridges_linePipeline options hc hfirst' hfront
  obtain ⟨back', hbridges', hblank', hcloses'⟩ := exists_bridges_linePipeline options hlast' hd hback
  obtain ⟨hwhole, ⟨before, hbefore⟩, behind, hbehind⟩ :=
    editsBlanks_linePipeline.bridges_word hmore hmost hoperator hbridges hbridges' left right
  rw [hpipeline]
  refine ⟨before, front', back', behind, hbefore, hbehind, ?_, List.forall_mem_append.mpr ⟨hblank, hblank'⟩, hcloses,
    hcloses'⟩
  rw [hwhole, hbefore, hbehind]
  simp

/-- A comparison keeps the space before it, and loses the one behind it. -/
theorem operator_gaps_notEqual :
    ∃ before front' back' behind,
      (pipeline .scala {}).run ['a'] = before ++ ['a'] ∧ (pipeline .scala {}).run ['b'] = 'b' :: behind ∧
      (pipeline .scala {}).run "a != b".toList = before ++ 'a' :: (front' ++ (['!', '='] ++ back') ++ 'b' :: behind) ∧
      front' ≠ [] ∧ back' = [] := by
  have hopen : ¬ ClosesGap {} 'a' '!' [' '] := by
    rintro (hnil | ⟨-, -, hmarks, -⟩)
    · exact List.cons_ne_nil _ _ hnil
    · exact absurd hmarks (by decide)
  have hwithin : ¬ Lasting [' '] := by
    rintro ⟨x, hx, hlasting⟩
    rw [List.mem_singleton.mp hx] at hlasting
    exact absurd hlasting (by decide)
  have hclosed : ClosesGap {} '=' 'b' [' '] := .inr ⟨rfl, rfl, by decide, hwithin⟩
  have hoperator : ∀ x ∈ ['!', '='], Text.isBlank x = false := Text.forall_mem_of_all (by decide)
  have hspace : ∀ x ∈ [' '], Text.isBlank x = true := Text.forall_mem_of_all (by decide)
  obtain ⟨before, front', back', behind, hbefore, hbehind, hrun, -, hfront, hback⟩ :=
    operator_gaps (c := 'a') (d := 'b') (.inr rfl) {} rfl rfl hoperator (by decide) (by decide) hspace hspace [] []
  exact ⟨before, front', back', behind, hbefore, hbehind, hrun, mt hfront.mp hopen, hback.mpr hclosed⟩

/-- The equals sign of an assignment runs into the minus sign of a number, and a comparison is tight on one side. -/
theorem pipeline_operators :
    (pipeline .swift {}).run "x = -1".toList = "x=-1".toList ∧
      minifyGeneric "x = -1" .swift {} = .ofTexts "x = -1" "x=-1" [] ∧
      (pipeline .scala {}).run "a != b".toList = "a !=b".toList ∧
      minifyGeneric "a != b" .scala {} = .ofTexts "a != b" "a !=b" [] := by
  decide +kernel

end Minifier.Generic
