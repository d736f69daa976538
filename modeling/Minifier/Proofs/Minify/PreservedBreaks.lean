import Minifier.Proofs.Minify.Shortening
import Minifier.Proofs.Minify.Stages
import Minifier.Proofs.Rule.Indentation

/-!
Line breaks that are kept, because lines carry meaning in the language or because the options ask for it.

## Languages in which lines carry meaning

Whatever the options, no two lines with code on them are joined and none is cut, and each differs from what it was in
blanks only. Where the beginning of a line carries meaning too, every line but the first keeps its indentation.
-/

namespace Minifier.Generic

open Text

variable {language : Language} {options : Options}

/-- Where line breaks are kept, every rule on offer leaves the code of every line where it is. -/
theorem each_keepsLines (h : language.lineRole ≠ .freeForm ∨ options.preserveLineBreaks = true) :
    (pipeline language options).Each fun rule => KeepsLines rule.apply := by
  have hwithin : Pipeline.Each (fun rule => KeepsLines rule.apply)
      ([Spacing.collapseHorizontal, Spacing.trimLines] ++
        Pipeline.onlyIf (options.tightens && plainDelimiters language.commentStyle) [loosePunctuation]) :=
    .append (.cons Spacing.keepsLines_collapseHorizontal (.cons Spacing.keepsLines_trimLines .nil))
      (.onlyIf fun _ => .cons (keepsLines_around _ _) .nil)
  refine .append (.append (.onlyIf fun _ => ?_) (.onlyIf fun _ => ?_)) ?_
  · cases hrole : language.lineRole with
    | indentation =>
      exact .cons Spacing.keepsLines_trailingSpace
        (.cons (fun text => (Spacing.likeLines_innerSpaces text).codeLines_eq) .nil)
    | lines => exact hwithin
    | freeForm =>
      have hpreserve : options.preserveLineBreaks = true := h.resolve_left fun hne => hne hrole
      rw [if_pos hpreserve]
      exact hwithin
  · exact .cons Spacing.keepsLines_emptyLines .nil
  · exact .cons Spacing.keepsLines_trimEnds .nil

theorem codeLines_run (h : language.lineRole ≠ .freeForm ∨ options.preserveLineBreaks = true) (text : List Char) :
    codeLines ((pipeline language options).run text) = codeLines text :=
  Pipeline.keepsLines_run (each_keepsLines h) text

/-- Where indentation carries meaning, the rules leave that of every line with code on it but the first. -/
theorem tail_indents_run (h : language.lineRole = .indentation) (text : List Char) :
    (indents ((pipeline language options).run text)).tail = (indents text).tail := by
  have heach : (pipeline language options).Each fun rule =>
      ∀ text, (indents (rule.apply text)).tail = (indents text).tail := by
    rw [pipeline, h]
    refine .append (.append (.onlyIf fun _ => ?_) (.onlyIf fun _ => ?_)) ?_
    · exact .cons (fun text => congrArg List.tail (Spacing.likeLines_trailingSpace text).indents_eq)
        (.cons (fun text => congrArg List.tail (Spacing.likeLines_innerSpaces text).indents_eq) .nil)
    · refine .cons (fun text => ?_) .nil
      rw [indents, Spacing.nonBlankLines_emptyLines, indents]
    · exact .cons Spacing.tail_indents_trimEnds .nil
  exact @Pipeline.run_of_apply (fun old new => (indents new).tail = (indents old).tail) (fun _ => rfl)
    (fun h h' => h'.trans h) _ heach text

/-- The lines with code on them correspond one by one, and where indentation carries meaning they keep it from the
second one on. -/
theorem lines_correspond (options : Options) (text : List Char) (h : language.lineRole ≠ .freeForm) :
    List.Forall₂ (fun line line' => nonBlank line = nonBlank line') (nonBlankLines text)
        (nonBlankLines ((pipeline language options).run text)) ∧
      (language.lineRole = .indentation →
        (nonBlankLines ((pipeline language options).run text)).tail.map indentation =
          (nonBlankLines text).tail.map indentation) := by
  refine ⟨codeLines_eq_iff.mp (codeLines_run (Or.inl h) text).symm, fun hrole => ?_⟩
  rw [List.map_tail, List.map_tail]
  exact tail_indents_run hrole text

/-- A function of two lines, with blanks wherever they may go. -/
def indentedFunction : List Char := "\n\t \n  def f(x):  \r\n\n    y  =  x\t\n    \n    return  y\n".toList

theorem lines_correspond_indentedFunction :
    Language.python.lineRole ≠ .freeForm ∧
      nonBlankLines ((pipeline .python {}).run indentedFunction) =
        ["def f(x):".toList, "    y = x".toList, "    return y".toList] ∧
      List.Forall₂ (fun line line' => nonBlank line = nonBlank line') (nonBlankLines indentedFunction)
        (nonBlankLines ((pipeline .python {}).run indentedFunction)) ∧
      (Language.python.lineRole = .indentation →
        (nonBlankLines ((pipeline .python {}).run indentedFunction)).tail.map indentation =
          (nonBlankLines indentedFunction).tail.map indentation) :=
  ⟨by decide, by decide +kernel, lines_correspond {} indentedFunction (by decide)⟩

end Minifier.Generic

/-!
## Line breaks that are to be preserved

The rules for blanks then leave the code of every line where it is. Those of the
aggressive level shorten code, and a line break between two parts of it stays where it was, except that in a script the
blanks between a semicolon and a closing brace go with the semicolon, line breaks among them.
-/

namespace Minifier

open Pattern Text

variable {language : Language} {options : Options} {apart : List Char → List Char → Prop} {text out : List Char}

/-! ### Parts of a text -/

/-- The code of a text is shortened to that of another one. Where a line feed stands between two parts of the first
whose code meets a condition, a line feed stands between what is left of them. -/
structure Separates (language : Language) (options : Options) (apart : List Char → List Char → Prop)
    (text out : List Char) : Prop where
  whole : Shortened language options (nonBlank text) (nonBlank out)
  parts : ∀ first second, text = first ++ '\n' :: second → apart (nonBlank first) (nonBlank second) →
    ∃ before behind, out = before ++ '\n' :: behind ∧ Shortened language options (nonBlank first) (nonBlank before) ∧
      Shortened language options (nonBlank second) (nonBlank behind)

namespace Separates

theorem refl (text : List Char) : Separates language options apart text text where
  whole := .refl _
  parts first second htext _ := ⟨first, second, htext, .refl _, .refl _⟩

/-- Without a condition such edits may follow one another. -/
theorem trans {first second third : List Char} (h : Separates language options (fun _ _ => True) first second)
    (h' : Separates language options (fun _ _ => True) second third) :
    Separates language options (fun _ _ => True) first third where
  whole := h.whole.trans h'.whole
  parts upper lower htext _ := by
    obtain ⟨before, behind, hmiddle, hbefore, hbehind⟩ := h.parts upper lower htext trivial
    obtain ⟨before', behind', hout, hbefore', hbehind'⟩ := h'.parts before behind hmiddle trivial
    exact ⟨before', behind', hout, hbefore.trans hbefore', hbehind.trans hbehind'⟩

theorem mono {apart' : List Char → List Char → Prop} (h : Separates language options apart text out)
    (himp : ∀ code code', apart' code code' → apart code code') : Separates language options apart' text out where
  whole := h.whole
  parts first second htext hcode := h.parts first second htext (himp _ _ hcode)

end Separates

/-- A character stands in the first of two pieces or in the second. -/
theorem append_eq_append_cons {c : Char} {left right first second : List Char}
    (h : left ++ right = first ++ c :: second) :
    (∃ more, left = first ++ c :: more ∧ second = more ++ right) ∨
      ∃ more, first = left ++ more ∧ right = more ++ c :: second := by
  rcases List.append_eq_append_iff.mp h with ⟨more, hfirst, hright⟩ | ⟨more, hleft, hsecond⟩
  · exact Or.inr ⟨more, hfirst, hright⟩
  · cases more with
    | nil => exact Or.inr ⟨[], by simpa using hleft.symm, hsecond.symm⟩
    | cons d more =>
      obtain ⟨rfl, rfl⟩ := List.cons.inj hsecond
      exact Or.inl ⟨more, hleft, rfl⟩

/-- A line feed stands before, inside or behind an old piece, so it is enough to look at those inside. -/
theorem Edits.separates {σ : Type} {state final : σ}
    (hapart : ∀ {kept first second}, apart (kept ++ first) second → apart first second)
    (h : Edits (fun _ old new rest _ => Shortened language options (nonBlank old) (nonBlank new) ∧
      ∀ kept first second, old = first ++ '\n' :: second →
        apart (nonBlank (kept ++ first)) (nonBlank (second ++ rest)) → ∃ before behind, new = before ++ '\n' :: behind ∧
          Shortened language options (nonBlank first) (nonBlank before) ∧
          Shortened language options (nonBlank second) (nonBlank behind)) state text out final) :
    Separates language options apart text out := by
  induction h with
  | keep kept => exact .refl kept
  | @swap _ _ _ kept old new rest out hswap _ ih =>
    obtain ⟨hold, hinside⟩ := hswap
    refine ⟨?_, fun first second htext hcode => ?_⟩
    · simp only [nonBlank_append]
      exact (hold.append ih.whole).append_left _
    · rcases append_eq_append_cons htext with ⟨more, rfl, rfl⟩ | ⟨more, rfl, hmore⟩
      · refine ⟨first, more ++ (new ++ out), by simp, .refl _, ?_⟩
        simp only [nonBlank_append]
        exact (hold.append ih.whole).append_left _
      · rcases append_eq_append_cons hmore with ⟨piece, hpiece, rfl⟩ | ⟨piece, rfl, hrest⟩
        · obtain ⟨before, behind, rfl, hbefore, hbehind⟩ := hinside kept more piece hpiece hcode
          refine ⟨kept ++ before, behind ++ out, by simp, ?_, ?_⟩
          · simp only [nonBlank_append]
            exact hbefore.append_left _
          · simp only [nonBlank_append]
            exact hbehind.append ih.whole
        · rw [← List.append_assoc, nonBlank_append] at hcode
          obtain ⟨before, behind, rfl, hbefore, hbehind⟩ := ih.parts piece second hrest (hapart hcode)
          refine ⟨kept ++ (new ++ before), behind, by simp, ?_, hbehind⟩
          simp only [nonBlank_append]
          exact (hold.append hbefore).append_left _

/-! ### Rules of the aggressive level -/

theorem Shortens.shortened (haggressive : options.isAggressive = true) {piece piece' : List Char}
    (h : Shortens language piece piece') : Shortened language options (nonBlank piece) (nonBlank piece') := by
  have hself {code : List Char} (hcode : ∀ c ∈ code, isBlank c = false) : nonBlank code = code :=
    List.filter_eq_self.mpr fun c hc => by simp [hcode c hc]
  rw [hself h.not_isBlank.1, hself h.not_isBlank.2]
  exact .of_shortens haggressive h

/-- No line feed stands in a piece that is shortened. -/
theorem Rule.ShortensPiece.separates_apply {rule : Rule} (haggressive : options.isAggressive = true)
    (h : rule.ShortensPiece language) (text : List Char) :
    Separates language options (fun _ _ => True) text (rule.apply text) := by
  refine apply_of_once .refl .trans (fun text => ?_) text
  refine ((edits_replaceAll rule.pattern rule.replace text).mono ?_).separates fun _ => trivial
  rintro _ old new rest _ ⟨index, prev, found, hfound, rfl, rfl⟩
  obtain ⟨left, piece, piece', right, hpiece, htext, hreplace⟩ := h index prev found rest hfound
  have hshort := hpiece.shortened haggressive
  rw [htext, hreplace]
  refine ⟨?_, fun kept first second hsplit _ => ?_⟩
  · simp only [nonBlank_append]
    exact (hshort.append_right _).append_left _
  · rcases append_eq_append_cons hsplit with ⟨more, rfl, rfl⟩ | ⟨more, rfl, hmore⟩
    · refine ⟨first, more ++ (piece' ++ right), by simp, .refl _, ?_⟩
      simp only [nonBlank_append]
      exact (hshort.append_right _).append_left _
    · rcases append_eq_append_cons hmore with ⟨rest, rfl, -⟩ | ⟨rest, rfl, rfl⟩
      · exact absurd (hpiece.not_isBlank.1 '\n' (by simp)) (by decide)
      · refine ⟨left ++ (piece' ++ rest), second, by simp, ?_, .refl _⟩
        simp only [nonBlank_append]
        exact (hshort.append_right _).append_left _

namespace Script

/-- The code before a line break and the code behind it, unless a semicolon and a closing brace stand next to it. -/
def ApartFromBrace (code code' : List Char) : Prop := ¬ (code.getLast? = some ';' ∧ code'.head? = some '\x7d')

theorem ApartFromBrace.of_append {kept code code' : List Char} (h : ApartFromBrace (kept ++ code) code') :
    ApartFromBrace code code' := by
  rintro ⟨hlast, hhead⟩
  exact h ⟨by rw [List.getLast?_append, hlast, Option.some_or], hhead⟩

/-- A match of the rule is a run of semicolons, blanks and a closing brace. -/
theorem exists_of_takes_semicolonBrace {prev : Option Char} {taken behind : List Char} {parts : Parts}
    (h : semicolonBrace.pattern.Takes prev taken behind parts) :
    ∃ marks blanks, taken = marks ++ (blanks ++ ['\x7d']) ∧ marks ≠ [] ∧ (∀ c ∈ marks, c = ';') ∧
      ∀ c ∈ blanks, isBlank c = true := by
  obtain ⟨_, brace, _, _, ⟨marks, blanks, _, _, hmarks, ⟨hblanks, -⟩, rfl, -⟩, hbrace, rfl, -⟩ := h
  obtain ⟨hne, hall, -⟩ := (takes_run1 _).mp hmarks
  obtain ⟨rfl, -⟩ := (takes_char '\x7d').mp hbrace
  exact ⟨marks, blanks, List.append_assoc _ _ _, hne, fun c hc => by simpa using hall c hc, hblanks⟩

/-- Such a match holds line feeds among its blanks only, next to the semicolons and the brace. -/
theorem not_apartFromBrace {marks blanks kept first second rest : List Char} (hne : marks ≠ [])
    (hmarks : ∀ c ∈ marks, c = ';') (hblanks : ∀ c ∈ blanks, isBlank c = true)
    (h : marks ++ (blanks ++ ['\x7d']) = first ++ '\n' :: second) :
    ¬ ApartFromBrace (nonBlank (kept ++ first)) (nonBlank (second ++ rest)) := by
  have hself : nonBlank marks = marks := List.filter_eq_self.mpr fun c hc => by rw [hmarks c hc]; rfl
  rcases append_eq_append_cons h with ⟨more, rfl, -⟩ | ⟨more, rfl, hmore⟩
  · exact absurd (hmarks '\n' (by simp)) (by decide)
  · rcases append_eq_append_cons hmore with ⟨last, rfl, rfl⟩ | ⟨last, -, hlast⟩
    · have hbefore : nonBlank more = [] := nonBlank_eq_nil_iff.mpr fun c hc => hblanks c (by simp [hc])
      have hbehind : nonBlank last = [] := nonBlank_eq_nil_iff.mpr fun c hc => hblanks c (by simp [hc])
      obtain ⟨c, hc⟩ := Option.ne_none_iff_exists'.mp (mt List.getLast?_eq_none_iff.mp hne)
      obtain rfl := hmarks c (List.mem_of_getLast? hc)
      refine not_not_intro ⟨?_, ?_⟩
      · rw [nonBlank_append, nonBlank_append, hbefore, hself, List.append_nil, List.getLast?_append, hc, Option.some_or]
      · rw [nonBlank_append, nonBlank_append, hbehind]
        rfl
    · have hbrace : '\n' ∈ ['\x7d'] := hlast ▸ List.mem_append_right last List.mem_cons_self
      exact absurd hbrace (by decide)

theorem separates_semicolonBrace (hlanguage : language = .javascript ∨ language = .typescript)
    (haggressive : options.isAggressive = true) (text : List Char) :
    Separates language options ApartFromBrace text (semicolonBrace.apply text) := by
  rw [Rule.apply_eq_once rfl]
  refine ((edits_replaceAll _ _ text).mono ?_).separates ApartFromBrace.of_append
  rintro _ old new rest _ ⟨index, prev, found, hfound, rfl, rfl⟩
  obtain ⟨_, _, -, htakes, -⟩ := Match.exists_takes hfound
  obtain ⟨marks, blanks, htext, hne, hmarks, hblanks⟩ := exists_of_takes_semicolonBrace htakes
  have hreplace : semicolonBrace.replace found = ['\x7d'] := rfl
  rw [htext, hreplace]
  refine ⟨?_, fun kept first second hsplit hcode => ?_⟩
  · have hshort := (Shortens.semicolons (Or.inr hlanguage) hmarks).shortened haggressive
    rw [nonBlank_append, nonBlank_append, nonBlank_eq_nil_iff.mpr hblanks]
    exact hshort.append_right _
  · exact absurd hcode (not_apartFromBrace hne hmarks hblanks hsplit)

end Script

/-! ### Whole runs -/

/-- The rules of the aggressive level. -/
def aggressiveRules (options : Options) : Language → Pipeline
  | .css =>
    Pipeline.onlyIf options.isAggressive
      [Style.semicolonBrace, Style.zeroUnits, Style.leadingZero, Style.fontWeight]
  | .javascript | .typescript => Pipeline.onlyIf options.isAggressive [Script.semicolonBrace]
  | _ => []

/-- The code around a line break after which it may go: at the aggressive level, in a script, a semicolon and a closing
brace next to it. -/
def JoinsLines (language : Language) (options : Options) (code code' : List Char) : Prop :=
  (language = .javascript ∨ language = .typescript) ∧ options.isAggressive = true ∧
    code.getLast? = some ';' ∧ code'.head? = some '\x7d'

theorem separates_aggressiveRules (text : List Char) :
    Separates language options (fun code code' => ¬ JoinsLines language options code code') text
      ((aggressiveRules options language).run text) := by
  have hstyle (haggressive : options.isAggressive = true) : Separates .css options (fun _ _ => True) text
      (Pipeline.run [Style.semicolonBrace, Style.zeroUnits, Style.leadingZero, Style.fontWeight] text) :=
    Pipeline.run_of_apply .refl .trans
      (fun rule hrule => (Style.each_shortensPiece rule hrule).separates_apply haggressive) text
  have hscript (hlanguage : language = .javascript ∨ language = .typescript)
      (haggressive : options.isAggressive = true) :
      Separates language options (fun code code' => ¬ JoinsLines language options code code') text
        (Pipeline.run [Script.semicolonBrace] text) :=
    (Script.separates_semicolonBrace hlanguage haggressive text).mono fun _ _ hnot hbrace =>
      hnot ⟨hlanguage, haggressive, hbrace⟩
  cases haggressive : options.isAggressive with
  | false =>
    have hnone : aggressiveRules options language = [] := by
      cases language <;> simp [aggressiveRules, haggressive, Pipeline.onlyIf]
    rw [hnone]
    exact .refl text
  | true =>
    cases language with
    | css =>
      rw [aggressiveRules, haggressive]
      exact (hstyle haggressive).mono fun _ _ _ => trivial
    | javascript =>
      rw [aggressiveRules, haggressive]
      exact hscript (Or.inl rfl) haggressive
    | typescript =>
      rw [aggressiveRules, haggressive]
      exact hscript (Or.inr rfl) haggressive
    | _ => exact .refl text

/-- Where line breaks are preserved, the rules before those of the aggressive level leave the code of every line where
it is. -/
theorem exists_rules_eq (hhtml : language ≠ .html) (hxml : language ≠ .xml)
    (hpreserve : options.preserveLineBreaks = true) (hconsole : options.removeConsoleLog = false)
    (hdebugger : options.removeDebugger = false) :
    ∃ first : Pipeline, Stages.rules language options =
        first ++ aggressiveRules options language ++ [Spacing.trimEnds] ∧
      first.Each fun rule => KeepsLines rule.apply := by
  have hempty : Pipeline.Each (fun rule => KeepsLines rule.apply)
      (Pipeline.onlyIf options.removeEmptyLines [Spacing.emptyLines]) :=
    .onlyIf fun _ => .cons Spacing.keepsLines_emptyLines .nil
  have hblanks (name : String) (marks : List Char) : Pipeline.Each (fun rule => KeepsLines rule.apply)
      (Pipeline.onlyIf options.removeWhitespace ([Spacing.collapseHorizontal, Spacing.trimLines] ++
        Pipeline.onlyIf options.tightens
          [Rule.keepPart name (run Class.spaceTab ++ part 1 (oneOf marks) ++ run Class.spaceTab)])) :=
    .onlyIf fun _ => .append (.cons Spacing.keepsLines_collapseHorizontal (.cons Spacing.keepsLines_trimLines .nil))
      (.onlyIf fun _ => .cons (keepsLines_around name marks) .nil)
  have hscript : ∃ first : Pipeline, Script.pipeline options =
      first ++ Pipeline.onlyIf options.isAggressive [Script.semicolonBrace] ++ [Spacing.trimEnds] ∧
        first.Each fun rule => KeepsLines rule.apply := by
    rw [Script.pipeline, hpreserve, hconsole, hdebugger, if_pos rfl]
    exact ⟨_, rfl, .append (.append .nil (hblanks _ _)) hempty⟩
  have hgeneric (hrules : Stages.rules language options = Generic.pipeline language options)
      (hnone : aggressiveRules options language = []) : ∃ first : Pipeline, Stages.rules language options =
        first ++ aggressiveRules options language ++ [Spacing.trimEnds] ∧
      first.Each fun rule => KeepsLines rule.apply := by
    rw [hrules, hnone]
    refine ⟨_, congrArg (· ++ _) (List.append_nil _).symm, fun rule hrule => ?_⟩
    exact Generic.each_keepsLines (Or.inr hpreserve) rule (List.mem_append_left _ hrule)
  cases language with
  | html => exact absurd rfl hhtml
  | xml => exact absurd rfl hxml
  | css =>
    rw [Stages.rules, Style.pipeline, hpreserve, if_pos rfl]
    exact ⟨_, rfl, .append (hblanks _ _) hempty⟩
  | javascript => exact hscript
  | typescript => exact hscript
  | _ => exact hgeneric rfl rfl

/-- Where line breaks are preserved and no calls or statements are dropped, the code of a text stays on its lines unless
it is shortened. Two parts of the text with a line break between them end up on different lines, whatever is left of
their code, unless a semicolon and a closing brace stand next to that line break in a script at the aggressive level. -/
theorem exists_codeLines_rules (hhtml : language ≠ .html) (hxml : language ≠ .xml)
    (hpreserve : options.preserveLineBreaks = true) (hconsole : options.removeConsoleLog = false)
    (hdebugger : options.removeDebugger = false) (first second : List Char)
    (happart : ¬ JoinsLines language options (nonBlank first) (nonBlank second)) :
    ∃ before behind, codeLines ((Stages.rules language options).run (first ++ '\n' :: second)) = before ++ behind ∧
      Shortened language options (nonBlank first) before.flatten ∧
      Shortened language options (nonBlank second) behind.flatten := by
  obtain ⟨rules, hrules, hkeeps⟩ := exists_rules_eq hhtml hxml hpreserve hconsole hdebugger
  have hlines : codeLines (rules.run (first ++ '\n' :: second)) = codeLines first ++ codeLines second := by
    rw [Pipeline.keepsLines_run hkeeps, codeLines_append_break]
  have htrim (text : List Char) : codeLines (Pipeline.run [Spacing.trimEnds] text) = codeLines text :=
    Spacing.keepsLines_trimEnds text
  rw [hrules, Pipeline.run_append, Pipeline.run_append, htrim]
  generalize rules.run (first ++ '\n' :: second) = text at hlines ⊢
  have hseparates : Separates language options (fun code code' => ¬ JoinsLines language options code code') text
      ((aggressiveRules options language).run text) := separates_aggressiveRules text
  generalize (aggressiveRules options language).run text = out at hseparates ⊢
  -- Code on one side only is not cut, so all of it is on that side.
  have hwhole := hseparates.whole
  rw [← flatten_codeLines text, hlines, List.flatten_append, ← flatten_codeLines out] at hwhole
  by_cases hfirst : codeLines first = []
  · refine ⟨[], codeLines out, rfl, ?_, ?_⟩
    · rw [← flatten_codeLines first, hfirst]
      exact .refl _
    · rwa [hfirst, List.flatten_nil, List.nil_append, flatten_codeLines second] at hwhole
  · by_cases hsecond : codeLines second = []
    · refine ⟨codeLines out, [], (List.append_nil _).symm, ?_, ?_⟩
      · rwa [hsecond, List.flatten_nil, List.append_nil, flatten_codeLines first] at hwhole
      · rw [← flatten_codeLines second, hsecond]
        exact .refl _
    · obtain ⟨upper, lower, rfl, hupper, hlower⟩ := exists_of_codeLines_eq_append hlines hfirst hsecond
      have hupper : nonBlank upper = nonBlank first := by rw [← flatten_codeLines, hupper, flatten_codeLines]
      have hlower : nonBlank lower = nonBlank second := by rw [← flatten_codeLines, hlower, flatten_codeLines]
      obtain ⟨before, behind, rfl, hbefore, hbehind⟩ := hseparates.parts upper lower rfl (by rwa [hupper, hlower])
      refine ⟨codeLines before, codeLines behind, codeLines_append_break before behind, ?_, ?_⟩
      · rwa [flatten_codeLines, ← hupper]
      · rwa [flatten_codeLines, ← hlower]

/-- The highest level, with line breaks to be preserved and debugger statements to be left. -/
def preservingBreaks : Options := { level := .aggressive, preserveLineBreaks := true, removeDebugger := false }

/-- A declaration of zero width, and after a line break a brace and another rule. -/
def zeroWidth : List Char := "a \x7b width : 0.0px ;".toList
def halfTop : List Char := " \x7d b \x7b top : 00.5em \x7d".toList

theorem exists_codeLines_rules_halfTop :
    Language.css ≠ .html ∧ Language.css ≠ .xml ∧ preservingBreaks.preserveLineBreaks = true ∧
      preservingBreaks.removeConsoleLog = false ∧ preservingBreaks.removeDebugger = false ∧
      ¬ JoinsLines .css preservingBreaks (nonBlank zeroWidth) (nonBlank halfTop) ∧
      (Stages.rules .css preservingBreaks).run (zeroWidth ++ '\n' :: halfTop) =
        "a\x7bwidth:0\n\x7db\x7btop:.5em\x7d".toList ∧
      ∃ before behind, codeLines ((Stages.rules .css preservingBreaks).run (zeroWidth ++ '\n' :: halfTop)) =
          before ++ behind ∧
        Shortened .css preservingBreaks (nonBlank zeroWidth) before.flatten ∧
        Shortened .css preservingBreaks (nonBlank halfTop) behind.flatten := by
  have happart : ¬ JoinsLines .css preservingBreaks (nonBlank zeroWidth) (nonBlank halfTop) :=
    fun h => by simpa using h.1
  exact ⟨by decide, by decide, rfl, rfl, rfl, happart, by decide +kernel,
    exists_codeLines_rules (by decide) (by decide) rfl rfl rfl zeroWidth halfTop happart⟩

/-- A line break between a semicolon and a closing brace goes from a script and stays in a stylesheet. -/
theorem rules_joinsLines_semicolonBrace :
    (Stages.rules .javascript preservingBreaks).run "f()\x7ba();\n\x7d".toList = "f()\x7ba()\x7d".toList ∧
      (Stages.rules .css preservingBreaks).run "f\x7ba:b;\n\x7d".toList = "f\x7ba:b\n\x7d".toList ∧
      JoinsLines .javascript preservingBreaks "f()\x7ba();".toList "\x7d".toList :=
  ⟨by decide +kernel, by decide +kernel, Or.inl rfl, rfl, by decide, rfl⟩

end Minifier
