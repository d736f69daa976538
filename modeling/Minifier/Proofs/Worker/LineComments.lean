import Minifier.Proofs.Masking.Comments
import Minifier.Proofs.Rule.Breaks
import Minifier.Worker.Handler

/-!
Line comments in what a worker minifies. A comment that it finds and is asked to remove gives way to a space.
Every other one stays, whether it was to be kept or was not known to be a comment, and it ends where its line does:
code behind it is code only as long as the line break between them stays. Where line breaks mean no more
than other blanks, that is decided by two options alone, whatever comments are left.
-/

namespace Minifier.Worker

open Pattern

/-- The languages, apart from scripts and markup, in which a line break is a blank like any other. -/
def freeForm : List Language := [.java, .rust, .dart, .php, .perl, .sql, .css]

variable {language : Language} {options : Options} {c d : Char}

/-! ### Comments -/

theorem leavesSpaces_slashLexer : slashLexer.LeavesSpaces := by
  refine .of_takes rfl rfl (by decide) fun prev taken behind parts h => ?_
  rcases h with hblock | hline
  · exact Or.inr (hblock.exists_getLast? (by decide))
  · exact Or.inl (hline.not_mem (by decide))

theorem leavesSpaces_hashLexer : hashLexer.LeavesSpaces :=
  .of_takes rfl rfl (by decide) fun _ _ _ _ h => Or.inl (h.not_mem (by decide))

theorem leavesSpaces_lexerFor (style : CommentStyle) : (lexerFor style).LeavesSpaces := by
  cases style with
  | markup => exact .of_takes rfl rfl (by decide) fun _ _ _ _ h => Or.inr (h.exists_getLast? (by decide))
  | cFamily | php => exact leavesSpaces_slashLexer
  | hash | powerShell => exact leavesSpaces_hashLexer
  | sql | matlab | none => exact .of_lacks (by decide)

/-- In SQL no comment is found, so all of them are left. -/
theorem pieces_sql (stripComments : Bool) (text : List Char) :
    (lexerFor .sql).pieces stripComments text = (lexerFor .sql).pattern.segments text :=
  Lexer.pieces_of_lacks (by decide) stripComments text

/-! ### Line breaks -/

/-- Whether line breaks stay in such a language. -/
def keepsLines (options : Options) : Bool := !options.removeWhitespace || options.preserveLineBreaks

/-- What the rules make of a masked text. -/
def edit (language : Language) (options : Options) (text : List Char) : List Char :=
  Text.trim ((debugRules language options ++ blankRules language options).run text)

theorem rules_of_freeForm (h : language ∈ freeForm) :
    debugRules language options ++ blankRules language options =
      Pipeline.onlyIf options.removeWhitespace
        (if options.preserveLineBreaks then [collapseSpaces, Spacing.trimLines] else [Spacing.collapseWhitespace]) ++
      Pipeline.onlyIf options.removeEmptyLines [Spacing.emptyLines] := by
  simp only [freeForm, List.mem_cons, List.not_mem_nil, or_false] at h
  rcases h with rfl | rfl | rfl | rfl | rfl | rfl | rfl
  all_goals
    simp [debugRules, blankRules, isScript, Language.lineRole, Language.commentStyle, Pipeline.onlyIf]

theorem sparesBreaks_collapseSpaces : SparesBreaks collapseSpaces.apply := by
  have hputs : collapseSpaces.Puts fun _ => [' '] := .put ' ' (by decide)
  exact hputs.sparesBreaks (fun _ hc => Spacing.avoids_run1 (Spacing.spaceTab_eq_false hc)) (by decide) (by simp)

/-- Between two characters that are no blanks a line break stays exactly if line breaks do. -/
theorem exists_bridges_edit (h : language ∈ freeForm) (hc : Text.isBlank c = false) (hd : Text.isBlank d = false)
    (gap : List Char) : ∃ mid, Bridges (edit language options) c d gap mid ∧
      ('\n' ∈ mid ↔ '\n' ∈ gap ∧ keepsLines options = true) := by
  have hrun (text : List Char) : edit language options text =
      Pipeline.run (Pipeline.onlyIf options.removeWhitespace
        (if options.preserveLineBreaks then [collapseSpaces, Spacing.trimLines] else [Spacing.collapseWhitespace]) ++
      (Pipeline.onlyIf options.removeEmptyLines [Spacing.emptyLines] ++ [Spacing.trimEnds])) text := by
    rw [edit, rules_of_freeForm h, ← List.append_assoc, Pipeline.run_append _ [Spacing.trimEnds]]
    exact (Spacing.trimEnds_apply _).symm
  have hlast : Pipeline.Each (fun rule => SparesBreaks rule.apply)
      (Pipeline.onlyIf options.removeEmptyLines [Spacing.emptyLines] ++ [Spacing.trimEnds]) :=
    .append (.onlyIf fun _ => .cons Spacing.sparesBreaks_emptyLines .nil) (.cons Spacing.sparesBreaks_trimEnds .nil)
  rw [funext hrun, keepsLines]
  cases options.removeWhitespace with
  | false =>
    obtain ⟨mid, hbridges, hbreak⟩ := Pipeline.sparesBreaks_run hlast c d hc hd gap
    exact ⟨mid, hbridges, by simpa using hbreak⟩
  | true =>
    cases options.preserveLineBreaks with
    | true =>
      obtain ⟨mid, hbridges, hbreak⟩ := Pipeline.sparesBreaks_run
        (.cons sparesBreaks_collapseSpaces (.cons Spacing.sparesBreaks_trimLines hlast)) c d hc hd gap
      exact ⟨mid, hbridges, by simpa using hbreak⟩
    | false =>
      obtain ⟨joined, hjoined, hnone⟩ := Spacing.exists_bridges_collapseWhitespace hc hd gap
      obtain ⟨mid, hbridges, hbreak⟩ := Pipeline.sparesBreaks_run hlast c d hc hd joined
      exact ⟨mid, hjoined.pipeline_cons hbridges, by simpa [hnone] using hbreak⟩

/-! ### Requests -/

/-- What a worker answers in such a language: the text is masked with a space in the place of each comment that it
found, if comments go, and as it is otherwise; and between two characters of the masked text a line break stays
exactly if line breaks do. So a comment that is left swallows the code behind it exactly if they do not. -/
theorem handle_lineBreak {request : Request} (hlanguage : request.language ∈ freeForm)
    (hcode : MaskedText.reserved request.code.toList = false) :
    ∃ masked, masked = MaskedText.replaceSegments
        (MaskedText.replaceMatch (lexerFor request.language.commentStyle) false)
        ((lexerFor request.language.commentStyle).pieces request.options.removeComments request.code.toList) #[] ∧
      handle request = .ok request.id (.ofTexts request.code
        (String.ofList (masked.unmask (edit request.language request.options masked.text))) []) ∧
      ∀ left c gap d right, masked.text = left ++ c :: (gap ++ d :: right) → Text.isBlank c = false →
        Text.isBlank d = false → ∃ before mid behind,
          edit request.language request.options masked.text = before ++ c :: (mid ++ d :: behind) ∧
          edit request.language request.options (left ++ [c]) = before ++ [c] ∧
          edit request.language request.options (d :: right) = d :: behind ∧
          ('\n' ∈ mid ↔ '\n' ∈ gap ∧ keepsLines request.options = true) := by
  have hjson : request.language ≠ .json := by
    intro heq
    rw [heq] at hlanguage
    exact absurd hlanguage (by decide)
  have hscript : isScript request.language = false := by
    revert hlanguage
    generalize request.language = language
    cases language <;> decide
  refine ⟨_, rfl, ?_, fun left c gap d right htext hc hd => ?_⟩
  · have hmask := MaskedText.mask_eq (leavesSpaces_lexerFor request.language.commentStyle)
      request.options.removeComments hcode
    have hwarnings : warnings request.language request.options = [] := by simp [warnings, hscript]
    rw [handle, minify, if_neg hjson, hmask]
    simp only [Except.mapError, bind, Except.bind, pure, Except.pure, if_neg hjson, hwarnings, edit]
  · obtain ⟨mid, hbridges, hbreak⟩ := exists_bridges_edit hlanguage hc hd gap
    obtain ⟨hwhole, ⟨before, hbefore⟩, behind, hbehind⟩ := hbridges left right
    refine ⟨before, mid, behind, ?_, hbefore, hbehind, hbreak⟩
    rw [htext, hwhole, hbefore, hbehind]
    simp

/-- A query with a comment after two dashes. -/
def dashComment : String := "SELECT a -- pick\nFROM t"

/-- The comment is not known to be one, and its line break goes. -/
theorem handle_lineBreak_dashComment :
    Language.sql ∈ freeForm ∧ MaskedText.reserved dashComment.toList = false ∧ keepsLines {} = false ∧
      ∃ (masked : MaskedText) (before mid behind : List Char),
        masked.text = "SELECT a -- pic".toList ++ 'k' :: (['\n'] ++ 'F' :: "ROM t".toList) ∧
        handle ⟨"1", dashComment, .sql, {}⟩ = .ok "1" (.ofTexts dashComment
          (String.ofList (masked.unmask (before ++ 'k' :: (mid ++ 'F' :: behind)))) []) ∧ '\n' ∉ mid := by
  have hlanguage : Language.sql ∈ freeForm := by decide
  have hcode : MaskedText.reserved dashComment.toList = false := by decide +kernel
  obtain ⟨masked, hmasked, hhandle, hbreaks⟩ := @handle_lineBreak ⟨"1", dashComment, .sql, {}⟩ hlanguage hcode
  have htext : masked.text = "SELECT a -- pic".toList ++ 'k' :: (['\n'] ++ 'F' :: "ROM t".toList) := by
    rw [hmasked]
    decide +kernel
  obtain ⟨before, mid, behind, hedit, -, -, hbreak⟩ := hbreaks _ _ _ _ _ htext (by decide) (by decide)
  rw [hedit] at hhandle
  exact ⟨hlanguage, hcode, rfl, masked, before, mid, behind, htext, hhandle, fun hmem => nomatch (hbreak.mp hmem).2⟩

theorem handle_dashComment :
    handle ⟨"1", dashComment, .sql, {}⟩ = .ok "1" (.ofTexts dashComment "SELECT a -- pick FROM t" []) := by
  decide +kernel

end Minifier.Worker
