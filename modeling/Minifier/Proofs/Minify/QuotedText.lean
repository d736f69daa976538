import Minifier.Proofs.Minify.Literals
import Minifier.Proofs.Script.Lexemes
import Minifier.Proofs.Script.Reading

/-!
Quoted text in scripts. The lexer cuts a plain source into its pieces, so what is set aside are its literals, and what
goes as a comment are its comments. No quote and no opening of a comment is left then, so the source is accepted, and
every literal stands in the minified text as it was.

A source that is not plain may be read otherwise: behind a backtick in what a template substitutes, or where a regular
expression stands behind a closing bracket, literals are taken for code.
-/

namespace Minifier.Script

open Pattern Source

variable {prev : Option Char} {code text behind : List Char} {source : Source}

/-! ### Reading -/

/-- The lexer passes over code. -/
theorem IsCode.passesOver (h : IsCode prev code behind) : lexer.pattern.PassesOver prev code behind := by
  induction code generalizing prev with
  | nil => trivial
  | cons c rest ih =>
    obtain ⟨hquote, hcomment, hregex, hrest⟩ := h
    exact ⟨lexer_matchAt_eq_none hquote hcomment hregex, ih hrest⟩

/-- It reads a plain source piece by piece. -/
theorem Source.IsPlain.isRead (h : source.IsPlain prev) : source.IsRead lexer prev [] := by
  induction source generalizing prev with
  | nil => trivial
  | cons piece rest ih =>
    obtain ⟨hpiece, hrest⟩ := h
    refine ⟨?_, ih hrest⟩
    rw [List.append_nil]
    cases piece with
    | code text => exact IsCode.passesOver hpiece
    | comment text => exact fun index => IsComment.exists_lexer_matchAt hpiece index prev
    | literal lead text => exact fun index => IsLiteral.exists_lexer_matchAt hpiece index

/-- What is set aside of a plain source are its literals, and its comments unless they go. -/
theorem Source.IsPlain.mask_eq (h : source.IsPlain none) (hclear : Unreserved source.text) (stripComments : Bool) :
    MaskedText.mask lexer stripComments source.text =
      .ok ⟨(source.template stripComments 0).render, (source.kept stripComments).toArray⟩ :=
  h.isRead.mask_eq (by decide) hclear stripComments

/-! ### Accepted sources -/

theorem isQuiet_leaveBreak (comment : List Char) : IsQuiet (Lexer.leaveBreak comment) :=
  Lexer.forall_mem_leaveBreak rfl comment

theorem isQuiet_placeholder (index : Nat) : IsQuiet (Placeholder.render index) := by
  intro c hc
  rcases Template.mem_placeholder hc with rfl | rfl | hdigit
  · rfl
  · rfl
  · by_contra hnot
    simp only [isQuietChar, isQuote, Bool.and_eq_true, Bool.not_eq_true', Bool.or_eq_false_iff, beq_eq_false_iff_ne,
      bne_iff_ne, not_and_or, not_not] at hnot
    rcases hnot with (((rfl | rfl) | rfl) | rfl) | rfl <;> cases hdigit

theorem isQuiet_lead {lead : List Char} (h : IsLiteral prev lead text behind) : IsQuiet lead := by
  cases h with
  | string _ _ => exact fun c hc => absurd hc List.not_mem_nil
  | template _ => exact fun c hc => absurd hc List.not_mem_nil
  | regex hlead _ _ _ _ => exact isQuiet_of_leads hlead

/-- No quote and no opening of a comment is left of a text, and a star comes first only where it did. -/
structure IsSettled (text left : List Char) : Prop where
  quote : ∀ c ∈ left, isQuote c = false
  comment : ¬ ['/', '*'] <:+: left
  star : left.head? = some '*' → text.head? = some '*'

namespace IsSettled

variable {left quiet : List Char}

/-- Code stays, and it joins what is left behind it only to what it was joined to before. -/
theorem code_append (h : IsSettled behind left) (hcode : IsCode prev code behind) :
    IsSettled (code ++ behind) (code ++ left) := by
  induction code generalizing prev with
  | nil => exact h
  | cons c rest ih =>
    obtain ⟨hquote, hcomment, -, hrest⟩ := hcode
    obtain ⟨-, hopen⟩ := startsComment_eq_false_iff.mp hcomment
    have hmore := ih hrest
    refine ⟨List.forall_mem_cons.mpr ⟨hquote, hmore.quote⟩, fun hinfix => ?_, id⟩
    rcases List.infix_cons_iff.mp hinfix with hprefix | hinfix
    -- A star behind this slash was there before, so the code would have opened a comment.
    · obtain ⟨hslash, hstar⟩ := List.cons_prefix_cons.mp hprefix
      obtain ⟨more, hbehind⟩ := List.head?_eq_some_iff.mp (hmore.star (List.head?_eq_some_iff.mpr
        (hstar.imp fun _ => Eq.symm)))
      exact hopen ⟨more, by rw [← hslash, List.cons_append, List.cons_append, List.nil_append, hbehind]⟩
    · exact hmore.comment hinfix

/-- Quiet text in the place of a piece joins nothing. -/
theorem quiet_append (h : IsSettled behind left) (hquiet : IsQuiet quiet) (hne : quiet ≠ []) (text : List Char) :
    IsSettled text (quiet ++ left) where
  quote := List.forall_mem_append.mpr ⟨fun c hc => (isQuietChar_iff.mp (hquiet c hc)).1, h.quote⟩
  comment := by
    clear hne
    induction quiet with
    | nil => exact h.comment
    | cons c quiet ih =>
      obtain ⟨hc, hmore⟩ := List.forall_mem_cons.mp hquiet
      intro hinfix
      rcases List.infix_cons_iff.mp hinfix with hprefix | hinfix
      · exact (isQuietChar_iff.mp hc).2.1 (List.cons_prefix_cons.mp hprefix).1.symm
      · exact ih hmore hinfix
  star := by
    obtain ⟨c, rest, rfl⟩ := List.exists_cons_of_ne_nil hne
    intro hstar
    exact absurd (Option.some.inj hstar) (isQuietChar_iff.mp (hquiet c List.mem_cons_self)).2.2

end IsSettled

/-- Nothing that would make a script refused is left of a plain source. -/
theorem Source.IsPlain.isSettled (h : source.IsPlain prev) (stripComments : Bool) (index : Nat) :
    IsSettled source.text (source.template stripComments index).render := by
  induction source generalizing prev index with
  | nil => exact ⟨by simp [template], by simp [template], by simp [template]⟩
  | cons piece rest ih =>
    obtain ⟨hpiece, hrest⟩ := h
    have hleft := ih hrest (index + (piece.kept stripComments).length)
    rw [text_cons, template, Template.render_append]
    cases piece with
    | code code =>
      rw [Piece.template, Template.render_ofCode]
      exact hleft.code_append hpiece
    | comment text =>
      rw [Piece.template]
      split
      · rw [Template.render_ofCode]
        exact hleft.quiet_append (isQuiet_leaveBreak text) (Lexer.leaveBreak_ne_nil text) _
      · rw [Template.render_cons_slot, Template.render_nil, List.append_nil]
        exact hleft.quiet_append (isQuiet_placeholder index) (List.cons_ne_nil _ _) _
    | literal lead text =>
      have hquiet : IsQuiet (lead ++ Placeholder.render index) :=
        List.forall_mem_append.mpr ⟨isQuiet_lead hpiece, isQuiet_placeholder index⟩
      rw [Piece.template, Template.render_append, Template.render_ofCode, Template.render_cons_slot,
        Template.render_nil, List.append_nil]
      exact hleft.quiet_append hquiet (by simp [Placeholder.render]) _

/-! ### Minified sources -/

/-- A plain source is not refused. -/
theorem Source.IsPlain.not_refused (h : source.IsPlain none) (hclear : Unreserved source.text) {language : Language}
    (hscript : language = .javascript ∨ language = .typescript) (options : Options) :
    ¬ Refused options source.text language := by
  intro hrefused
  cases hrefused with
  | notJson _ => rcases hscript with hscript | hscript <;> cases hscript
  | reserved _ hreserved => exact hreserved.elim hclear.1 hclear.2
  | leftOver _ hmask hleft =>
    obtain rfl := Except.ok.inj (hmask.symm.trans (h.mask_eq hclear options.removeComments))
    have hsettled := h.isSettled options.removeComments 0
    rcases hleft with ⟨c, hc, hquote⟩ | hcomment
    · have hnot := hsettled.quote c hc
      rcases hquote with rfl | rfl | rfl <;> cases hnot
    · exact hsettled.comment hcomment

theorem Source.IsPlain.errors_eq_nil (h : source.IsPlain none) (hclear : Unreserved source.text)
    {language : Language} (hscript : language = .javascript ∨ language = .typescript) (options : Options) :
    (Minifier.minify (String.ofList source.text) language options).errors = [] := by
  by_contra hne
  obtain ⟨-, hrefused⟩ := (minify_errors_ne_nil_iff _ _ _).mp hne
  rw [String.toList_ofList] at hrefused
  exact h.not_refused hclear hscript options hrefused

/-- Nothing is set aside of a plain source without text. -/
theorem Source.IsPlain.kept_eq_nil (h : source.IsPlain none) (hclear : Unreserved source.text)
    (htext : source.text = []) (stripComments : Bool) : source.kept stripComments = [] := by
  have hmask := h.mask_eq hclear stripComments
  have hnil : MaskedText.mask lexer stripComments [] = .ok ⟨[], #[]⟩ := rfl
  rw [htext, hnil] at hmask
  simpa using (MaskedText.mk.inj (Except.ok.inj hmask)).2

/-- The minified text of a plain source holds what was set aside, unless calls of a console go. -/
theorem Source.IsPlain.exists_fill (h : source.IsPlain none) (hclear : Unreserved source.text)
    {language : Language} (hscript : language = .javascript ∨ language = .typescript) {options : Options}
    (hconsole : options.removeConsoleLog = false) :
    ∃ result : Template, result.slots = List.range (source.kept options.removeComments).length ∧
      (Minifier.minify (String.ofList source.text) language options).minified.toList =
        result.fill fun index => (source.kept options.removeComments)[index]?.getD [] := by
  have hjson : language ≠ .json := by rcases hscript with rfl | rfl <;> decide
  have hhtml : language = .html → options.level ≠ .aggressive := by rcases hscript with rfl | rfl <;> simp
  have hlexer : Stages.lexer language = lexer := by rcases hscript with rfl | rfl <;> rfl
  have hdrops : ¬ Stages.DropsCalls language options := fun hdrops => by
    have hremoved := hdrops.2
    rw [hconsole] at hremoved
    cases hremoved
  rcases Stages.minified_cases hjson (h.errors_eq_nil hclear hscript options) with
    ⟨hempty, hminified⟩ | ⟨scanned, hscan, hminified⟩
  · have htext : source.text = [] := by simpa using congrArg String.toList hempty
    exact ⟨[], by simp [h.kept_eq_nil hclear htext], by simp [hminified]⟩
  · rw [String.toList_ofList] at hscan
    have hmask := Stages.mask_of_scan hscan
    rw [hlexer, h.mask_eq hclear] at hmask
    obtain rfl := Except.ok.inj hmask
    obtain ⟨inner, written, code, hlayout⟩ := Stages.exists_layout hscan
    obtain ⟨result, hkeeps, hresult⟩ := Stages.exists_result hhtml hscan hlayout
    have hslots := (hlayout.keepsSlots_source hkeeps).eq hdrops
    refine ⟨result.expand inner, ?_, ?_⟩
    · rw [hslots, hlayout.source_slots]
      simp
    · rw [hminified, hresult]
      exact Template.fill_congr fun index _ => by simp [Template.literalAt]

/-- A plain source is minified without an error. Its literals are set aside, and its comments unless they go, which
leave a line break or a space; so only what the source has as a comment goes as one. Unless calls of a console go,
the minified text holds all that was set aside, byte for byte, each once and in order. -/
theorem quoted_kept (source : Source) (hplain : source.IsPlain none) (hclear : Unreserved source.text)
    {language : Language} (hscript : language = .javascript ∨ language = .typescript) {options : Options}
    (hconsole : options.removeConsoleLog = false) :
    (Minifier.minify (String.ofList source.text) language options).errors = [] ∧
      MaskedText.mask lexer options.removeComments source.text =
        .ok ⟨(source.template options.removeComments 0).render, (source.kept options.removeComments).toArray⟩ ∧
      ∃ result : Template, result.slots = List.range (source.kept options.removeComments).length ∧
        (Minifier.minify (String.ofList source.text) language options).minified.toList =
          result.fill fun index => (source.kept options.removeComments)[index]?.getD [] :=
  ⟨hplain.errors_eq_nil hclear hscript options, hplain.mask_eq hclear options.removeComments,
    hplain.exists_fill hclear hscript hconsole⟩

/-- A division, a comment, a template that substitutes a call, a regular expression with a slash and a quote in it, and
a string with an escaped quote. -/
def quotedSource : Source :=
  [.code "x = a / 2; ".toList, .comment "// half\n".toList, .code "y = ".toList,
    .literal [] "\x60$\x7bf(\"c  d\")\x7d /* e */\x60".toList, .code ";\nif ".toList,
    .literal "(".toList "/[/\"]+/g".toList, .code ".test(y)) z = ".toList, .literal [] "'it\\'s // no'".toList,
    .code ";".toList]

theorem quoted_kept_quotedSource :
    quotedSource.IsPlain none ∧ Unreserved quotedSource.text ∧ Options.removeConsoleLog {} = false ∧
      (Minifier.minify (String.ofList quotedSource.text) .javascript {}).errors = [] ∧
      MaskedText.mask lexer true quotedSource.text =
        .ok ⟨(quotedSource.template true 0).render, (quotedSource.kept true).toArray⟩ ∧
      ∃ result : Template, result.slots = List.range 3 ∧
        (Minifier.minify (String.ofList quotedSource.text) .javascript {}).minified.toList =
          result.fill fun index => (quotedSource.kept true)[index]?.getD [] := by
  have hsubstitution : EscapedUnits (Class.except ['\x60', '\\']) Class.any "$\x7bf(\"c  d\")\x7d /* e */".toList :=
    .of_all rfl
  have hclass : EscapedUnits (Class.except [']', '\\', '\n']) Class.inLine "/\"".toList := .of_all rfl
  have hregex : RegexUnits ('[' :: ("/\"".toList ++ ']' :: ['+'])) := .among hclass (.plain (by decide) .nil)
  have hit : EscapedUnits (Class.except ['\'', '\\', '\n']) Class.any "it".toList := .of_all rfl
  have hno : EscapedUnits (Class.except ['\'', '\\', '\n']) Class.any "s // no".toList := .of_all rfl
  have hplain : quotedSource.IsPlain none := by
    refine ⟨.of_isCode rfl, ?_, .of_isCode rfl, ?_, .of_isCode rfl, ?_, .of_isCode rfl, ?_, .of_isCode rfl, trivial⟩
    · exact @IsComment.line " half".toList [] _ (by decide) rfl rfl
    · exact .template hsubstitution
    · exact @IsLiteral.regex _ _ _ "g".toList _ rfl hregex (by decide) rfl rfl
    · exact .string (Or.inr rfl) (hit.append (.escaped rfl rfl hno))
  have hclear : Unreserved quotedSource.text := by decide +kernel
  exact ⟨hplain, hclear, rfl, quoted_kept quotedSource hplain hclear (Or.inl rfl) rfl⟩

/-- A template within another one. -/
def nestedTemplate : String := "x = \x60a $\x7b\x60// b\x60\x7d c\x60; run();"

/-- A regular expression as the statement behind a condition. -/
def regexStatement : String := "if (x) /a  b/.test(y);"

/-- The first of the two inner backticks ends the outer template, so the text behind it goes as a comment, with the
code that follows. The regular expression is taken for two divisions, and loses a blank. Neither is refused. -/
theorem minify_nestedTemplate :
    Minifier.minify nestedTemplate .javascript {} = .ofTexts nestedTemplate "x=\x60a $\x7b\x60" [] ∧
      Minifier.minify regexStatement .javascript {} = .ofTexts regexStatement "if(x)/a b/.test(y);" [] := by
  decide +kernel

end Minifier.Script
