import Minifier.Proofs.Masking.Blanks
import Minifier.Proofs.Masking.Unwinding
import Minifier.Proofs.Minify.Literals
import Minifier.Proofs.Rule.Blanks
import Minifier.Proofs.Worker.Sizes

/-!
Minifying with every transformation switched off. Comments and literals are still set aside and put back, and
all that happens between is that blanks go from the ends of the masked text. So nothing is lost, doubled or moved
but blanks at the ends of the text.
-/

namespace Minifier

open Text

/-- No transformation is asked for, and the level asks for none by itself. -/
structure Options.Idle (options : Options) : Prop where
  removeComments : options.removeComments = false
  removeWhitespace : options.removeWhitespace = false
  removeEmptyLines : options.removeEmptyLines = false
  removeConsoleLog : options.removeConsoleLog = false
  removeDebugger : options.removeDebugger = false
  mangleVariables : options.mangleVariables = false
  level : options.level ≠ .aggressive

/-- The options with every switch off. -/
def Options.idle : Options where
  level := .moderate
  removeComments := false
  removeWhitespace := false
  removeEmptyLines := false
  preserveLineBreaks := false
  mangleVariables := false
  removeConsoleLog := false
  removeDebugger := false

theorem Options.idle_idle : idle.Idle := ⟨rfl, rfl, rfl, rfl, rfl, rfl, by decide⟩

variable {language : Language} {options : Options}

namespace Stages

theorem rules_of_idle (h : options.Idle) (language : Language) : rules language options = [Spacing.trimEnds] := by
  have haggressive : options.isAggressive = false := by simpa [Options.isAggressive] using h.level
  unfold rules
  split
  all_goals
    simp only [Markup.pipeline, Style.pipeline, Script.pipeline, Generic.pipeline, h.removeWhitespace,
      h.removeEmptyLines, h.removeConsoleLog, h.removeDebugger, haggressive]
    rfl

theorem edit_of_idle (h : options.Idle) (language : Language) (masked : MaskedText) :
    edit language options masked = trim masked.text := by
  rw [edit_eq h.level, rules_of_idle h]
  exact Spacing.trimEnds_apply masked.text

/-- What is set aside after the scan is set aside by one more search or by none. -/
theorem exists_prepare_eq (language : Language) (scanned : MaskedText) :
    ∃ patterns : List Pattern, prepare language scanned = patterns.foldl MaskedText.maskAlso scanned := by
  unfold prepare
  split
  · exact ⟨[Markup.attributeValue], rfl⟩
  · exact ⟨[], rfl⟩

theorem padded_unmask_edit {text : List Char} {scanned : MaskedText} (h : options.Idle)
    (hscan : scan language options text = .ok scanned) :
    Padded ((prepare language scanned).unmask (edit language options (prepare language scanned))) text := by
  have hmask := mask_of_scan hscan
  have htext : Unreserved text := MaskedText.unreserved_of_mask hmask
  obtain ⟨inner, source, code, hlayout⟩ := exists_layout hscan
  obtain ⟨patterns, hpatterns⟩ := exists_prepare_eq language scanned
  rw [h.removeComments] at hmask
  have hback : (prepare language scanned).unmask (prepare language scanned).text = text := by
    rw [hpatterns]
    exact MaskedText.fillIn_of_mask hmask patterns (Nat.le_succ _)
  rw [edit_of_idle h]
  exact hlayout.padded_unmask htext hback (padded_trim _)

end Stages

theorem padded_minify (hjson : language ≠ .json) (h : options.Idle) {content : String}
    (herrors : (minify content language options).errors = []) :
    Padded (minify content language options).minified.toList content.toList := by
  rcases Stages.minified_cases hjson herrors with ⟨rfl, hminified⟩ | ⟨scanned, hscan, hminified⟩
  · rw [hminified]
    exact .refl _
  · rw [hminified]
    exact Stages.padded_unmask_edit h hscan

namespace Worker

theorem rules_of_idle (h : options.Idle) (language : Language) :
    debugRules language options ++ blankRules language options = [] := by
  simp [debugRules, blankRules, Pipeline.onlyIf, h.removeConsoleLog, h.removeDebugger, h.removeWhitespace,
    h.removeEmptyLines]

theorem padded_minify (hjson : language ≠ .json) (h : options.Idle) {code minified : List Char}
    (hminify : minify code language options = .ok minified) : Padded minified code := by
  obtain ⟨masked, hmask, rfl⟩ := exists_of_minify hjson hminify
  obtain ⟨source, template, -, hlayout⟩ :=
    Layout.exists_of_mask (stripsClean_lexerFor language.commentStyle) hmask
  have htext : Unreserved code := MaskedText.unreserved_of_mask hmask
  rw [h.removeComments] at hmask
  have hback : masked.unmask masked.text = code := MaskedText.fillIn_of_mask hmask [] (Nat.le_succ _)
  rw [rules_of_idle h]
  exact hlayout.padded_unmask htext hback (padded_trim _)

/-- What a worker answers with is what it minified. -/
theorem exists_result_of_success {request : Request} (h : (handle request).success = true) :
    ∃ minified result, minify request.code.toList request.language request.options = .ok minified ∧
      (handle request).result = some result ∧ result.minified = String.ofList minified := by
  unfold handle at h ⊢
  cases hminify : minify request.code.toList request.language request.options with
  | error error =>
    rw [hminify] at h
    cases h
  | ok minified => exact ⟨minified, _, rfl, rfl, rfl⟩

end Worker

/-- With every transformation switched off a text is the minified one between blanks, for a minifier that reports
no error and for a worker that meets the request. -/
theorem minify_idle (content : String) (language : Language) (options : Options) (hjson : language ≠ .json)
    (h : options.Idle) :
    ((minify content language options).errors = [] →
        Padded (minify content language options).minified.toList content.toList) ∧
      ∀ id, (Worker.handle ⟨id, content, language, options⟩).success = true →
        ∃ result, (Worker.handle ⟨id, content, language, options⟩).result = some result ∧
          Padded result.minified.toList content.toList := by
  refine ⟨padded_minify hjson h, fun id hsuccess => ?_⟩
  obtain ⟨minified, result, hminify, hresult, hminified⟩ := Worker.exists_result_of_success hsuccess
  refine ⟨result, hresult, ?_⟩
  rw [hminified, String.toList_ofList]
  exact Worker.padded_minify hjson h hminify

theorem minify_idle_html :
    Language.html ≠ .json ∧ Options.idle.Idle ∧
      (minify " <p a='1'>\n<!-- c --> x </p>\n" .html .idle).minified = "<p a='1'>\n<!-- c --> x </p>" ∧
      Text.Padded (minify " <p a='1'>\n<!-- c --> x </p>\n" .html .idle).minified.toList
        " <p a='1'>\n<!-- c --> x </p>\n".toList ∧
      ∃ result, (Worker.handle ⟨"1", " <p a='1'>\n<!-- c --> x </p>\n", .html, .idle⟩).result = some result ∧
        Text.Padded result.minified.toList " <p a='1'>\n<!-- c --> x </p>\n".toList := by
  obtain ⟨hminify, hhandle⟩ :=
    minify_idle " <p a='1'>\n<!-- c --> x </p>\n" .html .idle (by decide) Options.idle_idle
  exact ⟨by decide, Options.idle_idle, by decide +kernel, hminify (by decide +kernel), hhandle "1" (by decide +kernel)⟩

end Minifier
