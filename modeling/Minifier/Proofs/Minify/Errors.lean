import Minifier.Proofs.Masking.SetAside
import Minifier.Proofs.Minify.Stages
import Minifier.Proofs.Text.Basic

/-!
When minifying a text fails, and what is handed back then. A text is refused for three reasons only:
it is no JSON, it holds a character that marks placeholders, or the scan of a script leaves a quote or
the opening of a comment in the code. No rule, restoring of literals or printing fails on any text.
-/

namespace Minifier

/-! ### Scripts -/

/-- A masked script is refused exactly if a quote or the opening of a comment is left in it. -/
theorem Script.exists_check_error_iff (text : List Char) :
    (∃ cause, Script.check text = .error cause) ↔
      (∃ c ∈ text, c = '"' ∨ c = '\'' ∨ c = '\x60') ∨ ['/', '*'] <:+: text := by
  have hquote : (∃ c ∈ text, c = '"' ∨ c = '\'' ∨ c = '\x60') ↔ ∃ c ∈ text, isQuote c = true := by
    simp [isQuote, or_assoc]
  rw [hquote, ← Text.contains_iff, Script.check]
  split
  · rename_i quote hfind
    have hmem := List.mem_of_find?_eq_some hfind
    have hisquote := List.find?_some hfind
    exact iff_of_true ⟨_, rfl⟩ (Or.inl ⟨quote, hmem, hisquote⟩)
  · rename_i hfind
    have hnone : ¬ ∃ c ∈ text, isQuote c = true := by
      rintro ⟨c, hc, hisquote⟩
      exact List.find?_eq_none.mp hfind c hc hisquote
    split
    · rename_i hcontains
      exact iff_of_true ⟨_, rfl⟩ (Or.inr hcontains)
    · rename_i hcontains
      exact iff_of_false (by simp) (by simp [hnone, hcontains])

/-! ### Reasons -/

/-- Why a text of a language is refused. -/
inductive Refused (options : Options) (text : List Char) : Language → Prop where
  /-- It is no JSON. -/
  | notJson : (∀ value, Json.parseChars text ≠ .ok value) → Refused options text .json
  /-- It holds a character that marks placeholders. -/
  | reserved {language : Language} : language ≠ .json →
      Placeholder.opening ∈ text ∨ Placeholder.closing ∈ text → Refused options text language
  /-- It is a script, and a quote or the opening of a comment is left when its comments and literals are
  set aside. -/
  | leftOver {language : Language} {scanned : MaskedText} :
      language = .javascript ∨ language = .typescript →
      MaskedText.mask Script.lexer options.removeComments text = .ok scanned →
      (∃ c ∈ scanned.text, c = '"' ∨ c = '\'' ∨ c = '\x60') ∨ ['/', '*'] <:+: scanned.text →
      Refused options text language

theorem Refused.json_iff {options : Options} {text : List Char} :
    Refused options text .json ↔ ∀ value, Json.parseChars text ≠ .ok value := by
  constructor
  · intro h
    cases h with
    | notJson hparse => exact hparse
    | reserved hjson _ => exact absurd rfl hjson
    | leftOver hscript _ _ => rcases hscript with h | h <;> cases h
  · exact .notJson

/-- The scan of a language other than JSON fails for no other reason. -/
theorem Stages.exists_scan_error_iff {language : Language} (hjson : language ≠ .json)
    (options : Options) (text : List Char) :
    (∃ cause, scan language options text = .error cause) ↔ Refused options text language := by
  by_cases hreserved : Placeholder.opening ∈ text ∨ Placeholder.closing ∈ text
  · have hmask := MaskedText.mask_eq_error (lexer language) options.removeComments hreserved
    refine iff_of_true ⟨.reservedCharacter, ?_⟩ (.reserved hjson hreserved)
    rw [scan, hmask]
    rfl
  · obtain ⟨scanned, hmask⟩ :=
      MaskedText.exists_mask (lexer language) options.removeComments hreserved
    by_cases hscript : language = .javascript ∨ language = .typescript
    · have hlexer : lexer language = Script.lexer := by rcases hscript with rfl | rfl <;> rfl
      have hscan : (∃ cause, scan language options text = .error cause) ↔
          ∃ cause, Script.check scanned.text = .error cause := by
        rcases hscript with rfl | rfl
        all_goals
          rw [scan, hmask]
          simp only [bind, Except.bind]
          cases Script.check scanned.text with
          | error cause => simp
          | ok _ => simp [pure, Except.pure]
      rw [hscan, Script.exists_check_error_iff]
      rw [hlexer] at hmask
      constructor
      · exact .leftOver hscript hmask
      · intro h
        cases h with
        | notJson _ => exact absurd rfl hjson
        | reserved _ h => exact absurd h hreserved
        | leftOver _ hmask' hleft =>
          obtain rfl := Except.ok.inj (hmask.symm.trans hmask')
          exact hleft
    · rw [not_or] at hscript
      rw [scan_eq_mask hscript.1 hscript.2, hmask]
      refine iff_of_false (by simp) ?_
      intro h
      cases h with
      | notJson _ => exact absurd rfl hjson
      | reserved _ h => exact absurd h hreserved
      | leftOver h _ _ => exact h.elim hscript.1 hscript.2

/-! ### Outcomes -/

section Guarded

variable (label content : String) (transform : List Char → Except Error (List Char × List String))

/-- What is guarded leaves the empty text alone, and hands any other back as it was or transformed. -/
theorem guarded_cases :
    (content = "" ∧ guarded label content transform = .unchanged content) ∨
      (content ≠ "" ∧ ∃ minified warnings, transform content.toList = .ok (minified, warnings) ∧
        guarded label content transform = .ofTexts content (String.ofList minified) warnings) ∨
      (content ≠ "" ∧ ∃ error message, transform content.toList = .error error ∧
        guarded label content transform = .failed content message) := by
  rw [guarded]
  split
  · rename_i hempty
    exact Or.inl ⟨by simpa using hempty, rfl⟩
  · rename_i hempty
    have hne : content ≠ "" := by simpa using hempty
    split
    · rename_i minified warnings hok
      exact Or.inr (Or.inl ⟨hne, minified, warnings, hok, rfl⟩)
    · rename_i error herror
      exact Or.inr (Or.inr ⟨hne, error, _, herror, rfl⟩)

theorem guarded_sizes :
    (guarded label content transform).sourceSize = content.utf8ByteSize ∧
      (guarded label content transform).minifiedSize =
        (guarded label content transform).minified.utf8ByteSize := by
  rcases guarded_cases label content transform with
    ⟨-, h⟩ | ⟨-, _, _, -, h⟩ | ⟨-, _, _, -, h⟩
  all_goals
    rw [h]
    exact ⟨rfl, rfl⟩

theorem guarded_errors_ne_nil_iff :
    (guarded label content transform).errors ≠ [] ↔
      content ≠ "" ∧ ∃ error, transform content.toList = .error error := by
  rcases guarded_cases label content transform with
    ⟨hempty, h⟩ | ⟨-, _, _, hok, h⟩ | ⟨hne, error, _, herror, h⟩
  · rw [h]
    exact iff_of_false (fun hne => hne rfl) (fun hne => hne.1 hempty)
  · rw [h]
    exact iff_of_false (fun hne => hne rfl) (by simp [hok])
  · rw [h]
    exact iff_of_true (by simp [Outcome.failed]) ⟨hne, error, herror⟩

theorem guarded_of_errors_ne_nil (herrors : (guarded label content transform).errors ≠ []) :
    (guarded label content transform).errors.length = 1 ∧
      (guarded label content transform).warnings = [] ∧
      (guarded label content transform).minified = content := by
  rcases guarded_cases label content transform with
    ⟨-, h⟩ | ⟨-, _, _, -, h⟩ | ⟨-, _, _, -, h⟩
  · rw [h] at herrors
    exact absurd rfl herrors
  · rw [h] at herrors
    exact absurd rfl herrors
  · rw [h]
    exact ⟨rfl, rfl, rfl⟩

end Guarded

/-- Minifying is guarded, and what is guarded fails on exactly the texts that are refused. -/
theorem exists_guarded (language : Language) (options : Options) :
    ∃ label transform, (∀ content, minify content language options = guarded label content transform) ∧
      ∀ text, (∃ error, transform text = .error error) ↔ Refused options text language := by
  by_cases hjson : language = .json
  · subst hjson
    refine ⟨_, _, minifyJson.eq_1, ?_⟩
    intro text
    simp only [Refused.json_iff, Data.minify]
    cases Json.parseChars text with
    | ok value => simp [Except.map]
    | error error => simp [Except.map]
  · obtain ⟨transform, hrestores, hminify⟩ := Stages.exists_transform hjson options
    refine ⟨_, transform, hminify, ?_⟩
    intro text
    rw [← Stages.exists_scan_error_iff hjson]
    have htext := hrestores text
    cases hscan : Stages.scan language options text with
    | error cause =>
      rw [hscan] at htext
      exact iff_of_true ⟨_, htext⟩ ⟨cause, rfl⟩
    | ok scanned =>
      rw [hscan] at htext
      obtain ⟨warnings, hok⟩ := htext
      exact iff_of_false (by simp [hok]) (by simp)

section Outcome

variable (content : String) (language : Language) (options : Options)

theorem minify_sizes :
    (minify content language options).sourceSize = content.utf8ByteSize ∧
      (minify content language options).minifiedSize = (minify content language options).minified.utf8ByteSize := by
  obtain ⟨label, transform, hminify, -⟩ := exists_guarded language options
  rw [hminify]
  exact guarded_sizes label content transform

theorem minify_errors_ne_nil_iff : (minify content language options).errors ≠ [] ↔
    content ≠ "" ∧ Refused options content.toList language := by
  obtain ⟨label, transform, hminify, herror⟩ := exists_guarded language options
  rw [hminify, guarded_errors_ne_nil_iff, herror]

theorem minify_empty : (minify "" language options).minified = "" := by
  obtain ⟨label, transform, hminify, -⟩ := exists_guarded language options
  rw [hminify]
  rfl

theorem minify_of_errors_ne_nil (herrors : (minify content language options).errors ≠ []) :
    (minify content language options).errors.length = 1 ∧ (minify content language options).warnings = [] ∧
      (minify content language options).minified = content := by
  obtain ⟨label, transform, hminify, -⟩ := exists_guarded language options
  rw [hminify] at herrors ⊢
  exact guarded_of_errors_ne_nil label content transform herrors

end Outcome

/-- The sizes of an outcome are those of its texts. Minifying fails exactly on the texts that are refused,
the empty one apart; there is then one error and no warning, and the text comes back as it was. -/
theorem minify_outcome (content : String) (language : Language) (options : Options) :
    let outcome := minify content language options
    outcome.sourceSize = content.utf8ByteSize ∧
      outcome.minifiedSize = outcome.minified.utf8ByteSize ∧
      (outcome.errors ≠ [] ↔ content ≠ "" ∧ Refused options content.toList language) ∧
      (outcome.errors ≠ [] →
        outcome.errors.length = 1 ∧ outcome.warnings = [] ∧ outcome.minified = content) := by
  obtain ⟨hsource, hminified⟩ := minify_sizes content language options
  exact ⟨hsource, hminified, minify_errors_ne_nil_iff content language options,
    minify_of_errors_ne_nil content language options⟩

end Minifier
