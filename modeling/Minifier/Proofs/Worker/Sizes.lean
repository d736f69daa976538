import Minifier.Proofs.Json.Size
import Minifier.Proofs.Masking.Blanks
import Minifier.Proofs.Minify.Sizes
import Minifier.Worker.Handler

/-!
A worker adds no bytes. It sets literals aside as the minifiers of the languages do, so what its rules and the
trimming do to the masked text is weighed in the same way.
-/

namespace Minifier

open Pattern Template

namespace Worker

variable {language : Language} {options : Options}

/-! ### Comments -/

theorem stripsClean_lexerFor (style : CommentStyle) : (lexerFor style).StripsClean := by
  cases style <;> exact Lexer.stripsClean_of_stripAll rfl

theorem shrinks_lexerFor (style : CommentStyle) : (lexerFor style).Shrinks := by
  cases style <;> exact Lexer.shrinks_of_stripAll (by decide) rfl

/-! ### Rules -/

theorem each_rules {property : Rule → Prop} (hconsole : property consoleCall)
    (hdebugger : property Script.debuggerStatement) (hcollapse : property collapseSpaces)
    (hshared : Pipeline.Each property Spacing.all) (hinter : property Markup.interTag) :
    (debugRules language options ++ blankRules language options).Each property := by
  obtain ⟨hwhitespace, -, hlines, htrailing, -, hempty, -⟩ := Spacing.each_all_iff.mp hshared
  have hdebug : (debugRules language options).Each property :=
    .append (.onlyIf fun _ => .cons hconsole .nil) (.onlyIf fun _ => .cons hdebugger .nil)
  refine hdebug.append (.append (.onlyIf fun _ => .append ?_ (.onlyIf fun _ => ?_)) (.onlyIf fun _ => ?_))
  · split
    · exact .cons htrailing .nil
    · split
      · exact .cons hcollapse (.cons hlines .nil)
      · exact .cons hwhitespace .nil
  · exact .cons hinter .nil
  · exact .cons hempty .nil

theorem lightens_rules {value : Nat → List Char} {known : List Nat} (language : Language) (options : Options)
    (text : List Char) :
    Lightens value known text ((debugRules language options ++ blankRules language options).run text) := by
  apply Pipeline.lightens_run
  apply each_rules
  · exact fun text => Rule.lightens_drop
      (fun _ _ _ _ htakes => Script.exists_clear_of_call (by decide +kernel) htakes) text
  · exact Rule.shrinks_drop.lightens (Rule.carries_drop keeping_eq (by decide))
  · exact (Rule.shrinks_put (by decide)).lightens (Rule.carries_put keeping_eq (by decide) (by decide))
  · intro rule hrule
    exact (Spacing.each_all_shrinks rule hrule).lightens (Spacing.each_all_carries keeping_eq rule hrule)
  · exact Markup.shrinks_interTag.lightens (Rule.carries_of_isClear keeping_eq (by decide) fun _ _ =>
      show Unreserved ['>', '<'] by decide)

/-! ### Minifying -/

/-- What a worker minifies is masked, edited, trimmed and restored. -/
theorem exists_of_minify (hjson : language ≠ .json) {code minified : List Char}
    (h : minify code language options = .ok minified) : ∃ masked,
      MaskedText.mask (lexerFor language.commentStyle) options.removeComments code = .ok masked ∧
        minified = masked.unmask
          (Text.trim ((debugRules language options ++ blankRules language options).run masked.text)) := by
  rw [minify, if_neg hjson] at h
  cases hmask : MaskedText.mask (lexerFor language.commentStyle) options.removeComments code with
  | error cause =>
    rw [hmask] at h
    cases h
  | ok masked =>
    rw [hmask] at h
    exact ⟨masked, rfl, (Except.ok.inj h).symm⟩

theorem byteSize_minify_le (hjson : language ≠ .json) {code minified : List Char}
    (h : minify code language options = .ok minified) : Text.byteSize minified ≤ Text.byteSize code := by
  obtain ⟨masked, hmask, rfl⟩ := exists_of_minify hjson h
  obtain ⟨source, template, -, hlayout⟩ :=
    Layout.exists_of_mask (stripsClean_lexerFor language.commentStyle) hmask
  have htext : Unreserved code := MaskedText.unreserved_of_mask hmask
  have hsize := MaskedText.byteSize_add_le_of_mask (shrinks_lexerFor language.commentStyle) hmask
  refine hlayout.byteSize_unmask_le htext hsize ((lightens_rules language options masked.text).trans ?_)
  exact .of_carriedTo (Text.carriedTo_trim _) (Text.byteSize_le_of_sublist (Text.trim_sublist _))

end Worker

/-! ### JSON -/

namespace Json

/-- The numbers of a text that is JSON are integers that fit machine words. -/
def IntegersOnly (content : String) : Prop := ∀ value, parse content = .ok value → Integers content.toList

variable {content : String}

theorem IntegersOnly.byteSize_minify_le (h : IntegersOnly content) {minified : List Char}
    (hminify : Data.minify content.toList = .ok minified) :
    Text.byteSize minified ≤ Text.byteSize content.toList := by
  obtain ⟨value, hvalue, -⟩ := exists_of_map_eq_ok hminify
  exact Json.byteSize_minify_le (h value hvalue) hminify

theorem IntegersOnly.byteSize_minifyJson_le (h : IntegersOnly content) :
    Text.byteSize (minifyJson content).minified.toList ≤ Text.byteSize content.toList := by
  unfold minifyJson
  rcases guarded_cases "JSON" content _ with ⟨-, hsame⟩ | ⟨-, minified, warnings, hok, hdone⟩ | ⟨-, _, _, -, hsame⟩
  · rw [hsame]
    exact Nat.le_refl _
  · rw [hdone]
    cases hminify : Data.minify content.toList with
    | error error =>
      rw [hminify] at hok
      cases hok
    | ok written =>
      rw [hminify] at hok
      obtain ⟨rfl, -⟩ := Prod.mk.inj (Except.ok.inj hok)
      exact String.toList_ofList.symm ▸ h.byteSize_minify_le hminify
  · rw [hsame]
    exact Nat.le_refl _

end Json

/-! ### Outcomes -/

/-- The sizes of an outcome are those of its texts, and the text has not grown. -/
structure Outcome.NoLarger (outcome : Outcome) (source : String) : Prop where
  sourceSize : outcome.sourceSize = source.utf8ByteSize
  minifiedSize : outcome.minifiedSize = outcome.minified.utf8ByteSize
  le : outcome.minifiedSize ≤ outcome.sourceSize

theorem Outcome.NoLarger.of_texts {outcome : Outcome} {source : String}
    (hsource : outcome.sourceSize = source.utf8ByteSize)
    (hminified : outcome.minifiedSize = outcome.minified.utf8ByteSize)
    (h : Text.byteSize outcome.minified.toList ≤ Text.byteSize source.toList) : outcome.NoLarger source := by
  constructor
  · exact hsource
  · exact hminified
  · rw [hsource, hminified, Text.utf8ByteSize_eq, Text.utf8ByteSize_eq]
    exact h

theorem Worker.exists_noLarger_of_success {request : Request}
    (hnumbers : request.language = .json → Json.IntegersOnly request.code)
    (h : (handle request).success = true) :
    ∃ result, (handle request).result = some result ∧ result.NoLarger request.code := by
  unfold handle at h ⊢
  cases hminify : minify request.code.toList request.language request.options with
  | error error =>
    rw [hminify] at h
    cases h
  | ok minified =>
    refine ⟨_, rfl, .of_texts rfl rfl ?_⟩
    rw [Outcome.ofTexts, String.toList_ofList]
    by_cases hjson : request.language = .json
    · rw [minify, if_pos hjson] at hminify
      apply (hnumbers hjson).byteSize_minify_le
      cases hdata : Data.minify request.code.toList with
      | error error =>
        rw [hdata] at hminify
        cases hminify
      | ok written =>
        rw [hdata] at hminify
        exact congrArg Except.ok (Except.ok.inj hminify)
    · exact byteSize_minify_le hjson hminify

/-- Minifying never makes a text larger, whatever its language and whatever the options, and neither does a
worker that meets a request. In JSON this holds of the texts whose numbers are integers that fit machine
words: a real number may be written longer than it was. -/
theorem minify_noLarger (content : String) (language : Language) (options : Options)
    (hnumbers : language = .json → Json.IntegersOnly content) :
    (minify content language options).NoLarger content ∧
      ∀ id, (Worker.handle ⟨id, content, language, options⟩).success = true →
        ∃ result, (Worker.handle ⟨id, content, language, options⟩).result = some result ∧
          result.NoLarger content := by
  constructor
  · obtain ⟨hsource, hminified⟩ := minify_sizes content language options
    apply Outcome.NoLarger.of_texts hsource hminified
    by_cases hjson : language = .json
    · subst hjson
      exact (hnumbers rfl).byteSize_minifyJson_le
    · exact byteSize_minify_le hjson content options
  · exact fun id => Worker.exists_noLarger_of_success hnumbers

theorem minify_noLarger_integers :
    (Language.json = .json → Json.IntegersOnly "[ 7, -40 ]") ∧
      (minify "[ 7, -40 ]" .json {}).minified = "[7,-40]" ∧
      (minify "[ 7, -40 ]" .json {}).NoLarger "[ 7, -40 ]" ∧
      ∃ result, (Worker.handle ⟨"1", "[ 7, -40 ]", .json, {}⟩).result = some result ∧
        result.NoLarger "[ 7, -40 ]" := by
  have hnumbers : Language.json = .json → Json.IntegersOnly "[ 7, -40 ]" := by
    intro _ value _ token htoken
    have htokens : Json.numberTokens "[ 7, -40 ]".toList = [['7'], ['-', '4', '0']] := by decide
    rw [htokens] at htoken
    simp only [List.mem_cons, List.not_mem_nil, or_false] at htoken
    rcases htoken with rfl | rfl
    · exact ⟨7, by decide, by decide⟩
    · exact ⟨-40, by decide, by decide⟩
  obtain ⟨hminify, hhandle⟩ := minify_noLarger "[ 7, -40 ]" .json {} hnumbers
  exact ⟨hnumbers, by decide +kernel, hminify, hhandle "1" (by decide +kernel)⟩

-- A real number grows: all its zeros are written.
example : (minify "1e5" .json {}).sourceSize = 3 ∧ (minify "1e5" .json {}).minifiedSize = 8 := by
  decide +kernel

end Minifier
