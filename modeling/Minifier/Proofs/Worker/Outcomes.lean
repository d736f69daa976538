import Minifier.Proofs.Minify.Errors
import Minifier.Proofs.Worker.Sizes

/-!
What a worker answers. It meets every request that it can read as JSON or scan, and says of every other that it cannot:
its rules, the trimming and the restoring of literals fail on no text. JSON it minifies as the minifier of JSON does.
-/

namespace Minifier.Worker

open Template

/-- A request that a worker cannot meet: JSON that does not parse, and so without any text, or a text in another
language with a character that marks placeholders. -/
inductive Request.Refused (request : Request) : Prop where
  | notJson : request.language = .json →
      request.code = "" ∨ (∀ value, Json.parse request.code ≠ .ok value) → Request.Refused request
  | reserved : request.language ≠ .json →
      '\uE000' ∈ request.code.toList ∨ '\uE001' ∈ request.code.toList → Request.Refused request

/-- An answer that tells an error. -/
structure Response.Fails (response : Response) : Prop where
  success : response.success = false
  result : response.result = none
  error : ∃ message, response.error = some message

/-- An answer with an outcome. -/
structure Response.Tells (response : Response) (outcome : Outcome) : Prop where
  success : response.success = true
  result : response.result = some outcome
  error : response.error = none

section Minifying

variable {code minified : List Char} {language : Language} {options : Options}

/-- The empty text is no JSON. -/
theorem parse_empty_ne_ok (value : Json) : Json.parse "" ≠ .ok value := by
  have hempty : (Json.parse "").toOption = none := by decide +kernel
  intro hvalue
  rw [hvalue] at hempty
  cases hempty

theorem exists_minify_error_iff :
    (∃ error, minify code language options = .error error) ↔
      (language = .json ∧ ∀ value, Json.parseChars code ≠ .ok value) ∨
        (language ≠ .json ∧ (Placeholder.opening ∈ code ∨ Placeholder.closing ∈ code)) := by
  by_cases hjson : language = .json
  · rw [minify, if_pos hjson, Data.minify]
    cases Json.parseChars code with
    | error error => simp [hjson, Except.map, Except.mapError]
    | ok value => simp [hjson, Except.map, Except.mapError]
  · rw [minify, if_neg hjson]
    by_cases hreserved : Placeholder.opening ∈ code ∨ Placeholder.closing ∈ code
    · rw [MaskedText.mask_eq_error _ _ hreserved]
      exact iff_of_true ⟨_, rfl⟩ (.inr ⟨hjson, hreserved⟩)
    · obtain ⟨masked, hmask⟩ :=
        MaskedText.exists_mask (lexerFor language.commentStyle) options.removeComments hreserved
      rw [hmask]
      refine iff_of_false ?_ ?_
      · rintro ⟨error, herror⟩
        cases herror
      · rintro (⟨h, -⟩ | ⟨-, h⟩)
        · exact hjson h
        · exact hreserved h

/-- The rules and the trimming make no literal larger, and add none. -/
theorem lightens_edit {value : Nat → List Char} {known : List Nat} (language : Language) (options : Options)
    (text : List Char) :
    Lightens value known text (Text.trim ((debugRules language options ++ blankRules language options).run text)) :=
  (lightens_rules language options text).trans
    (.of_carriedTo (Text.carriedTo_trim _) (Text.byteSize_le_of_sublist (Text.trim_sublist _)))

/-- Every placeholder that the rules leave is given its literal back. -/
theorem unreserved_of_minify (hjson : language ≠ .json) (h : minify code language options = .ok minified) :
    Unreserved minified := by
  obtain ⟨masked, hmask, rfl⟩ := exists_of_minify hjson h
  obtain ⟨source, template, -, hlayout⟩ :=
    Layout.exists_of_mask (stripsClean_lexerFor language.commentStyle) hmask
  have htext : Unreserved code := MaskedText.unreserved_of_mask hmask
  obtain ⟨edited, hclean, hrender, hlighter⟩ :=
    @lightens_edit (fun _ => []) _ language options masked.text template hlayout.clean (.refl _)
      hlayout.masked_text.symm
  rw [← hrender, hlayout.unmask_render htext hclean hlighter.keepsSlots]
  exact (hclean.expand hlayout.inner_clean).unreserved_fill (hlayout.unreserved_literalAt htext)

end Minifying

/-- A text that is JSON is minified by a worker as by the minifier of JSON. -/
theorem minifyJson_eq {code : String} {options : Options} {minified : List Char}
    (h : minify code.toList .json options = .ok minified) :
    minifyJson code = .ofTexts code (String.ofList minified) [] := by
  rw [minify, if_pos rfl] at h
  have hdata : Data.minify code.toList = .ok minified := by
    cases hdata : Data.minify code.toList with
    | error error =>
      rw [hdata] at h
      cases h
    | ok written =>
      rw [hdata] at h
      exact congrArg Except.ok (Except.ok.inj h)
  have hcode : code ≠ "" := by
    rintro rfl
    obtain ⟨value, hvalue, -⟩ := Json.exists_of_map_eq_ok hdata
    exact parse_empty_ne_ok value hvalue
  rw [minifyJson, guarded, if_neg (by simpa using hcode), hdata]

/-- The answer to a request bears its id. A request that cannot be met is answered with an error and no result. Any
other is answered with an outcome: it has no errors, its sizes are those of the two texts, JSON has the outcome that the
minifier of JSON hands back, and in every other language each literal is back in its place. -/
theorem handle_exact (request : Request) :
    (handle request).id = request.id ∧
      ((handle request).success = false ↔ request.Refused) ∧
      ((handle request).Fails ∨
        ∃ outcome, (handle request).Tells outcome ∧ outcome.errors = [] ∧
          outcome.sourceSize = request.code.utf8ByteSize ∧ outcome.minifiedSize = outcome.minified.utf8ByteSize ∧
          (request.language = .json → outcome = Minifier.minify request.code .json request.options) ∧
          (request.language ≠ .json → Unreserved outcome.minified.toList)) := by
  obtain ⟨id, code, language, options⟩ := request
  have hrefused : (∃ error, minify code.toList language options = .error error) ↔
      Request.Refused ⟨id, code, language, options⟩ := by
    rw [exists_minify_error_iff]
    constructor
    · rintro (⟨hjson, hparse⟩ | ⟨hjson, hreserved⟩)
      · exact .notJson hjson (.inr hparse)
      · exact .reserved hjson hreserved
    · rintro (⟨hjson, rfl | hparse⟩ | ⟨hjson, hreserved⟩)
      · exact .inl ⟨hjson, parse_empty_ne_ok⟩
      · exact .inl ⟨hjson, hparse⟩
      · exact .inr ⟨hjson, hreserved⟩
  rw [handle]
  cases hminify : minify code.toList language options with
  | error error =>
    exact ⟨rfl, iff_of_true rfl (hrefused.mp ⟨error, hminify⟩), .inl ⟨rfl, rfl, error.message, rfl⟩⟩
  | ok minified =>
    refine ⟨rfl, iff_of_false Bool.noConfusion ?_, .inr ⟨_, ⟨rfl, rfl, rfl⟩, rfl, rfl, rfl, ?_, ?_⟩⟩
    · rw [← hrefused, hminify]
      rintro ⟨error, herror⟩
      cases herror
    · rintro rfl
      exact (minifyJson_eq hminify).symm
    · intro hjson
      rw [Outcome.ofTexts, String.toList_ofList]
      exact unreserved_of_minify hjson hminify

end Minifier.Worker
