import Minifier.Proofs.Masking.Comments
import Minifier.Proofs.Masking.Slots
import Minifier.Proofs.Minify.Carry
import Minifier.Proofs.Minify.Errors
import Minifier.Proofs.Minify.RuleSizes

/-!
What becomes of literals. The scan of a text sets its literals aside, the edits carry their placeholders
along, and restoring fills these in. So a minified text holds the literals of the text unchanged, each
once and in their order; a script may lose some with calls of a console.

Nothing is said here about aggressive HTML, where tags get their literals back before they are edited.
-/

namespace Minifier

open Pattern Template

/-! ### Comments -/

theorem Lexer.unreserved_leaveBreak (comment : List Char) : Unreserved (leaveBreak comment) :=
  ⟨fun h => absurd (mem_leaveBreak h) (by decide), fun h => absurd (mem_leaveBreak h) (by decide)⟩

theorem Lexer.stripsClean_of_stripAll {lexer : Lexer} (h : lexer.strip = stripAll) :
    lexer.StripsClean := by
  intro comment index left hstrip _
  rw [h] at hstrip
  obtain rfl := Option.some.inj hstrip
  exact unreserved_leaveBreak comment

theorem Generic.stripsClean_of_stripButShebang {lexer : Lexer} (h : lexer.strip = stripButShebang) :
    lexer.StripsClean := by
  intro comment index left hstrip hcomment
  rw [h, stripButShebang] at hstrip
  split at hstrip
  · exact Option.some.inj hstrip ▸ hcomment
  · exact Option.some.inj hstrip ▸ Lexer.unreserved_leaveBreak comment

theorem Markup.stripsClean_htmlLexer : Markup.htmlLexer.StripsClean := by
  intro comment index left hstrip _
  have hstrip : stripUnconditional comment index = some left := hstrip
  rw [stripUnconditional] at hstrip
  split at hstrip
  · cases hstrip
  · exact Option.some.inj hstrip ▸ unreserved_nil

/-- No lexer leaves anything of a comment that looks like a placeholder. -/
theorem Stages.stripsClean_lexer (language : Language) : (lexer language).StripsClean := by
  cases language with
  | html => exact Markup.stripsClean_htmlLexer
  | xml =>
    intro comment index left hstrip _
    exact Option.some.inj hstrip ▸ unreserved_nil
  | css | javascript | typescript => exact Lexer.stripsClean_of_stripAll rfl
  | _ => exact Generic.stripsClean_of_stripButShebang rfl

/-! ### Attribute values -/

namespace Markup

private theorem exists_of_takes_quotedBy {quote : Char} {prev : Option Char}
    {taken behind : List Char} {parts : Parts} (h : (quotedBy quote).Takes prev taken behind parts) :
    ∃ body, taken = quote :: (body ++ [quote]) := by
  obtain ⟨_, _, _, _, ⟨_, body, _, _, hopen, -, rfl, rfl⟩, hclose, rfl, -⟩ := h
  obtain ⟨rfl, -⟩ := (takes_char quote).mp hopen
  obtain ⟨rfl, -⟩ := (takes_char quote).mp hclose
  exact ⟨body, rfl⟩

/-- An attribute value is the quotes and all between them, at the end of the match. -/
private theorem exists_of_takes_attributeValue {prev : Option Char} {taken behind : List Char}
    {parts : Parts} (h : attributeValue.Takes prev taken behind parts) :
    ∃ (front body : List Char) (quote : Char), taken = front ++ quote :: (body ++ [quote]) ∧
      quote ∉ front ∧ Clear [quote] ∧ parts.lookup .literal = some (quote :: (body ++ [quote])) := by
  obtain ⟨front, literal, _, _, hfront, ⟨_, hliteral, rfl⟩, rfl, rfl⟩ := h
  rcases hliteral with hquoted | hquoted
  · obtain ⟨body, rfl⟩ := exists_of_takes_quotedBy hquoted
    exact ⟨front, body, '"', rfl, hfront.not_mem (by decide), ⟨by decide, '"', by simp, rfl⟩, rfl⟩
  · obtain ⟨body, rfl⟩ := exists_of_takes_quotedBy hquoted
    exact ⟨front, body, '\'', rfl, hfront.not_mem (by decide), ⟨by decide, '\'', by simp, rfl⟩, rfl⟩

theorem setsClearAside_attributeValue {index : Nat} {prev : Option Char} {rest new : List Char}
    {found : Match} {literals literals' : Array (List Char)}
    (h : attributeValue.matchAt index prev (found.text ++ rest) = some found)
    (hset : MaskedText.setAsideMatch literals found = (new, literals')) :
    MaskedText.SetsClearAside literals found.text new rest literals' := by
  obtain ⟨_, parts, -, htakes, hlabels⟩ := Match.exists_takes h
  obtain ⟨front, body, quote, htext, hquote, hclear, hlookup⟩ := exists_of_takes_attributeValue htakes
  have hliteral := (hlabels .literal).trans hlookup
  have hset' := MaskedText.setAsideMatch_of_not_mem h hliteral htext hquote literals
  obtain ⟨rfl, rfl⟩ := Prod.mk.inj (hset.symm.trans hset')
  exact ⟨front, [quote], body, [quote], hclear, hclear, by simpa using htext, rfl, by simp⟩

end Markup

/-! ### Layouts of scanned texts -/

namespace Stages

variable {language : Language} {options : Options} {text : List Char} {scanned : MaskedText}

/-- A scan that does not fail is a masking. -/
theorem mask_of_scan (h : scan language options text = .ok scanned) :
    MaskedText.mask (lexer language) options.removeComments text = .ok scanned := by
  rw [scan] at h
  cases hmask : MaskedText.mask (lexer language) options.removeComments text with
  | error cause =>
    rw [hmask] at h
    cases h
  | ok masked =>
    rw [hmask] at h
    simp only [bind, Except.bind] at h
    split at h
    · split at h
      · cases h
      · exact h
    · split at h
      · cases h
      · exact h
    · exact h

/-- What is set aside before the rules of a language run has a layout. -/
theorem exists_layout (h : scan language options text = .ok scanned) :
    ∃ (inner : Nat → Template) (source code : Template),
      Layout scanned (prepare language scanned) text inner source code := by
  obtain ⟨source, code, hslots, hlayout⟩ :=
    Layout.exists_of_mask (stripsClean_lexer language) (mask_of_scan h)
  unfold prepare
  split
  · have hedits : Edits MaskedText.SetsClearAside scanned.literals scanned.text
        (scanned.maskAlso Markup.attributeValue).text
        (scanned.maskAlso Markup.attributeValue).literals := by
      refine (scanned.edits_maskAlso Markup.attributeValue).mono ?_
      rintro literals _ new rest literals' ⟨index, prev, found, hfound, rfl, hset⟩
      exact Markup.setsClearAside_attributeValue hfound hset
    obtain ⟨inner, code', hlayout'⟩ := hlayout.exists_of_edits hslots hedits
    exact ⟨inner, source, code', hlayout'⟩
  · exact ⟨_, source, code, hlayout⟩

/-! ### Edited texts -/

/-- Whether calls of a console go. -/
def DropsCalls (language : Language) (options : Options) : Prop :=
  (language = .javascript ∨ language = .typescript) ∧ options.removeConsoleLog = true

/-- The rules of every language carry placeholders, but for the one for calls of a console. -/
theorem each_rules {property : Rule → Prop}
    (hconsole : DropsCalls language options → property Script.consoleCall)
    (hothers : ∀ rule, Carries Eq rule.apply → property rule) :
    (rules language options).Each property := by
  unfold rules
  split
  · exact (Markup.each_carries keeping_eq options).mono hothers
  · exact (Markup.each_carries keeping_eq options).mono hothers
  · exact (Style.each_carries keeping_eq options).mono hothers
  · exact Script.each_of_carries (fun h => hconsole ⟨Or.inl rfl, h⟩) hothers
  · exact Script.each_of_carries (fun h => hconsole ⟨Or.inr rfl, h⟩) hothers
  · exact (Generic.each_carries keeping_eq _ options).mono hothers

/-- The edits of a language carry placeholders, if calls of a console do where they go. -/
theorem carriedTo_edit {rel : List Nat → List Nat → Prop} (hrel : Keeping rel)
    (hconsole : DropsCalls language options → Carries rel Script.consoleCall.apply)
    (hhtml : language = .html → options.level ≠ .aggressive) (masked : MaskedText) :
    CarriedTo rel masked.text (edit language options masked) := by
  have hrules : CarriedTo rel masked.text ((rules language options).run masked.text) :=
    Pipeline.carries_run hrel (each_rules hconsole fun _ h => h.of_eq hrel) masked.text
  unfold edit
  split
  · have haggressive : options.isAggressive = false := by simpa [Options.isAggressive] using hhtml rfl
    rw [haggressive]
    exact hrules
  · split
    · exact hrules.trans hrel (Mangle.carries_mangle.of_eq hrel _)
    · exact hrules
  · split
    · exact hrules.trans hrel (Mangle.carries_mangle.of_eq hrel _)
    · exact hrules
  · exact hrules

/-! ### The empty text -/

/-- No lexer finds anything in the empty text. -/
theorem scan_nil (language : Language) (options : Options) :
    scan language options [] = .ok ⟨[], #[]⟩ := by
  have hsegments : (lexer language).pattern.segments [] = [] := by cases language <;> rfl
  have hmask : MaskedText.mask (lexer language) options.removeComments [] = .ok ⟨[], #[]⟩ := by
    rw [MaskedText.mask, hsegments]
    rfl
  rw [scan, hmask]
  cases language <;> rfl

theorem prepare_nil (language : Language) : (prepare language ⟨[], #[]⟩).text = [] := by
  cases language <;> rfl

/-! ### Minified texts -/

/-- A text on which minifying reports no error is the empty one, which stays, or it is scanned, edited and
restored. -/
theorem minified_cases (hjson : language ≠ .json) {content : String}
    (herrors : (minify content language options).errors = []) :
    (content = "" ∧ (minify content language options).minified = "") ∨
      ∃ scanned, scan language options content.toList = .ok scanned ∧
        (minify content language options).minified.toList =
          (prepare language scanned).unmask (edit language options (prepare language scanned)) := by
  obtain ⟨transform, hrestores, hminify⟩ := exists_transform hjson options
  rw [hminify] at herrors ⊢
  rcases guarded_cases (label language) content transform with
    ⟨rfl, h⟩ | ⟨-, minified, warnings, hok, h⟩ | ⟨-, _, _, -, h⟩
  · exact Or.inl ⟨rfl, by rw [h]; rfl⟩
  · have htext := hrestores content.toList
    cases hscan : scan language options content.toList with
    | error cause =>
      rw [hscan, hok] at htext
      cases htext
    | ok scanned =>
      rw [hscan, hok] at htext
      obtain ⟨_, htext⟩ := htext
      obtain ⟨rfl, -⟩ := Prod.mk.inj (Except.ok.inj htext)
      exact Or.inr ⟨scanned, rfl, by rw [h]; exact String.toList_ofList⟩
  · rw [h] at herrors
    cases herrors

/-- What is edited is a template with the slots that are left, in order, and restoring fills these. -/
theorem exists_edited (hhtml : language = .html → options.level ≠ .aggressive)
    (h : scan language options text = .ok scanned) {inner : Nat → Template} {source code : Template}
    (hlayout : Layout scanned (prepare language scanned) text inner source code) :
    ∃ result : Template, KeepsSlots (DropsCalls language options) result code ∧
      result.render = edit language options (prepare language scanned) ∧
      (prepare language scanned).unmask (edit language options (prepare language scanned)) =
        (result.expand inner).fill (literalAt scanned.literals) := by
  have htext : Unreserved text :=
    MaskedText.unreserved_of_mask (mask_of_scan h)
  obtain ⟨result, hclean, hrender, hkeeps⟩ : ∃ result : Template, result.Clean ∧
      result.render = edit language options (prepare language scanned) ∧
      KeepsSlots (DropsCalls language options) result code := by
    by_cases hdrops : DropsCalls language options
    · obtain ⟨result, hclean, hrender, hslots⟩ :=
        carriedTo_edit keeping_sublist (fun _ => Script.carries_consoleCall) hhtml
          (prepare language scanned) code hlayout.clean hlayout.masked_text.symm
      exact ⟨result, hclean, hrender, hslots, fun hnot => absurd hdrops hnot⟩
    · obtain ⟨result, hclean, hrender, hslots⟩ :=
        carriedTo_edit keeping_eq (fun h => absurd h hdrops) hhtml
          (prepare language scanned) code hlayout.clean hlayout.masked_text.symm
      exact ⟨result, hclean, hrender, hslots ▸ .refl _, fun _ => hslots⟩
  refine ⟨result, hkeeps, hrender, ?_⟩
  rw [← hrender]
  exact hlayout.unmask_render htext hclean hkeeps

theorem exists_result (hhtml : language = .html → options.level ≠ .aggressive)
    (h : scan language options text = .ok scanned) {inner : Nat → Template} {source code : Template}
    (hlayout : Layout scanned (prepare language scanned) text inner source code) :
    ∃ result : Template, KeepsSlots (DropsCalls language options) result code ∧
      (prepare language scanned).unmask (edit language options (prepare language scanned)) =
        (result.expand inner).fill (literalAt scanned.literals) := by
  obtain ⟨result, hkeeps, -, hunmask⟩ := exists_edited hhtml h hlayout
  exact ⟨result, hkeeps, hunmask⟩

/-- A text that is scanned and of which something is left is edited and restored. -/
theorem minified_of_scan (hjson : language ≠ .json) {content : String}
    (hscan : scan language options content.toList = .ok scanned) (hleft : (prepare language scanned).text ≠ []) :
    (minify content language options).errors = [] ∧ (minify content language options).minified.toList =
      (prepare language scanned).unmask (edit language options (prepare language scanned)) := by
  obtain ⟨transform, hrestores, hminify⟩ := exists_transform hjson options
  have htext := hrestores content.toList
  rw [hscan] at htext
  obtain ⟨warnings, htransform⟩ := htext
  rw [hminify]
  rcases guarded_cases (label language) content transform with
    ⟨rfl, -⟩ | ⟨-, minified, _, hok, h⟩ | ⟨-, _, _, herror, -⟩
  · obtain rfl := Except.ok.inj (hscan.symm.trans (scan_nil language options))
    exact absurd (prepare_nil language) hleft
  · obtain ⟨rfl, -⟩ := Prod.mk.inj (Except.ok.inj (htransform.symm.trans hok))
    rw [h]
    exact ⟨rfl, String.toList_ofList⟩
  · cases htransform.symm.trans herror

/-- Where the edited text has code in it, what stands before that and what stands behind it are restored by
themselves. -/
theorem minified_around (hjson : language ≠ .json) (hhtml : language = .html → options.level ≠ .aggressive)
    {content : String} (hscan : scan language options content.toList = .ok scanned)
    (hleft : (prepare language scanned).text ≠ []) {left front mid back right : List Char}
    (hedit : edit language options (prepare language scanned) = left ++ (front ++ (mid ++ (back ++ right))))
    (hpiece : Clear (front ++ (mid ++ back))) :
    (minify content language options).errors = [] ∧ (minify content language options).minified.toList =
      (prepare language scanned).unmask (left ++ front) ++
        (mid ++ (prepare language scanned).unmask (back ++ right)) := by
  obtain ⟨herrors, hminified⟩ := minified_of_scan hjson hscan hleft
  obtain ⟨inner, source, code, hlayout⟩ := exists_layout hscan
  have htext : Unreserved content.toList := MaskedText.unreserved_of_mask (mask_of_scan hscan)
  obtain ⟨result, hclean, hrender, hslots⟩ :=
    carriedTo_edit keeping_sublist (fun _ => Script.carries_consoleCall) hhtml
      (prepare language scanned) code hlayout.clean hlayout.masked_text.symm
  refine ⟨herrors, ?_⟩
  rw [hminified, ← hrender]
  exact hlayout.unmask_around htext hclean hslots (hrender.trans hedit) hpiece

end Stages

/-- Where minifying reports no error, the literals of the text stand in the minified text unchanged, each once
and in their order; if calls of a console go, some literals may go with them. Below the aggressive level
this also holds of HTML. It holds because no rule splits, doubles, moves or makes up a placeholder: every
rule but the one for calls of a console, and the shortening of names, keeps all slots of a masked
text, and that one drops some. -/
theorem literals_kept (content : String) (language : Language) (options : Options)
    (hjson : language ≠ .json) (hhtml : language = .html → options.level ≠ .aggressive)
    (herrors : (minify content language options).errors = []) :
    ((Stages.rules language options).Each fun rule =>
        Carries List.Sublist rule.apply ∧ (rule ≠ Script.consoleCall → Carries Eq rule.apply)) ∧
      (Carries Eq fun code => (Mangle.mangle code).code) ∧
      ∃ scanned, Stages.scan language options content.toList = .ok scanned ∧
        ∃ (inner : Nat → Template) (source code result : Template),
          Layout scanned (Stages.prepare language scanned) content.toList inner source code ∧
            KeepsSlots (Stages.DropsCalls language options) result code ∧
            KeepsSlots (Stages.DropsCalls language options) (result.expand inner) source ∧
            (minify content language options).minified.toList =
              (result.expand inner).fill (literalAt scanned.literals) := by
  refine ⟨?_, Mangle.carries_mangle, ?_⟩
  · apply Stages.each_rules
    · intro _
      exact ⟨Script.carries_consoleCall, fun hne => absurd rfl hne⟩
    · intro rule h
      exact ⟨h.of_eq keeping_sublist, fun _ => h⟩
  · rcases Stages.minified_cases hjson herrors with ⟨rfl, hminified⟩ | ⟨scanned, hscan, hminified⟩
    · have hscan := Stages.scan_nil language options
      obtain ⟨inner, source, code, hlayout⟩ := Stages.exists_layout hscan
      have hcode : code = [] :=
        eq_nil_of_render (hlayout.masked_text.symm.trans (Stages.prepare_nil language))
      have hkeeps : KeepsSlots (Stages.DropsCalls language options) code code :=
        ⟨.refl _, fun _ => rfl⟩
      refine ⟨_, hscan, inner, source, code, code, hlayout, hkeeps,
        hlayout.keepsSlots_source hkeeps, ?_⟩
      rw [hminified, hcode]
      rfl
    · obtain ⟨inner, source, code, hlayout⟩ := Stages.exists_layout hscan
      obtain ⟨result, hkeeps, hunmask⟩ := Stages.exists_result hhtml hscan hlayout
      exact ⟨scanned, hscan, inner, source, code, result, hlayout, hkeeps,
        hlayout.keepsSlots_source hkeeps, hminified.trans hunmask⟩

/-- A document whose untouched body lies between two quotes, so that an attribute value holds a placeholder. -/
theorem literals_kept_nested :
    (minify "<pre title=\"a > b</pre> c\">" .html {}).errors = [] ∧
      ∃ scanned, Stages.scan .html {} "<pre title=\"a > b</pre> c\">".toList = .ok scanned ∧
        ∃ (inner : Nat → Template) (source code result : Template),
          Layout scanned (Stages.prepare .html scanned) "<pre title=\"a > b</pre> c\">".toList inner
              source code ∧
            KeepsSlots (Stages.DropsCalls .html {}) result code ∧
            KeepsSlots (Stages.DropsCalls .html {}) (result.expand inner) source ∧
            (minify "<pre title=\"a > b</pre> c\">" .html {}).minified.toList =
              (result.expand inner).fill (literalAt scanned.literals) :=
  ⟨by decide +kernel,
    (literals_kept "<pre title=\"a > b</pre> c\">" .html {} (by decide) (fun _ => by decide)
      (by decide +kernel)).2.2⟩

/-! ### Languages without a minifier of their own -/

namespace Generic

variable {language : Language} {options : Options}

/-- What is edited is a template with the same literals, and restoring fills these in. -/
theorem exists_unmask_run {style : CommentStyle} {text : List Char} {masked : MaskedText}
    (hmask : MaskedText.mask (lexer style) options.removeComments text = .ok masked) :
    ∃ result : Template, result.Clean ∧ result.render = (pipeline language options).run masked.text ∧
      result.slots = List.range masked.literals.size ∧
      masked.unmask ((pipeline language options).run masked.text) = result.fill (literalAt masked.literals) := by
  obtain ⟨source, code, hslots, hlayout⟩ := Layout.exists_of_mask (stripsClean_of_stripButShebang rfl) hmask
  have hcarried := Pipeline.carries_run keeping_eq (each_carries keeping_eq language options) masked.text
  obtain ⟨result, hclean, hrender, hsame⟩ := hcarried code hlayout.clean hlayout.masked_text.symm
  have hkeeps : KeepsSlots False result code := ⟨hsame ▸ .refl _, fun _ => hsame⟩
  refine ⟨result, hclean, hrender, hsame.trans hslots, ?_⟩
  rw [← hrender, hlayout.unmask_render (MaskedText.unreserved_of_mask hmask) hclean hkeeps,
    expand_eq_self fun _ _ => rfl]

/-- A text that can be masked is edited and restored. -/
theorem minifyGeneric_of_mask {content : String} {masked : MaskedText} (hcontent : content ≠ "")
    (hmask : MaskedText.mask (lexer language.commentStyle) options.removeComments content.toList = .ok masked) :
    minifyGeneric content language options =
      .ofTexts content (String.ofList (masked.unmask ((pipeline language options).run masked.text))) [] := by
  have htransform : withoutWarnings (minify content.toList language options) =
      .ok (masked.unmask ((pipeline language options).run masked.text), []) := by
    rw [minify, hmask]
    rfl
  rcases guarded_cases language.name content fun text => withoutWarnings (minify text language options) with
    ⟨hempty, -⟩ | ⟨-, minified, warnings, hok, h⟩ | ⟨-, _, _, herror, -⟩
  · exact absurd hempty hcontent
  · obtain ⟨rfl, rfl⟩ := Prod.mk.inj (Except.ok.inj (htransform.symm.trans hok))
    exact h
  · cases htransform.symm.trans herror

/-- So the minified text is what the rules make of the masked text, with the literals filled in. -/
theorem exists_minified_of_mask {content : String} {masked : MaskedText}
    (hmask : MaskedText.mask (lexer language.commentStyle) options.removeComments content.toList = .ok masked) :
    (minifyGeneric content language options).errors = [] ∧
      ∃ result : Template, result.render = (pipeline language options).run masked.text ∧
        result.slots = List.range masked.literals.size ∧
        (minifyGeneric content language options).minified.toList = result.fill (literalAt masked.literals) := by
  by_cases hempty : content = ""
  · subst hempty
    have hnil : MaskedText.mask (lexer language.commentStyle) options.removeComments "".toList = .ok ⟨[], #[]⟩ := by
      cases language.commentStyle <;> rfl
    obtain rfl := Except.ok.inj (hmask.symm.trans hnil)
    refine ⟨rfl, [], ?_, rfl, rfl⟩
    rw [(each_shrinks language options).run_eq_nil]
    rfl
  · obtain ⟨result, -, hrender, hslots, hunmask⟩ := @exists_unmask_run language _ _ _ _ hmask
    rw [minifyGeneric_of_mask hempty hmask]
    exact ⟨rfl, result, hrender, hslots, String.toList_ofList.trans hunmask⟩

/-- A text that cannot be masked comes back. -/
theorem minifyGeneric_of_mask_error {content : String} {cause : Unsafe}
    (hmask : MaskedText.mask (lexer language.commentStyle) options.removeComments content.toList = .error cause) :
    (minifyGeneric content language options).minified = content := by
  have htransform : withoutWarnings (minify content.toList language options) = .error (.ofUnsafe cause) := by
    rw [minify, hmask]
    rfl
  rcases guarded_cases language.name content fun text => withoutWarnings (minify text language options) with
    ⟨-, h⟩ | ⟨-, _, _, hok, -⟩ | ⟨-, _, _, -, h⟩
  · rw [minifyGeneric, h]
    rfl
  · cases htransform.symm.trans hok
  · rw [minifyGeneric, h]
    rfl

end Generic

end Minifier
