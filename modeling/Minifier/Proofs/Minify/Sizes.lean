import Minifier.Proofs.Masking.Size
import Minifier.Proofs.Minify.Literals
import Minifier.Proofs.Minify.RuleSizes

/-!
Minifying adds no bytes. What each stage does to a text is weighed with the literals in their places: removed
comments, the rules, short names and, in aggressive HTML, tags that get their values back before attributes
are dropped from them.
-/

namespace Minifier

open Pattern Template Text

/-! ### Comments -/

namespace Generic

theorem shrinks_of_stripButShebang {lexer : Lexer} (hpattern : 0 < lexer.pattern.fewest)
    (hstrip : lexer.strip = stripButShebang) : lexer.Shrinks := by
  refine .of_strip hpattern fun comment index left hleft => ?_
  rw [hstrip, stripButShebang] at hleft
  split at hleft
  · obtain rfl := Option.some.inj hleft
    exact Nat.le_max_right _ _
  · obtain rfl := Option.some.inj hleft
    exact Lexer.byteSize_leaveBreak_le comment

theorem fewest_lexer_pos (style : CommentStyle) : 0 < (lexer style).pattern.fewest := by
  cases style <;> decide

end Generic

theorem Markup.shrinks_htmlLexer : Markup.htmlLexer.Shrinks := by
  refine .of_strip (by decide) fun comment index left hleft => ?_
  have hleft : stripUnconditional comment index = some left := hleft
  rw [stripUnconditional] at hleft
  split at hleft
  · cases hleft
  · obtain rfl := Option.some.inj hleft
    exact Nat.zero_le _

theorem Markup.shrinks_xmlLexer : Markup.xmlLexer.Shrinks := by
  refine .of_strip (by decide) fun comment index left hleft => ?_
  obtain rfl := Option.some.inj hleft
  exact Nat.zero_le _

theorem Stages.shrinks_lexer (language : Language) : (lexer language).Shrinks := by
  cases language with
  | html => exact Markup.shrinks_htmlLexer
  | xml => exact Markup.shrinks_xmlLexer
  | css => exact Lexer.shrinks_of_stripAll (by decide) rfl
  | javascript | typescript => exact Lexer.shrinks_of_stripAll (by decide) rfl
  | _ => exact Generic.shrinks_of_stripButShebang (Generic.fewest_lexer_pos _) rfl

/-! ### Calls of a console -/

namespace Script

/-- A call begins with a clear callee and ends with a bracket and what may stand after it. -/
theorem exists_clear_of_call {callee inside : Pattern} {prev : Option Char} {taken behind : List Char}
    {parts : Parts} (hcallee : callee.isClear = true)
    (h : (callee ++ (inside ++ char ')') ++ run Text.isBlank ++ optional (char ';')).Takes
      prev taken behind parts) :
    ∃ first middle last, Clear first ∧ Clear last ∧ taken = first ++ (middle ++ last) := by
  obtain ⟨_, semicolon, _, _, ⟨_, blanks, _, _, ⟨first, _, _, _, hfirst, ⟨middle, close, _, _, -, hclose, rfl,
    rfl⟩, rfl, rfl⟩, hblanks, rfl, rfl⟩, hsemicolon, rfl, -⟩ := h
  have hbracket := hclose.clear (by decide)
  obtain ⟨c, hc, hdigit⟩ := hbracket.exists_not_digit
  refine ⟨first, middle, close ++ (blanks ++ semicolon), hfirst.clear hcallee, ⟨?_, c,
    List.mem_append_left _ hc, hdigit⟩, by simp⟩
  exact unreserved_append.mpr ⟨hbracket.unreserved, unreserved_append.mpr
    ⟨hblanks.unreserved (by decide) (by decide), hsemicolon.unreserved (by decide) (by decide)⟩⟩

theorem lightens_consoleCall {value : Nat → List Char} {known : List Nat} (text : List Char) :
    Lightens value known text (consoleCall.apply text) :=
  Rule.lightens_drop (fun _ _ _ _ htakes => exists_clear_of_call (by decide +kernel) htakes) text

end Script

/-! ### Short names -/

namespace Mangle

theorem utf8Size_letter (n : Nat) : (letter n).utf8Size = 1 := by
  have hletters : ∀ m < 26, (Char.ofNat (97 + m)).utf8Size = 1 := by decide
  exact hletters (n % 26) (Nat.mod_lt n (by decide))

theorem byteSize_letter_cons {tail : List Char} (h : byteSize tail = tail.length) (n : Nat) :
    byteSize (letter n :: tail) = (letter n :: tail).length := by
  rw [byteSize_cons, utf8Size_letter, h, List.length_cons, Nat.add_comm]

theorem byteSize_lettersOnto {tail : List Char} (h : byteSize tail = tail.length) (fuel index : Nat) :
    byteSize (lettersOnto fuel index tail) = (lettersOnto fuel index tail).length := by
  induction fuel generalizing index tail with
  | zero => exact byteSize_letter_cons h index
  | succ fuel ih =>
    rw [lettersOnto]
    split
    · exact byteSize_letter_cons h index
    · exact ih (byteSize_letter_cons h index) _

theorem byteSize_freshName (taken : List (List Char)) (tries counter : Nat) :
    byteSize (freshName taken tries counter).1 = (freshName taken tries counter).1.length := by
  induction tries generalizing counter with
  | zero => exact byteSize_lettersOnto rfl _ _
  | succ tries ih =>
    rw [freshName]
    split
    · exact ih _
    · exact byteSize_lettersOnto rfl _ _

theorem byteSize_lt_of_mem_choose (taken declared : List (List Char)) :
    ∀ entry ∈ choose taken declared, byteSize entry.2 < byteSize entry.1 := by
  intro entry hentry
  rw [choose, List.mem_reverse] at hentry
  revert entry
  refine List.foldlRecOn
    (motive := fun state : Renaming × Nat => ∀ entry ∈ state.1, byteSize entry.2 < byteSize entry.1)
    declared _ (by simp) fun state hstate name _ => ?_
  split
  · exact hstate
  · have hshort := byteSize_freshName taken taken.length state.2
    generalize freshName taken taken.length state.2 = fresh at hshort
    obtain ⟨short, counter⟩ := fresh
    dsimp only at hshort ⊢
    split
    · exact hstate
    · rename_i hlonger
      refine List.forall_mem_cons.mpr ⟨?_, hstate⟩
      rw [hshort]
      exact Nat.not_le.mp hlonger

theorem byteSize_mangle_le (code : List Char) : byteSize (mangle code).code ≤ byteSize code := by
  simp only [mangle]
  split
  · exact Nat.le_refl _
  · refine ((edits_renameSegments _ none (Pattern.segments_segmented identifier code)).mono ?_).byteSize_le
    rintro _ old new rest _ ⟨index, prev, found, -, rfl, rfl | hlookup⟩
    · exact Nat.le_refl _
    · obtain ⟨_, _, hnames, -⟩ := List.lookup_eq_some_iff.mp hlookup
      have hshorter := byteSize_lt_of_mem_choose ((identifiers code).eraseDups ++ reservedWords)
        (declaredNames code) (found.text, new)
      rw [hnames] at hshorter
      exact Nat.le_of_lt (hshorter (by simp))

end Mangle

/-! ### Redundant attributes -/

namespace Markup

theorem redundantAttributes_sublist (text : List Char) : (redundantAttributes.apply text).Sublist text := by
  refine @Rule.apply_of_once (fun text out => out.Sublist text) .refl (fun h h' => h'.trans h) _ ?_ text
  intro text
  refine replaceAll_sublist (fun index prev found behind hfound => ?_) text
  have htypes : (redundantType.replaceAll (fun _ => []) found.text).Sublist found.text :=
    replaceAll_sublist (fun _ _ _ _ _ => List.nil_sublist _) found.text
  have hvalues (tag : List Char) : (booleanAttribute.replaceAll (fun m => m.part 1) tag).Sublist tag :=
    replaceAll_sublist (fun _ _ _ _ h => (Match.part_infix h 1).sublist) tag
  exact (hvalues _).trans htypes

/-- An opening tag stands between two brackets. -/
theorem exists_of_takes_openingTag {prev : Option Char} {taken behind : List Char} {parts : Parts}
    (h : openingTag.Takes prev taken behind parts) : ∃ middle, taken = ['<'] ++ (middle ++ ['>']) := by
  obtain ⟨_, _, _, _, ⟨_, inside, _, _, ⟨_, blank, _, _, ⟨_, name, _, _, ⟨_, letter, _, _, hopen, -, rfl, rfl⟩,
    -, rfl, rfl⟩, -, rfl, rfl⟩, -, rfl, rfl⟩, hclose, rfl, -⟩ := h
  obtain ⟨rfl, -⟩ := (takes_char '<').mp hopen
  obtain ⟨rfl, -⟩ := (takes_char '>').mp hclose
  exact ⟨letter ++ (name ++ (blank ++ inside)), by simp⟩

/-- A tag with its values has the bytes that its placeholders stand for, and dropping attributes adds none. -/
theorem lightens_dropRedundantAttributes {scanned masked : MaskedText} {text : List Char}
    {inner : Nat → Template} {source code : Template} (h : Layout scanned masked text inner source code)
    (htext : Unreserved text) (edited : List Char) :
    Lightens (Layout.values scanned inner) code.slots edited (dropRedundantAttributes masked edited) := by
  refine .of_edits ((edits_replaceAll openingTag _ edited).mono ?_)
  rintro _ old new rest _ ⟨index, prev, found, hfound, rfl, rfl⟩
  obtain ⟨_, _, -, htakes, -⟩ := Match.exists_takes hfound
  obtain ⟨middle, htag⟩ := exists_of_takes_openingTag htakes
  have hopen : Clear ['<'] := ⟨by decide, '<', by simp, rfl⟩
  have hclose : Clear ['>'] := ⟨by decide, '>', by simp, rfl⟩
  refine ⟨['<'], middle, ['>'], hopen, hclose, htag, fun held hheld hknown hmiddle => ?_⟩
  have hslots : (ofCode ['<'] ++ (held ++ ofCode ['>'])).slots = held.slots := by simp
  have hclean : (ofCode ['<'] ++ (held ++ ofCode ['>'])).Clean :=
    clean_append.mpr ⟨clean_ofCode.mpr hopen.unreserved,
      clean_append.mpr ⟨hheld, clean_ofCode.mpr hclose.unreserved⟩⟩
  have hkeeps : KeepsSlots True (ofCode ['<'] ++ (held ++ ofCode ['>'])) code :=
    ⟨hslots ▸ hknown, fun hnot => absurd trivial hnot⟩
  have hunmask := h.unmask_render htext hclean hkeeps
  rw [fill_expand, render_append, render_append, render_ofCode, render_ofCode, hmiddle, ← htag] at hunmask
  have hsublist := redundantAttributes_sublist (masked.unmask found.text)
  rw [hunmask] at hsublist ⊢
  have hvalues := hclean.unreserved_fill fun index =>
    (h.inner_clean index).unreserved_fill (h.unreserved_literalAt htext)
  refine ⟨ofCode _, clean_ofCode.mpr (hvalues.of_subset hsublist.subset), render_ofCode, ?_, ?_⟩
  · rw [slots_ofCode]
    exact List.nil_sublist _
  · rw [fill_ofCode]
    exact byteSize_le_of_sublist hsublist

end Markup

/-! ### Edited texts -/

namespace Stages

variable {language : Language} {options : Options} {text : List Char} {scanned : MaskedText}

theorem each_shrinks (language : Language) (options : Options) :
    (rules language options).Each Rule.Shrinks := by
  unfold rules
  split
  · exact Markup.each_shrinks options
  · exact Markup.each_shrinks options
  · exact Style.each_shrinks options
  · exact Script.each_shrinks options
  · exact Script.each_shrinks options
  · exact Generic.each_shrinks _ options

theorem lightens_rules {value : Nat → List Char} {known : List Nat} (language : Language) (options : Options)
    (text : List Char) : Lightens value known text ((rules language options).run text) := by
  apply Pipeline.lightens_run
  have hrules : (rules language options).Each fun rule =>
      rule.Shrinks → ∀ text, Lightens value known text (rule.apply text) := by
    apply each_rules
    · intro _ _ text
      exact Script.lightens_consoleCall text
    · intro rule hcarries hshrinks text
      exact hshrinks.lightens hcarries text
  intro rule hrule
  exact hrules rule hrule (each_shrinks language options rule hrule)

/-- Short names and dropped attributes make the filled text no larger. -/
theorem lightens_edit_of_rules {masked : MaskedText} {inner : Nat → Template} {source code : Template}
    (h : Layout scanned masked text inner source code) (htext : Unreserved text) (language : Language)
    (options : Options) :
    Lightens (Layout.values scanned inner) code.slots ((rules language options).run masked.text)
      (edit language options masked) := by
  have hmangle (code' : List Char) :
      Lightens (Layout.values scanned inner) code.slots code' (Mangle.mangle code').code :=
    .of_carriedTo (Mangle.carries_mangle code') (Mangle.byteSize_mangle_le code')
  unfold edit
  split
  · split
    · exact Markup.lightens_dropRedundantAttributes h htext _
    · exact .refl _
  · split
    · exact hmangle _
    · exact .refl _
  · split
    · exact hmangle _
    · exact .refl _
  · exact .refl _

/-- Every edit of a masked text makes the filled text no larger. -/
theorem lightens_edit {masked : MaskedText} {inner : Nat → Template} {source code : Template}
    (h : Layout scanned masked text inner source code) (htext : Unreserved text) (language : Language)
    (options : Options) :
    Lightens (Layout.values scanned inner) code.slots masked.text (edit language options masked) :=
  (lightens_rules language options masked.text).trans (lightens_edit_of_rules h htext language options)

/-- What is edited and restored has no more bytes than the text. -/
theorem byteSize_unmask_edit_le (h : scan language options text = .ok scanned) :
    byteSize ((prepare language scanned).unmask (edit language options (prepare language scanned))) ≤
      byteSize text := by
  obtain ⟨inner, source, code, hlayout⟩ := exists_layout h
  have hmask := mask_of_scan h
  have htext : Unreserved text := MaskedText.unreserved_of_mask hmask
  exact hlayout.byteSize_unmask_le htext
    (MaskedText.byteSize_add_le_of_mask (shrinks_lexer language) hmask)
    (lightens_edit hlayout htext language options)

end Stages

/-- Whatever becomes of a text that is no JSON, it has no more bytes in the end. -/
theorem byteSize_minify_le {language : Language} (hjson : language ≠ .json) (content : String)
    (options : Options) :
    byteSize (minify content language options).minified.toList ≤ byteSize content.toList := by
  by_cases herrors : (minify content language options).errors = []
  · rcases Stages.minified_cases hjson herrors with ⟨-, hminified⟩ | ⟨scanned, hscan, hminified⟩
    · rw [hminified]
      exact Nat.zero_le _
    · rw [hminified]
      exact Stages.byteSize_unmask_edit_le hscan
  · rw [(minify_of_errors_ne_nil content language options herrors).2.2]

end Minifier
