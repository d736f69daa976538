import Minifier.Proofs.Minify.Errors
import Minifier.Proofs.Minify.HashComments
import Minifier.Proofs.Minify.Literals
import Minifier.Proofs.Pattern.Enclosed
import Minifier.Proofs.Rule.FirstLine

/-!
The line at the beginning of a file that names the program which runs it. It is found as a comment and goes back into
the text, where the rules see it like any other line. So it stays a line of its own as long as line breaks do; where
every line break becomes a space, all that is left of the file joins it.
-/

namespace Minifier.Generic

open Pattern Spacing Template Text

variable {language : Language} {options : Options} {style : CommentStyle} {line behind text : List Char}

/-! ### Rules -/

/-- Whether every line break becomes a space. -/
def SpacesBreaks (language : Language) (options : Options) : Prop :=
  language.lineRole = .freeForm ∧ options.removeWhitespace = true ∧ options.preserveLineBreaks = false

theorem keepsFirstLine_pipeline (hmarks : plainDelimiters language.commentStyle = false)
    (h : ¬ SpacesBreaks language options) : KeepsFirstLine (pipeline language options).run := by
  refine keepsFirstLine_run (.append (.append (.onlyIf fun hremove => ?_) (.onlyIf fun _ => ?_)) ?_)
  · have hwithin : Pipeline.Each (fun rule => KeepsFirstLine rule.apply)
        ([collapseHorizontal, trimLines] ++
          Pipeline.onlyIf (options.tightens && plainDelimiters language.commentStyle) [loosePunctuation]) := by
      rw [hmarks, Bool.and_false]
      exact .cons keepsFirstLine_collapseHorizontal (.cons keepsFirstLine_trimLines .nil)
    cases hrole : language.lineRole with
    | indentation => exact .cons keepsFirstLine_trailingSpace (.cons keepsFirstLine_innerSpaces .nil)
    | lines => exact hwithin
    | freeForm =>
      have hpreserve : options.preserveLineBreaks = true := by
        by_contra hnot
        exact h ⟨hrole, hremove, Bool.eq_false_iff.mpr hnot⟩
      rw [if_pos hpreserve]
      exact hwithin
  · exact .cons keepsFirstLine_emptyLines .nil
  · exact .cons keepsFirstLine_trimEnds .nil

/-- Without line breaks there is no empty line. -/
theorem run_pipeline_of_spacesBreaks (hmarks : plainDelimiters language.commentStyle = false)
    (h : SpacesBreaks language options) (text : List Char) :
    (pipeline language options).run text = trim (squeeze isBlank ' ' text) := by
  obtain ⟨hrole, hremove, hpreserve⟩ := h
  have hempty : emptyLines.apply (squeeze isBlank ' ' text) = squeeze isBlank ' ' text :=
    @emptyLines_apply _ [] ⟨by simp, not_mem_squeezeFrom (by decide) (by decide) false text⟩
  rw [pipeline, hrole, hremove, hpreserve, hmarks, Bool.and_false]
  cases options.removeEmptyLines with
  | false =>
    have hrun : Pipeline.run [collapseWhitespace, trimEnds] text = trimEnds.apply (collapseWhitespace.apply text) := rfl
    exact hrun.trans (by rw [trimEnds_apply, collapseWhitespace_apply])
  | true =>
    have hrun : Pipeline.run [collapseWhitespace, emptyLines, trimEnds] text =
        trimEnds.apply (emptyLines.apply (collapseWhitespace.apply text)) := rfl
    exact hrun.trans (by rw [trimEnds_apply, collapseWhitespace_apply, hempty])

/-- The first line of an edited text, and how what is left behind it goes on: not at all, with a line break, or with the
space that every line break becomes. -/
structure FirstLine (joined : Prop) (line text : List Char) (line' behind' : List Char) : Prop where
  text : text = line' ++ behind'
  fewer : FewerBlanks line line'
  inLine : '\n' ∉ line'
  ends : EndsLine behind' ∨ behind'.head? = some ' '
  space_iff : behind'.head? = some ' ' ↔ joined

theorem exists_firstLine_run (hmarks : plainDelimiters language.commentStyle = false) {c : Char}
    (hc : isBlank c = false) (hline : '\n' ∉ c :: line) (hbehind : EndsLine behind) :
    ∃ line' behind', FirstLine (SpacesBreaks language options ∧ ∃ d ∈ behind, isBlank d = false) (c :: line)
      ((pipeline language options).run (c :: line ++ behind)) line' behind' := by
  by_cases hspaces : SpacesBreaks language options
  · obtain ⟨line', behind', htext, hfewer, hline', hcases⟩ := @exists_trim_squeeze _ line _ hc hbehind
    refine ⟨line', behind', (run_pipeline_of_spacesBreaks hmarks hspaces _).trans htext, hfewer, hline', ?_, ?_⟩
    · exact hcases.imp (fun h => Or.inl h.2) (fun h => h.2)
    · rcases hcases with ⟨hblank, rfl⟩ | ⟨hsome, hhead⟩
      · refine iff_of_false (by simp) ?_
        rintro ⟨-, d, hd, hnot⟩
        rw [hblank d hd] at hnot
        cases hnot
      · exact iff_of_true hhead ⟨hspaces, hsome⟩
  · obtain ⟨line', behind', htext, hfewer, hline', hends⟩ :=
      keepsFirstLine_pipeline hmarks hspaces c line _ hc ⟨c :: line, behind, rfl, .refl _, hline, hbehind⟩
    refine ⟨line', behind', htext, hfewer, hline', Or.inl hends, iff_of_false ?_ fun h => hspaces h.1⟩
    rcases hends with rfl | hhead
    · simp
    · simp [hhead]

/-- A first word stays where it is. -/
theorem exists_run_append (hmarks : plainDelimiters language.commentStyle = false) {word : List Char} (hne : word ≠ [])
    (hword : ∀ c ∈ word, isBlank c = false) (rest : List Char) :
    ∃ rest', (pipeline language options).run (word ++ rest) = word ++ rest' ∧ (rest = [] → EndsLine rest') := by
  obtain ⟨c, word, rfl⟩ := List.exists_cons_of_ne_nil hne
  have hbreak : ∀ text : List Char, '\n' ∉ text.takeWhile Class.inLine := fun text hmem =>
    absurd (List.mem_takeWhile_imp hmem) (by decide)
  have hline : '\n' ∉ c :: (word ++ rest.takeWhile Class.inLine) := by
    rw [← List.cons_append, List.mem_append, not_or]
    exact ⟨fun hmem => absurd (hword _ hmem) (by decide), hbreak rest⟩
  have hbehind : EndsLine (rest.dropWhile Class.inLine) := by
    rcases dropWhile_inLine rest with h | ⟨more, h⟩
    · exact Or.inl h
    · exact Or.inr (by rw [h]; rfl)
  have hc := hword c List.mem_cons_self
  obtain ⟨line', behind', h⟩ := @exists_firstLine_run language options _ _ hmarks c hc hline hbehind
  have htext := h.text
  rw [← List.cons_append, List.append_assoc, List.takeWhile_append_dropWhile] at htext
  obtain ⟨more, rfl, hmore⟩ := FewerBlanks.exists_of_append hword h.fewer
  refine ⟨more ++ behind', htext.trans (List.append_assoc _ _ _), ?_⟩
  rintro rfl
  obtain rfl := List.eq_nil_of_length_eq_zero (Nat.le_zero.mp hmore.length_le)
  exact h.ends.resolve_right fun hspace => by simpa using h.space_iff.mp hspace

/-! ### The comment -/

/-- The styles in which a hash sign opens comments and nothing else does, unless in angle brackets. -/
def IsHashStyle (style : CommentStyle) : Prop := style = .hash ∨ style = .powerShell

theorem IsHashStyle.opensAtHash (h : IsHashStyle style) : opensAtHash style = true := by
  rcases h with rfl | rfl <;> rfl

theorem IsHashStyle.plainDelimiters (h : IsHashStyle style) : plainDelimiters style = false := by
  rcases h with rfl | rfl <;> rfl

/-- A comment at the beginning of a text takes its first line, with the line break and the indentation behind that. -/
theorem exists_of_matchAt_hashComment {more : List Char} {found : Match} (hmore : '\n' ∉ more)
    (hbehind : EndsLine behind)
    (hfound : (label .comment hashComment).matchAt 0 none ('#' :: (more ++ behind)) = some found) :
    ∃ tail rest, found.text = '#' :: (more ++ tail) ∧ behind = tail ++ rest ∧ IsBreak tail rest := by
  obtain ⟨reached, hwalk, rfl⟩ := Option.map_eq_some_iff.mp hfound
  obtain ⟨begun, line, _, tail, last, hbegun, htakes, hrest, hindex, hlast, hbreak⟩ :=
    exists_of_walk_restOfLine (fun _ => rfl) hwalk
  obtain rfl := Option.some.inj hlast
  obtain rfl : begun = ['#'] := by
    obtain ⟨before, _, _, _, hbefore, hhash, rfl, -⟩ := htakes
    obtain ⟨rfl, -⟩ := (takes_char '#').mp hhash
    rcases (takes_beforeHash.mp hbefore).1 with ⟨rfl, -⟩ | ⟨c, rfl, hc⟩
    · rfl
    · obtain ⟨rfl, -⟩ := List.cons.inj hbegun
      cases hc
  obtain rfl : more ++ behind = line := (List.cons.inj hbegun).2
  have hall : more.takeWhile Class.inLine = more := List.takeWhile_eq_self_iff.mpr fun c hc => by
    rw [Class.inLine, bne_iff_ne]
    rintro rfl
    exact hmore hc
  rw [hbehind.takeWhile (by decide), hall] at hrest hindex
  rw [List.append_assoc] at hrest
  obtain rfl := List.append_cancel_left hrest
  refine ⟨tail, last.rest, ?_, rfl, hbreak⟩
  have hlength : last.index = ('#' :: (more ++ tail)).length := hindex.trans (Nat.zero_add _)
  have htake : ('#' :: (more ++ (tail ++ last.rest))).take last.index = '#' :: (more ++ tail) := by
    rw [← List.append_assoc]
    exact List.take_left' hlength.symm
  exact htake

theorem exists_matchAt_firstLine (hstyle : IsHashStyle style) {more : List Char} (hmore : '\n' ∉ more)
    (hbehind : EndsLine behind) : ∃ found span tail rest,
      (lexer style).pattern.matchAt 0 none ('#' :: (more ++ behind)) = some found ∧
      found.label? .comment = some span ∧ span.start = 0 ∧ span.text = found.text ∧
      found.text = '#' :: (more ++ tail) ∧ behind = tail ++ rest ∧ IsBreak tail rest := by
  have hcomment : ((label .comment hashComment).matchAt 0 none ('#' :: (more ++ behind))).isSome = true := by
    obtain ⟨taken, rest, hsplit, htakes⟩ :=
      @exists_takes_hashComment none [] (Or.inl ⟨rfl, Or.inl rfl⟩) (more ++ behind)
    exact matchAt_isSome_iff.mpr ⟨taken, rest, _, hsplit, [], htakes, rfl⟩
  obtain ⟨found, hfound⟩ := Option.isSome_iff_exists.mp hcomment
  obtain ⟨span, -, -, hspan, hstart, hspanText, -⟩ := Match.exists_label hfound
  obtain ⟨tail, rest, htext, hsplit, hbreak⟩ := exists_of_matchAt_hashComment hmore hbehind hfound
  refine ⟨found, span, tail, rest, ?_, hspan, hstart, hspanText, htext, hsplit, hbreak⟩
  rcases hstyle with rfl | rfl
  · have hpattern : (lexer .hash).pattern = alt (label .comment hashComment) literals := rfl
    rw [hpattern, matchAt_alt, hfound, Option.some_or]
  · have hpattern : (lexer .powerShell).pattern =
        alt (label .comment (alt Lexer.angleHashComment hashComment)) literals := rfl
    have hangle : (label .comment Lexer.angleHashComment).matchAt 0 none ('#' :: (more ++ behind)) = none :=
      OpensWith.matchAt_eq_none (.label (.append (.append (opensWith_word "<#") _) _) .comment) (by simp) 0 none
    rw [hpattern, matchAt_alt, matchAt_label_alt, hangle, Option.none_or, hfound, Option.some_or]

/-! ### The masked text -/

theorem endsLine_of_isBreak {tail rest : List Char} (h : IsBreak tail rest) :
    EndsLine tail ∧ (tail = [] → rest = []) := by
  rcases h with ⟨rfl, hrest⟩ | ⟨indentation, rfl, -⟩
  · exact ⟨Or.inl rfl, fun _ => hrest⟩
  · exact ⟨Or.inr rfl, fun hnil => absurd hnil (List.cons_ne_nil _ _)⟩

/-- Numbering literals on leaves those that there are. -/
theorem literalAt_replaceFrom (lexer : Lexer) (stripComments : Bool) (segments : List Segment) (first : List Char) :
    literalAt (replaceFrom (MaskedText.replaceMatch lexer stripComments) segments #[first]).2 0 = first := by
  obtain ⟨more, hmore⟩ := MaskedText.literals_prefix_replaceFrom lexer stripComments segments #[first]
  rw [literalAt, ← Array.getElem?_toList, ← hmore]
  rfl

/-- A comment at the very beginning that names the program of a text stays if comments go, and is set aside if they
stay. -/
theorem replaceMatch_shebang {found : Match} {span : Span}
    (hspan : found.label? .comment = some span) (hstart : span.start = 0) (hspanText : span.text = found.text)
    (hnamed : ['#', '!'] <+: found.text) :
    MaskedText.replaceMatch (lexer style) true #[] found = (found.text, #[]) ∧
      MaskedText.replaceMatch (lexer style) false #[] found = (Placeholder.render 0, #[found.text]) := by
  have hleft : (lexer style).strip span.text span.start = some found.text := by
    rw [← hspanText]
    exact if_pos ⟨hstart, List.isPrefixOf_iff_prefix.mpr (hspanText ▸ hnamed)⟩
  constructor
  · simp only [MaskedText.replaceMatch, hspan, if_true, hleft]
  · simp only [MaskedText.replaceMatch, hspan]
    rfl

/-- Where no text is left, no segments are. -/
theorem segments_eq_nil (hstyle : IsHashStyle style) {index : Nat} {prev : Option Char} {segments : List Segment}
    (h : (lexer style).pattern.Segmented index prev [] segments) : segments = [] := by
  have hover := h.flatMap_text
  cases segments with
  | nil => rfl
  | cons segment segments =>
    exact absurd (List.append_eq_nil_iff.mp hover).1 (h.text_ne_nil (exceeds_lexer hstyle.opensAtHash))

/-- What is left of a text with such a line: the line goes back into it, or it is the first literal. -/
theorem exists_mask_shebang (hstyle : IsHashStyle style) (stripComments : Bool) (hnamed : ['#', '!'] <+: line)
    (hline : '\n' ∉ line) (hbehind : EndsLine behind) (hclear : Unreserved (line ++ behind)) :
    ∃ masked tail left, MaskedText.mask (lexer style) stripComments (line ++ behind) = .ok masked ∧ EndsLine tail ∧
      (tail = [] → left = []) ∧ (stripComments = true → masked.text = line ++ (tail ++ left)) ∧
      (stripComments = false → masked.text = Placeholder.render 0 ++ left ∧
        literalAt masked.literals 0 = line ++ tail) := by
  obtain ⟨more, rfl⟩ := hnamed
  obtain ⟨found, span, tail, rest, hfound, hspan, hstart, hspanText, htext, rfl, hbreak⟩ :=
    @exists_matchAt_firstLine _ _ hstyle ('!' :: more) (not_or.mp (mt List.mem_cons.mpr hline)).2 hbehind
  have htext : found.text = ['#', '!'] ++ more ++ tail := htext
  have hreserved : ¬ MaskedText.reserved (['#', '!'] ++ more ++ (tail ++ rest)) = true :=
    mt MaskedText.reserved_iff.mp (not_or.mpr hclear)
  have hsegmented := segments_segmented (lexer style).pattern (['#', '!'] ++ more ++ (tail ++ rest))
  obtain ⟨hends, hrest⟩ := endsLine_of_isBreak hbreak
  generalize hsegments : (lexer style).pattern.segments (['#', '!'] ++ more ++ (tail ++ rest)) = segments at hsegmented
  rw [MaskedText.mask, if_neg hreserved, hsegments, MaskedText.replaceSegments_eq]
  cases hsegmented with
  | plain hnone _ =>
    rw [hnone found hfound] at htext
    cases htext
  | @hit _ _ _ rest' found' todo hfound' hsplit htodo =>
    obtain rfl := Option.some.inj (hfound.symm.trans hfound')
    obtain rfl : rest = rest' := by
      rw [htext, ← List.append_assoc] at hsplit
      exact List.append_cancel_left hsplit
    have hnil : tail = [] → todo = [] := fun htail => segments_eq_nil hstyle (hrest htail ▸ htodo)
    obtain ⟨hstripped, hkept⟩ := @replaceMatch_shebang style _ _ hspan hstart hspanText (by rw [htext]; simp)
    cases stripComments with
    | true =>
      refine ⟨_, tail, (replaceFrom (MaskedText.replaceMatch (lexer style) true) todo #[]).1, rfl, hends,
        fun htail => by rw [hnil htail]; rfl, fun _ => ?_, by simp⟩
      rw [replaceFrom, hstripped, htext, ← List.append_assoc]
    | false =>
      refine ⟨_, tail, (replaceFrom (MaskedText.replaceMatch (lexer style) false) todo #[found.text]).1, rfl, hends,
        fun htail => by rw [hnil htail]; rfl, by simp, fun _ => ?_⟩
      rw [replaceFrom, hkept]
      exact ⟨rfl, (literalAt_replaceFrom _ _ todo found.text).trans htext⟩

/-! ### Restoring -/

/-- What stands behind code that looks like no placeholder, once the placeholders are filled in. -/
theorem exists_fill_eq {template : Template} {value : Nat → List Char} (h : template.render = line ++ behind)
    (hline : Unreserved line) : ∃ behind', template.fill value = line ++ behind' ∧ (behind = [] → behind' = []) ∧
      ∀ c, Unreserved [c] → behind.head? = some c → behind'.head? = some c := by
  obtain ⟨last, rfl, hlast⟩ := exists_of_render_eq h hline
  refine ⟨last.fill value, by simp, fun hnil => ?_, fun c hc hhead => ?_⟩
  · rw [eq_nil_of_render (hlast.trans hnil)]
    rfl
  · obtain ⟨more, rfl⟩ := List.head?_eq_some_iff.mp hhead
    obtain ⟨more', rfl, -⟩ := @exists_of_render_eq _ [c] _ hlast hc
    rfl

/-! ### Minified contents -/

/-- Whether something else than blanks is left behind the first line of a text when its comments have gone. -/
def LeavesMore (language : Language) (line text : List Char) : Prop :=
  ∃ masked left, MaskedText.mask (lexer language.commentStyle) true text = .ok masked ∧
    masked.text = line ++ left ∧ ∃ c ∈ left, isBlank c = false

/-- Whether what is left of a content joins its first line: in Perl, where comments go and line breaks become spaces. -/
def JoinsFirstLine (language : Language) (options : Options) (line text : List Char) : Prop :=
  language = .perl ∧ options.removeComments = true ∧ options.removeWhitespace = true ∧
    options.preserveLineBreaks = false ∧ LeavesMore language line text

/-- Of the languages with hash comments, Perl alone is one in which a line break is a blank like any other. -/
theorem IsHashStyle.freeForm_iff (h : IsHashStyle language.commentStyle) :
    language.lineRole = .freeForm ↔ language = .perl := by
  cases language <;> simp [IsHashStyle, Language.commentStyle, Language.lineRole] at h ⊢

theorem not_head?_space (hbehind : EndsLine behind) : behind.head? ≠ some ' ' := by
  rcases hbehind with rfl | hhead
  · simp
  · simp [hhead]

/-- The first line of a text whose comments have gone. -/
theorem exists_firstLine_of_stripped (hstyle : IsHashStyle language.commentStyle)
    (hremove : options.removeComments = true) (hnamed : ['#', '!'] <+: line) (hline : '\n' ∉ line)
    (hclear : Unreserved line) {masked : MaskedText} {left : List Char}
    (hmask : MaskedText.mask (lexer language.commentStyle) true text = .ok masked)
    (hmasked : masked.text = line ++ left) (hleft : EndsLine left) :
    ∃ line' behind', FirstLine (JoinsFirstLine language options line text) line
      (masked.unmask ((pipeline language options).run masked.text)) line' behind' := by
  obtain ⟨more, rfl⟩ := hnamed
  obtain ⟨line', between, h⟩ :=
    @exists_firstLine_run language options _ _ hstyle.plainDelimiters '#' (by decide) hline hleft
  have hmask' : MaskedText.mask (lexer language.commentStyle) options.removeComments text = .ok masked := by
    rw [hremove, hmask]
  obtain ⟨result, -, hrender, -, hunmask⟩ := @exists_unmask_run language options _ _ _ hmask'
  rw [hmasked] at hrender hunmask ⊢
  have hclear' : Unreserved line' :=
    ⟨mt (h.fewer.mem_iff (by decide)).mp hclear.1, mt (h.fewer.mem_iff (by decide)).mp hclear.2⟩
  obtain ⟨behind', hfill, hnil, hhead⟩ :=
    @exists_fill_eq _ _ _ (literalAt masked.literals) (hrender.trans h.text) hclear'
  have hjoins : JoinsFirstLine language options (['#', '!'] ++ more) text ↔
      SpacesBreaks language options ∧ ∃ d ∈ left, isBlank d = false := by
    constructor
    · rintro ⟨hperl, -, hblanks, hbreaks, other, left', hother, htext, hsome⟩
      obtain rfl := Except.ok.inj (hmask.symm.trans hother)
      obtain rfl := List.append_cancel_left (hmasked.symm.trans htext)
      exact ⟨⟨hstyle.freeForm_iff.mpr hperl, hblanks, hbreaks⟩, hsome⟩
    · rintro ⟨⟨hrole, hblanks, hbreaks⟩, hsome⟩
      exact ⟨hstyle.freeForm_iff.mp hrole, hremove, hblanks, hbreaks, masked, left, hmask, hmasked, hsome⟩
  refine ⟨line', behind', hunmask.trans hfill, h.fewer, h.inLine, ?_, ?_⟩
  · rcases h.ends with (rfl | hbreak) | hspace
    · exact Or.inl (Or.inl (hnil rfl))
    · exact Or.inl (Or.inr (hhead '\n' (by decide) hbreak))
    · exact Or.inr (hhead ' ' (by decide) hspace)
  · rw [hjoins, ← h.space_iff]
    refine ⟨fun hspace => ?_, hhead ' ' (by decide)⟩
    rcases h.ends with (rfl | hbreak) | hspace'
    · rw [hnil rfl] at hspace
      cases hspace
    · rw [hhead '\n' (by decide) hbreak] at hspace
      cases hspace
    · exact hspace'

/-- Where comments stay, the first line comes back as the first literal. -/
theorem exists_unmask_of_kept (hstyle : IsHashStyle language.commentStyle) {masked : MaskedText} {left tail : List Char}
    (hmask : MaskedText.mask (lexer language.commentStyle) options.removeComments text = .ok masked)
    (hmasked : masked.text = Placeholder.render 0 ++ left) (hliteral : literalAt masked.literals 0 = line ++ tail)
    (htail : EndsLine tail) (hleft : tail = [] → left = []) :
    ∃ behind', masked.unmask ((pipeline language options).run masked.text) = line ++ behind' ∧ EndsLine behind' := by
  have hword : ∀ c ∈ Placeholder.render 0, isBlank c = false := by
    simpa only [Bool.not_eq_true] using List.any_eq_false.mp (rfl : (Placeholder.render 0).any isBlank = false)
  obtain ⟨rest, hrun, hends⟩ := @exists_run_append language options hstyle.plainDelimiters (Placeholder.render 0)
    (List.cons_ne_nil _ _) hword left
  obtain ⟨result, hclean, hrender, hslots, hunmask⟩ := @exists_unmask_run language options _ _ _ hmask
  rw [hmasked] at hrender hunmask ⊢
  rw [hrun] at hrender
  obtain ⟨last, rfl, hlast⟩ : ∃ last : Template, result = .slot 0 :: last ∧ last.render = rest := by
    cases result with
    | nil => cases hrender
    | cons token last =>
      cases token with
      | code c =>
        obtain ⟨rfl, -⟩ := List.cons.inj hrender
        exact absurd List.mem_cons_self hclean.1
      | slot index =>
        have hfirst := congrArg List.head? hslots
        rw [slots_cons_slot, List.head?_cons, List.head?_range] at hfirst
        split at hfirst
        · cases hfirst
        · obtain rfl := Option.some.inj hfirst
          exact ⟨last, rfl, List.append_cancel_left hrender⟩
  refine ⟨tail ++ last.fill (literalAt masked.literals), ?_, ?_⟩
  · rw [hunmask, fill_cons_slot, hliteral, List.append_assoc]
  · rcases htail with rfl | hbreak
    · obtain ⟨behind', hfill, hnil, hhead⟩ :=
        @exists_fill_eq [] _ _ (literalAt masked.literals) hlast unreserved_nil
      rw [hfill]
      exact (hends (hleft rfl)).imp hnil (hhead '\n' (by decide))
    · obtain ⟨more, rfl⟩ := List.head?_eq_some_iff.mp hbreak
      exact Or.inr rfl

/-- In a language with hash comments, the output of a content that begins with a hash sign and an exclamation mark
begins with its first line, in which blanks may have become fewer. That line stays alone, with a line break or nothing
behind it, unless the content is Perl, comments go and every line break becomes a space: then all that is left of the
content joins it. -/
theorem exists_minify_shebang (content : String) (hstyle : IsHashStyle language.commentStyle)
    (hcontent : content.toList = line ++ behind) (hnamed : ['#', '!'] <+: line) (hline : '\n' ∉ line)
    (hbehind : EndsLine behind) (options : Options) :
    ∃ line' behind', FirstLine (JoinsFirstLine language options line content.toList) line
      (minifyGeneric content language options).minified.toList line' behind' := by
  by_cases hclear : Unreserved content.toList
  · have hne : content ≠ "" := by
      rintro rfl
      obtain ⟨more, rfl⟩ := hnamed
      cases hcontent
    rw [hcontent] at hclear ⊢
    obtain ⟨masked, tail, left, hmask, htail, hnil, hstripped, hkept⟩ :=
      exists_mask_shebang hstyle options.removeComments hnamed hline hbehind hclear
    have hminified := minifyGeneric_of_mask hne (by rw [hcontent, hmask])
    have htext : (minifyGeneric content language options).minified.toList =
        masked.unmask ((pipeline language options).run masked.text) := by
      rw [hminified]
      exact String.toList_ofList
    rw [htext]
    cases hremove : options.removeComments with
    | true =>
      rw [hremove] at hmask
      have hleft : EndsLine (tail ++ left) := by
        rcases htail with rfl | hbreak
        · rw [hnil rfl]
          exact Or.inl rfl
        · obtain ⟨more, rfl⟩ := List.head?_eq_some_iff.mp hbreak
          exact Or.inr rfl
      exact exists_firstLine_of_stripped hstyle hremove hnamed hline (unreserved_append.mp hclear).1 hmask
        (hstripped hremove) hleft
    | false =>
      obtain ⟨hmasked, hliteral⟩ := hkept hremove
      obtain ⟨behind', hunmask, hends⟩ := exists_unmask_of_kept hstyle hmask hmasked hliteral htail hnil
      refine ⟨line, behind', hunmask, .refl _, hline, Or.inl hends, iff_of_false (not_head?_space hends) fun h => ?_⟩
      rw [h.2.1] at hremove
      cases hremove
  · have hreserved : Placeholder.opening ∈ content.toList ∨ Placeholder.closing ∈ content.toList := by
      by_contra hnot
      exact hclear (not_or.mp hnot)
    rw [minifyGeneric_of_mask_error (MaskedText.mask_eq_error _ _ hreserved)]
    refine ⟨line, behind, hcontent, .refl _, hline, Or.inl hbehind, iff_of_false (not_head?_space hbehind) fun h => ?_⟩
    obtain ⟨-, -, -, -, masked, _, hmask, -⟩ := h
    rw [MaskedText.mask_eq_error _ _ hreserved] at hmask
    cases hmask

/-- A shell script with two spaces in its first line. -/
def shellScript : String := "#!/bin/sh  -e\n# greet\necho hi\n"

theorem exists_minify_shebang_shellScript :
    IsHashStyle Language.shell.commentStyle ∧
      shellScript.toList = "#!/bin/sh  -e".toList ++ "\n# greet\necho hi\n".toList ∧
      ['#', '!'] <+: "#!/bin/sh  -e".toList ∧ '\n' ∉ "#!/bin/sh  -e".toList ∧
      EndsLine "\n# greet\necho hi\n".toList ∧
      (minifyGeneric shellScript .shell {}).minified = "#!/bin/sh -e\necho hi" ∧
      ∃ line' behind', FirstLine (JoinsFirstLine .shell {} "#!/bin/sh  -e".toList shellScript.toList)
        "#!/bin/sh  -e".toList (minifyGeneric shellScript .shell {}).minified.toList line' behind' := by
  have hcontent : shellScript.toList = "#!/bin/sh  -e".toList ++ "\n# greet\necho hi\n".toList := by decide +kernel
  have hnamed : ['#', '!'] <+: "#!/bin/sh  -e".toList := ⟨"/bin/sh  -e".toList, rfl⟩
  have hline : '\n' ∉ "#!/bin/sh  -e".toList := by decide
  have hbehind : EndsLine "\n# greet\necho hi\n".toList := Or.inr rfl
  exact ⟨Or.inl rfl, hcontent, hnamed, hline, hbehind, by decide +kernel,
    exists_minify_shebang shellScript (Or.inl rfl) hcontent hnamed hline hbehind {}⟩

/-- A script of one statement. -/
def perlScript : String := "#!/usr/bin/perl\nprint 1;\n"

/-- The statement joins the first line, which is a comment to Perl. -/
theorem minifyGeneric_perlScript :
    minifyGeneric perlScript .perl {} = .ofTexts perlScript "#!/usr/bin/perl print 1;" [] := by
  decide +kernel

end Minifier.Generic
