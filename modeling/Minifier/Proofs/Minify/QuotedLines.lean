import Minifier.Proofs.Minify.Literals
import Minifier.Proofs.Minify.StyledSources

/-!
Quoted text in SQL, in PHP and in the languages with hash comments. Whatever stands behind a source, the quoted text in
it is set aside and stands in the minified text as it was.

The lexer finds text between two quotes only within a line. A quote that is closed on a later line opens nothing to it,
so the rules see the quote and what stands behind it as code.
-/

namespace Minifier.Generic

open Pattern
open Script (Piece Source)

variable {style : CommentStyle} {language : Language} {options : Options} {line body rest behind literal : List Char}
  {quote : Char} {front : Source}

/-- Text between two quotes in front of another text. A backslash escapes the next character, and there may be line
breaks. -/
structure InQuotes (quote : Char) (body rest : List Char) : Prop where
  mark : quote = '"' ∨ quote = '\''
  units : EscapedUnits (Class.except [quote, '\\']) Class.any body
  no_triple : ¬ StartsTriple quote (quote :: (body ++ quote :: rest))

/-- Whether it stands on one line, but for line breaks that a backslash escapes. -/
def WithinLine (quote : Char) (body : List Char) : Prop :=
  EscapedUnits (Class.except [quote, '\\', '\n']) Class.any body

/-- Without a backslash any line break tells. -/
theorem InQuotes.withinLine_iff (h : InQuotes quote body rest) (hslash : '\\' ∉ body) :
    WithinLine quote body ↔ '\n' ∉ body := by
  constructor
  · intro hwithin hbreak
    have hplain := List.all_eq_true.mp (EscapedUnits.all_of_not_mem hwithin hslash) _ hbreak
    simp [Class.except] at hplain
  · intro hbreak
    have hall := List.all_eq_true.mp (EscapedUnits.all_of_not_mem h.units hslash)
    refine .of_all (List.all_eq_true.mpr fun c hc => Script.except_iff.mpr fun hmem => ?_)
    have hsplit : c ∈ [quote, '\\'] ++ ['\n'] := hmem
    rcases List.mem_append.mp hsplit with hmem | hmem
    · exact Script.except_iff.mp (hall c hc) hmem
    · exact hbreak (List.mem_singleton.mp hmem ▸ hc)

/-- Whether the lexer of a style finds a literal between two texts. -/
def FindsLiteral (style : CommentStyle) (text before literal behind : List Char) : Prop :=
  ∃ done found todo, (lexer style).pattern.segments text = done ++ .hit found :: todo ∧
    found.label? .comment = none ∧ done.flatMap Segment.text = before ∧ found.text = literal ∧
    todo.flatMap Segment.text = behind

/-- The languages in which a string may go on for several lines have such a style. -/
theorem isDescribed_of_mem (h : language ∈ [.sql, .php, .perl, .ruby, .shell]) : IsDescribed language.commentStyle := by
  simp only [List.mem_cons, List.not_mem_nil, or_false] at h
  rcases h with rfl | rfl | rfl | rfl | rfl
  · exact Or.inr (Or.inr rfl)
  · exact Or.inr (Or.inl rfl)
  · exact Or.inl rfl
  · exact Or.inl rfl
  · exact Or.inl rfl

/-! ### Behind a source -/

theorem InQuotes.opensNone (h : InQuotes quote body rest) (prev : Option Char) :
    OpensNone style prev (quote :: (body ++ quote :: rest)) := by
  rcases h.mark with rfl | rfl <;> exact .of_head (by decide) nofun

/-- Text in quotes that goes on behind the end of its line is not found. -/
theorem InQuotes.matchAt_eq_none (hstyle : IsDescribed style) (h : InQuotes quote body rest)
    (hacross : ¬ WithinLine quote body) (index : Nat) (prev : Option Char) :
    (lexer style).pattern.matchAt index prev (quote :: (body ++ quote :: rest)) = none := by
  rw [matchAt_lexer hstyle, matchAt_comments_eq_none hstyle (h.opensNone prev),
    literals_matchAt_eq_none_of_break h.mark h.units hacross h.no_triple, Option.none_or]

/-- Any other is. -/
theorem InQuotes.exists_matchAt (hstyle : IsDescribed style) (h : InQuotes quote body rest)
    (hwithin : WithinLine quote body) (index : Nat) (prev : Option Char) :
    ∃ found, (lexer style).pattern.matchAt index prev (quote :: (body ++ [quote]) ++ rest) = some found ∧
      found.text = quote :: (body ++ [quote]) ∧ found.label? .comment = none := by
  have htext : quote :: (body ++ [quote]) ++ rest = quote :: (body ++ quote :: rest) := by simp
  obtain ⟨found, hfound, hfoundText⟩ := exists_line_matchAt h.mark hwithin (htext ▸ h.no_triple) index prev
  refine ⟨found, ?_, hfoundText, Match.label?_eq_none (by decide) hfound⟩
  rw [matchAt_lexer hstyle, htext, matchAt_comments_eq_none hstyle (h.opensNone prev), ← htext, hfound, Option.none_or]

/-- Behind a source text in quotes is found exactly if it stands on one line. -/
theorem findsLiteral_iff (hstyle : IsDescribed style)
    (hline : ProgramLine style line (front.text ++ quote :: (body ++ quote :: rest)))
    (hfront : SourceOf style line.getLast? front (quote :: (body ++ quote :: rest))) (h : InQuotes quote body rest) :
    FindsLiteral style (line ++ (front.text ++ quote :: (body ++ quote :: rest))) (line ++ front.text)
      (quote :: (body ++ [quote])) rest ↔ WithinLine quote body := by
  obtain ⟨done, index, todo, hsegments, hdone, htodo, -⟩ := exists_segments_of_source hstyle hline hfront
  have hexceeds := exceeds_of_isDescribed hstyle
  constructor
  · rintro ⟨done', found, todo', hsegments', -, hdone', hfound, -⟩
    by_contra hacross
    obtain ⟨more, rfl, -⟩ := htodo.exists_todo_of_eq_none hexceeds (h.matchAt_eq_none hstyle hacross _ _)
    -- The quote would be both a character of its own and the first one of the literal.
    have hplain : (Segment.plain quote).text = [quote] := rfl
    have hhit : (Segment.hit found).text = quote :: (body ++ [quote]) := hfound
    have hreach := eq_or_length_le_of_segments (hsegments.symm.trans hsegments')
    rw [hdone, hdone', hplain, hhit] at hreach
    simp only [List.length_append, List.length_cons, List.length_nil] at hreach
    rcases hreach with ⟨-, hsame⟩ | hover | hover
    · cases hsame
    · omega
    · omega
  · intro hwithin
    obtain ⟨found, hfound, hfoundText, hlabel⟩ := h.exists_matchAt hstyle hwithin index (line ++ front.text).getLast?
    have htext : quote :: (body ++ quote :: rest) = quote :: (body ++ [quote]) ++ rest := by simp
    rw [htext] at htodo
    obtain ⟨more, rfl, hmore⟩ := htodo.exists_todo_of_matchAt hexceeds hfound hfoundText
    exact ⟨done, found, more, hsegments, hlabel, hdone, hfoundText, hmore⟩

/-- What is set aside of a source comes first, and the source with placeholders stands before what is left of the text
behind it. -/
theorem exists_mask_source (hstyle : IsDescribed style) (hline : ProgramLine style line (front.text ++ behind))
    (hfront : SourceOf style line.getLast? front behind) (hclear : Unreserved (line ++ (front.text ++ behind)))
    (stripComments : Bool) :
    ∃ left more, MaskedText.mask (lexer style) stripComments (line ++ (front.text ++ behind)) =
        .ok ⟨((withLine stripComments line front).template stripComments 0).render ++ left,
          ((withLine stripComments line front).kept stripComments ++ more).toArray⟩ ∧
      (behind = [] → left = [] ∧ more = []) ∧
      ∀ quote body rest, behind = quote :: (body ++ quote :: rest) → InQuotes quote body rest →
        ¬ WithinLine quote body → left.head? = some quote := by
  obtain ⟨done, index, todo, hsegments, -, htodo, hreplace⟩ := exists_segments_of_source hstyle hline hfront
  have hreserved := mt MaskedText.reserved_iff.mp (not_or.mpr hclear)
  let kept := ((withLine stripComments line front).kept stripComments).toArray
  let behindSource := replaceFrom (MaskedText.replaceMatch (plainLexer style) stripComments) todo kept
  obtain ⟨more, hmore⟩ := MaskedText.literals_prefix_replaceFrom (plainLexer style) stripComments todo kept
  refine ⟨behindSource.1, more, ?_, ?_, ?_⟩
  · have hliterals : ((withLine stripComments line front).kept stripComments ++ more).toArray = behindSource.2 :=
      Array.toList_inj.mp hmore
    rw [MaskedText.mask, if_neg hreserved, MaskedText.replaceSegments_eq, hsegments, hreplace, hliterals]
  · rintro rfl
    obtain rfl : todo = [] := htodo.unique (exceeds_of_isDescribed hstyle) .done
    exact ⟨rfl, by simpa [replaceFrom] using hmore⟩
  · rintro quote body rest rfl h hacross
    obtain ⟨todo, rfl, -⟩ :=
      htodo.exists_todo_of_eq_none (exceeds_of_isDescribed hstyle) (h.matchAt_eq_none hstyle hacross _ _)
    rfl

theorem mem_kept_withLine {lead : List Char} {stripComments : Bool} (h : .literal lead literal ∈ front) :
    literal ∈ (withLine stripComments line front).kept stripComments := by
  have hfront : literal ∈ front.kept stripComments := List.mem_flatMap.mpr ⟨_, h, List.mem_singleton_self _⟩
  rw [withLine]
  split
  · exact hfront
  · exact List.mem_append_right _ hfront

/-! ### Minified texts -/

/-- What is set aside of a source stands in the minified text, also if the text comes back for a character that marks
placeholders. -/
theorem infix_minified_of_mem (hstyle : IsDescribed language.commentStyle)
    (hline : ProgramLine language.commentStyle line (front.text ++ behind))
    (hfront : SourceOf language.commentStyle line.getLast? front behind) {lead : List Char}
    (h : .literal lead literal ∈ front) :
    literal <:+: (minifyGeneric (String.ofList (line ++ (front.text ++ behind))) language options).minified.toList := by
  by_cases hclear : Unreserved (line ++ (front.text ++ behind))
  · obtain ⟨left, more, hmask, -⟩ := exists_mask_source hstyle hline hfront hclear options.removeComments
    rw [← String.toList_ofList (l := line ++ (front.text ++ behind))] at hmask
    obtain ⟨-, result, -, hslots, hminified⟩ := exists_minified_of_mask hmask
    obtain ⟨index, hindex, hvalue⟩ := List.mem_iff_getElem.mp (@mem_kept_withLine line _ _ _ options.removeComments h)
    have hslot : index ∈ result.slots := by
      rw [hslots, List.mem_range]
      simp only [List.size_toArray, List.length_append]
      omega
    have hliteral : Template.literalAt
        ((withLine options.removeComments line front).kept options.removeComments ++ more).toArray index = literal := by
      simp [Template.literalAt, List.getElem?_append_left hindex, List.getElem?_eq_getElem hindex, hvalue]
    rw [hminified, ← hliteral]
    exact Template.infix_fill hslot
  · have hreserved := Or.imp not_not.mp not_not.mp (not_and_or.mp hclear)
    have hmask := MaskedText.mask_eq_error (lexer language.commentStyle) options.removeComments hreserved
    rw [← String.toList_ofList (l := line ++ (front.text ++ behind))] at hmask
    rw [minifyGeneric_of_mask_error hmask, String.toList_ofList]
    obtain ⟨before, after, rfl⟩ := List.append_of_mem h
    rw [Source.text_append, Source.text_cons, Piece.text]
    exact ⟨line ++ (Source.text before ++ lead), Source.text after ++ behind, by simp⟩

/-- The quoted text of a source stands in the minified text as it was, whatever comes behind. Without characters that
mark placeholders, no error is reported, and the minified text is what the rules make of the code, with everything that
is set aside filled in again in its order.

Behind a source, text in quotes is set aside as a whole exactly if it stands on one line: without a backslash in it, if
it holds no line break. Otherwise its first quote is code to the rules. -/
theorem quoted_text_cases (hstyle : IsDescribed language.commentStyle)
    (hline : ProgramLine language.commentStyle line (front.text ++ behind))
    (hfront : SourceOf language.commentStyle line.getLast? front behind) (options : Options) :
    (∀ lead literal, .literal lead literal ∈ front → literal <:+:
        (minifyGeneric (String.ofList (line ++ (front.text ++ behind))) language options).minified.toList) ∧
      (Unreserved (line ++ (front.text ++ behind)) →
        (minifyGeneric (String.ofList (line ++ (front.text ++ behind))) language options).errors = [] ∧
          ∃ (left : List Char) (more : List (List Char)) (result : Template),
            result.render = (pipeline language options).run
              (((withLine options.removeComments line front).template options.removeComments 0).render ++ left) ∧
            result.slots = List.range
              ((withLine options.removeComments line front).kept options.removeComments ++ more).length ∧
            (minifyGeneric (String.ofList (line ++ (front.text ++ behind))) language options).minified.toList =
              result.fill (fun index =>
                ((withLine options.removeComments line front).kept options.removeComments ++ more)[index]?.getD []) ∧
            (behind = [] → left = [] ∧ more = []) ∧
            ∀ quote body rest, behind = quote :: (body ++ quote :: rest) → InQuotes quote body rest →
              ¬ WithinLine quote body → left.head? = some quote) ∧
      ∀ quote body rest, behind = quote :: (body ++ quote :: rest) → InQuotes quote body rest →
        (FindsLiteral language.commentStyle (line ++ (front.text ++ behind)) (line ++ front.text)
            (quote :: (body ++ [quote])) rest ↔ WithinLine quote body) ∧
          ('\\' ∉ body → (WithinLine quote body ↔ '\n' ∉ body)) := by
  refine ⟨fun lead literal h => infix_minified_of_mem hstyle hline hfront h, fun hclear => ?_, ?_⟩
  · obtain ⟨left, more, hmask, hend, hacross⟩ := exists_mask_source hstyle hline hfront hclear options.removeComments
    rw [← String.toList_ofList (l := line ++ (front.text ++ behind))] at hmask
    obtain ⟨herrors, result, hrender, hslots, hminified⟩ := exists_minified_of_mask hmask
    refine ⟨herrors, left, more, result, hrender, by simpa using hslots, ?_, hend, hacross⟩
    exact hminified.trans (Template.fill_congr fun index _ => by simp [Template.literalAt])
  · rintro quote body rest rfl h
    exact ⟨findsLiteral_iff hstyle hline hfront h, h.withinLine_iff⟩

/-- A comment with an apostrophe and a string within its line, in front of a string that goes on for two lines. -/
def shellSource : Source :=
  [.code "x=1".toList, .comment " # don't\n".toList, .code "printf ".toList, .literal [] "'%s  '".toList,
    .code " ".toList]

/-- A string that goes on for two lines. -/
def shellString : List Char := "\"a  b\nc  d\"\n".toList

theorem quoted_text_cases_shellSource :
    ProgramLine .hash "#!/bin/sh\n".toList (shellSource.text ++ shellString) ∧
      SourceOf .hash (some '\n') shellSource shellString ∧
      InQuotes '"' "a  b\nc  d".toList ['\n'] ∧ ¬ WithinLine '"' "a  b\nc  d".toList ∧
      "'%s  '".toList <:+: (minifyGeneric
        (String.ofList ("#!/bin/sh\n".toList ++ (shellSource.text ++ shellString))) .shell {}).minified.toList ∧
      ¬ FindsLiteral .hash ("#!/bin/sh\n".toList ++ (shellSource.text ++ shellString))
        ("#!/bin/sh\n".toList ++ shellSource.text) "\"a  b\nc  d\"".toList ['\n'] := by
  have hline : ProgramLine .hash "#!/bin/sh\n".toList (shellSource.text ++ shellString) := by
    refine Or.inr ⟨⟨_, rfl⟩, ?_⟩
    exact @CommentOf.line _ _ "#".toList "!/bin/sh".toList ['\n'] _
      (@OpensLine.hash none [] _ (Or.inl ⟨rfl, Or.inl rfl⟩)) (by decide) (Or.inr ⟨[], rfl, rfl, rfl⟩)
  have hsource : SourceOf .hash (some '\n') shellSource shellString := by
    refine ⟨.of_all rfl nofun, ?_, .of_all rfl nofun, ⟨rfl, ?_⟩, .of_all rfl nofun, trivial⟩
    · exact @CommentOf.line _ _ " #".toList " don't".toList ['\n'] _
        (@OpensLine.hash _ [' '] _ (Or.inr ⟨' ', rfl, rfl⟩)) (by decide) (Or.inr ⟨[], rfl, rfl, rfl⟩)
    · exact @QuotedText.line '\'' "%s  ".toList _ (Or.inr rfl) (.of_all rfl) (by rintro ⟨_, _, h⟩; cases h)
  have hquotes : InQuotes '"' "a  b\nc  d".toList ['\n'] :=
    ⟨Or.inl rfl, .of_all rfl, by rintro ⟨_, _, h⟩; cases h⟩
  have hacross : ¬ WithinLine '"' "a  b\nc  d".toList := by
    rw [hquotes.withinLine_iff (by decide)]
    decide
  obtain ⟨hkept, -, hfinds⟩ := quoted_text_cases (isDescribed_of_mem (by decide : Language.shell ∈ _)) hline hsource {}
  exact ⟨hline, hsource, hquotes, hacross, hkept [] _ (by decide), fun h =>
    hacross ((hfinds '"' "a  b\nc  d".toList ['\n'] rfl hquotes).1.mp h)⟩

/-- A string over two lines in shell. -/
def shellText : String := "echo \"a  b\nc  d\"\n"

/-- A string over two lines in SQL, with what looks like a comment in it. -/
def sqlText : String := "SELECT 'a  b\nc  -- d', e;\nSELECT f;"

/-- Blanks within a string are collapsed, and code behind a string is lost. -/
theorem minifyGeneric_acrossLines :
    minifyGeneric shellText .shell {} = .ofTexts shellText "echo \"a b\nc d\"" [] ∧
      ¬ "\"a  b\nc  d\"".toList <:+: (minifyGeneric shellText .shell {}).minified.toList ∧
      minifyGeneric sqlText .sql {} = .ofTexts sqlText "SELECT 'a b c SELECT f;" [] := by
  decide +kernel

end Minifier.Generic
