import Minifier.Proofs.Masking.InStep
import Minifier.Proofs.Minify.Stages
import Minifier.Proofs.Pattern.Enclosed
import Minifier.Worker.Handler

/-!
The comments of scripts and stylesheets, as a worker finds them and as the minifiers of these languages do. A
worker knows no regular expressions and no addresses, and it takes two slashes and backticks in a stylesheet for what
they are in a script. Elsewhere it finds what the minifiers find, so it removes the same comments as long as it passes
over these; and where it finds a comment in one of them, it removes code.
-/

namespace Minifier.Worker

open Pattern

variable {index : Nat} {prev : Option Char} {text : List Char}

/-! ### Comments to the end of the line -/

/-- A comment from two slashes to the end of the line. -/
def lineComment : Pattern := word "//" ++ run Class.inLine

/-- Two slashes take the rest of the line along. -/
theorem exists_matchAt_lineComment (index : Nat) (prev : Option Char) (more : List Char) :
    ∃ found, (label .comment lineComment).matchAt index prev ('/' :: '/' :: more) = some found ∧
      found.text = '/' :: '/' :: more.takeWhile Class.inLine := by
  have hwalk : (label .comment lineComment).walk ⟨index, prev, '/' :: '/' :: more, []⟩ some =
      (run Class.inLine).walk ⟨index + 1 + 1, some '/', more, []⟩ fun reached =>
        some (Spot.remember .comment ⟨index, prev, '/' :: '/' :: more, []⟩ reached) := rfl
  rw [walk_run_of_isSome rfl] at hwalk
  have htext : '/' :: '/' :: more = '/' :: '/' :: more.takeWhile Class.inLine ++ more.dropWhile Class.inLine := by
    simp
  refine exists_matchAt_of_walk hwalk htext ?_
  simp only [Spot.remember_index, Spot.behind, Spot.after_index, List.length_cons]
  omega

/-- With the line break behind it and the indentation of the next line they take the same and these. -/
theorem exists_matchAt_lineBreak (index : Nat) (prev : Option Char) (more : List Char) :
    ∃ found taken behind, found.text = '/' :: '/' :: more.takeWhile Class.inLine ++ taken ∧ IsBreak taken behind ∧
      (label .comment (Lexer.lineComment "//")).matchAt index prev ('/' :: '/' :: more) = some found := by
  let start : Spot := ⟨index, prev, '/' :: '/' :: more, []⟩
  have hnext : ∀ stop : Spot, (some (Spot.remember .comment start stop)).isSome = true := fun _ => rfl
  obtain ⟨taken, reached, hline, hrest, hindex, hbreak⟩ :=
    Lexer.exists_walk_restOfLine hnext ⟨index + 1 + 1, some '/', more, []⟩
  have hwalk : (label .comment (Lexer.lineComment "//")).walk ⟨index, prev, '/' :: '/' :: more, []⟩ some =
      some (Spot.remember .comment start reached) := hline
  have htext : '/' :: '/' :: more = '/' :: '/' :: more.takeWhile Class.inLine ++ taken ++ reached.rest := by
    simpa using hrest
  have hlength : (Spot.remember .comment start reached).index =
      index + ('/' :: '/' :: more.takeWhile Class.inLine ++ taken).length := by
    rw [Spot.remember_index, hindex]
    simp only [List.length_append, List.length_cons]
    omega
  obtain ⟨found, hfound, htaken⟩ := exists_matchAt_of_walk hwalk htext hlength
  exact ⟨found, taken, reached.rest, htaken, hbreak, hfound⟩

/-- Without two slashes no such comment begins. -/
theorem matchAt_lineComment_eq_none (htext : ¬ ['/', '/'] <+: text) (index : Nat) (prev : Option Char) :
    (label .comment lineComment).matchAt index prev text = none :=
  (((opensWith_word "//").append _).label _).matchAt_eq_none htext index prev

theorem matchAt_lineBreak_eq_none (htext : ¬ ['/', '/'] <+: text) (index : Nat) (prev : Option Char) :
    (label .comment (Lexer.lineComment "//")).matchAt index prev text = none :=
  ((opensWith_lineComment "//").label _).matchAt_eq_none htext index prev

/-- Where one lexer finds no comment that ends with a line, neither does the other. -/
theorem lineComment_eq_none_of_lineBreak
    (h : (label .comment (Lexer.lineComment "//")).matchAt index prev text = none) :
    (label .comment lineComment).matchAt index prev text = none := by
  by_cases htext : ['/', '/'] <+: text
  · obtain ⟨more, rfl⟩ := htext
    obtain ⟨found, taken, behind, -, -, hfound⟩ := exists_matchAt_lineBreak index prev more
    rw [List.cons_append, List.cons_append, List.nil_append, hfound] at h
    cases h
  · exact matchAt_lineComment_eq_none htext index prev

/-- Up to the line break that one of them takes along, both take the same. -/
theorem exists_lineComment_of_lineBreak {found : Match}
    (h : (label .comment (Lexer.lineComment "//")).matchAt index prev text = some found) :
    ∃ found', (label .comment lineComment).matchAt index prev text = some found' ∧ found'.SparesBreak found := by
  by_cases hslashes : ['/', '/'] <+: text
  · obtain ⟨more, rfl⟩ := hslashes
    obtain ⟨found', hfound', htext'⟩ := exists_matchAt_lineComment index prev more
    obtain ⟨other, tail, behind, htext, hbreak, hother⟩ := exists_matchAt_lineBreak index prev more
    obtain rfl := Option.some.inj (h.symm.trans hother)
    rw [← htext'] at htext
    have hline : '\n' ∉ found'.text := by
      have hmem : '\n' ∉ more.takeWhile Class.inLine := fun hmem => by
        simpa [Class.inLine] using List.all_eq_true.mp List.all_takeWhile _ hmem
      rw [htext']
      simpa using hmem
    have hlabel : (found'.label? .comment).isSome = (found.label? .comment).isSome := by
      rw [Match.label?_isSome rfl hfound', Match.label?_isSome rfl h]
    refine ⟨found', hfound', tail, htext, ?_, ?_, hlabel⟩
    · rcases hbreak with ⟨rfl, -⟩ | ⟨indentation, rfl, hindentation⟩
      · simp
      · exact List.forall_mem_cons.mpr ⟨rfl, fun c hc => Bool.or_eq_true_iff.mpr (Or.inr (hindentation c hc))⟩
    · rw [htext, Lexer.withoutBreak_of_not_mem hline]
      rcases hbreak with ⟨rfl, -⟩ | ⟨indentation, rfl, hindentation⟩
      · rw [List.append_nil, Lexer.withoutBreak_of_not_mem hline]
      · rw [Lexer.withoutBreak_append _ hindentation]
  · rw [matchAt_lineBreak_eq_none hslashes] at h
    cases h

/-! ### Scripts and stylesheets -/

/-- The segments that a worker may read otherwise than the minifier of a language: regular expressions and addresses,
and in a stylesheet also what is neither a comment nor a literal. -/
def readsApart (language : Language) : Segment → Bool
  | .plain _ => language == .css
  | .hit found => (found.label? .literal).isSome

/-- A match with a literal in it is no comment. -/
theorem comment_eq_none_of_literal {body rest : Pattern} (hbody : (label .comment body).lacks .literal = true)
    (hrest : rest.lacks .comment = true) {found : Match}
    (hfound : (label .comment body <|> rest).matchAt index prev text = some found)
    (hliteral : (found.label? .literal).isSome = true) : found.label? .comment = none := by
  rcases Match.comment_cases hrest hfound with hcomment | hnone
  · rw [Match.label?_eq_none hbody hcomment] at hliteral
    cases hliteral
  · exact hnone

theorem slashLexer_matchAt (index : Nat) (prev : Option Char) (text : List Char) :
    slashLexer.pattern.matchAt index prev text =
      (((label .comment Lexer.blockComment).matchAt index prev text).or
        ((label .comment lineComment).matchAt index prev text)).or
      ((Lexer.quoted.matchAt index prev text).or (Script.template.matchAt index prev text)) := by
  have hpattern : slashLexer.pattern =
      alt (label .comment (alt Lexer.blockComment lineComment)) (alt Lexer.quoted Script.template) := rfl
  rw [hpattern, matchAt_alt, matchAt_label_alt, matchAt_alt]

theorem scriptLexer_matchAt (index : Nat) (prev : Option Char) (text : List Char) :
    Script.lexer.pattern.matchAt index prev text =
      (((label .comment Lexer.blockComment).matchAt index prev text).or
        ((label .comment (Lexer.lineComment "//")).matchAt index prev text)).or
      ((Lexer.quoted.matchAt index prev text).or
        ((Script.template.matchAt index prev text).or (Script.regexLiteral.matchAt index prev text))) := by
  have hpattern : Script.lexer.pattern =
      alt (label .comment (alt Lexer.blockComment (Lexer.lineComment "//")))
        (alt Lexer.quoted (alt Script.template Script.regexLiteral)) := rfl
  rw [hpattern, matchAt_alt, matchAt_label_alt, matchAt_alt, matchAt_alt]

theorem styleLexer_matchAt (index : Nat) (prev : Option Char) (text : List Char) :
    Style.lexer.pattern.matchAt index prev text =
      ((label .comment Lexer.blockComment).matchAt index prev text).or
      ((Lexer.quoted.matchAt index prev text).or (Style.address.matchAt index prev text)) := by
  have hpattern : Style.lexer.pattern =
      alt (label .comment Lexer.blockComment) (alt Lexer.quoted Style.address) := rfl
  rw [hpattern, matchAt_alt, matchAt_alt]

theorem follows_script (language : Language) :
    slashLexer.Follows Script.lexer (readsApart language) where
  stripsWhole := .of_label rfl (by decide) (by decide) rfl
  leader_stripsWhole := .of_label rfl (by decide) (by decide) rfl
  opensOutside := by decide
  plain := by
    intro index prev c rest _ hnone
    rw [scriptLexer_matchAt] at hnone
    simp only [Option.or_eq_none_iff] at hnone
    obtain ⟨⟨hblock, hbreak⟩, hquoted, htemplate, -⟩ := hnone
    have hline := lineComment_eq_none_of_lineBreak hbreak
    rw [slashLexer_matchAt, hblock, hline, hquoted, htemplate]
    rfl
  hit := by
    intro index prev text found hapart hfound
    rw [scriptLexer_matchAt] at hfound
    simp only [Option.or_eq_some_iff, Option.or_eq_none_iff] at hfound
    rw [slashLexer_matchAt]
    rcases hfound with (hblock | ⟨hblock, hbreak⟩) | ⟨⟨hblock, hbreak⟩, hliteral⟩
    · exact ⟨found, by rw [hblock]; rfl, .refl found⟩
    · obtain ⟨found', hline, hspares⟩ := exists_lineComment_of_lineBreak hbreak
      exact ⟨found', by rw [hblock, hline]; rfl, hspares⟩
    · have hline := lineComment_eq_none_of_lineBreak hbreak
      rw [hblock, hline]
      rcases hliteral with hquoted | ⟨hquoted, htemplate | ⟨-, hregex⟩⟩
      · exact ⟨found, by rw [hquoted]; rfl, .refl found⟩
      · exact ⟨found, by rw [hquoted, htemplate]; rfl, .refl found⟩
      · rw [readsApart, Match.label?_isSome (by decide) hregex] at hapart
        cases hapart
  apart := fun _ _ _ _ hapart hfound => comment_eq_none_of_literal (by decide) (by decide) hfound hapart

theorem follows_style : slashLexer.Follows Style.lexer (readsApart .css) where
  stripsWhole := .of_label rfl (by decide) (by decide) rfl
  leader_stripsWhole := .of_label rfl (by decide) (by decide) rfl
  opensOutside := by decide
  plain := by
    intro index prev c rest hapart
    cases hapart
  hit := by
    intro index prev text found hapart hfound
    rw [styleLexer_matchAt] at hfound
    simp only [Option.or_eq_some_iff] at hfound
    rw [slashLexer_matchAt]
    rcases hfound with hblock | ⟨hblock, hquoted | ⟨-, haddress⟩⟩
    · exact ⟨found, by rw [hblock]; rfl, .refl found⟩
    · have hslashes : ¬ ['/', '/'] <+: text := by
        rintro ⟨rest, rfl⟩
        have hopens : Lexer.quoted.opensOutside ['/'] = true := by decide
        rw [List.cons_append, matchAt_eq_none_of_opensOutside hopens List.mem_cons_self] at hquoted
        cases hquoted
      refine ⟨found, ?_, .refl found⟩
      rw [hblock, matchAt_lineComment_eq_none hslashes, hquoted]
      rfl
    · rw [readsApart, Match.label?_isSome (by decide) haddress] at hapart
      cases hapart
  apart := fun _ _ _ _ hapart hfound => comment_eq_none_of_literal (by decide) (by decide) hfound hapart

/-- How a worker goes through what it may read otherwise than the minifier of a language. -/
def course (language : Language) (text : List Char) : Course :=
  (lexerFor language.commentStyle).pattern.course (readsApart language) 0 none
    ((Stages.lexer language).pattern.segments text)

/-- In scripts and stylesheets a worker removes the comments that the minifier of the language removes, with the same
beginnings and the same texts up to a line break at their ends, as long as it passes over what it may read
otherwise. Where it finds a comment in that, it removes what the minifier keeps. -/
theorem removed_course {language : Language} (hlanguage : language ∈ [.javascript, .typescript, .css])
    (text : List Char) :
    (course language text = .past →
      (lexerFor language.commentStyle).removed text = (Stages.lexer language).removed text) ∧
    (course language text = .comment →
      ∃ entry ∈ (lexerFor language.commentStyle).removed text,
        ∀ other ∈ (Stages.lexer language).removed text, other.1 ≠ entry.1) := by
  have hfollows : (lexerFor language.commentStyle).Follows (Stages.lexer language) (readsApart language) := by
    simp only [List.mem_cons, List.not_mem_nil, or_false] at hlanguage
    rcases hlanguage with rfl | rfl | rfl
    · exact follows_script .javascript
    · exact follows_script .typescript
    · exact follows_style
  exact ⟨hfollows.removed_eq, hfollows.exists_not_removed⟩

/-- A regular expression that matches two slashes. -/
def splitAtSlashes : String := "s.split(/\\/\\//); run();"

/-- A regular expression with quotes is passed over, and the comment behind it goes; one that ends in two slashes is
not. -/
theorem removed_course_expressions :
    Language.javascript ∈ [Language.javascript, .typescript, .css] ∧
      course .javascript "x = /\"b\"/; // c\ny".toList = .past ∧ course .javascript splitAtSlashes.toList = .comment ∧
      (lexerFor Language.javascript.commentStyle).removed "x = /\"b\"/; // c\ny".toList = [(11, "// c".toList)] ∧
      ∃ entry ∈ (lexerFor Language.javascript.commentStyle).removed splitAtSlashes.toList,
        ∀ other ∈ (Stages.lexer .javascript).removed splitAtSlashes.toList, other.1 ≠ entry.1 := by
  have hlanguage : Language.javascript ∈ [Language.javascript, .typescript, .css] := by decide
  have hpast : course .javascript "x = /\"b\"/; // c\ny".toList = .past := by decide +kernel
  have hcomment : course .javascript splitAtSlashes.toList = .comment := by decide +kernel
  refine ⟨hlanguage, hpast, hcomment, ?_, (removed_course hlanguage _).2 hcomment⟩
  rw [(removed_course hlanguage _).1 hpast]
  decide +kernel

/-- The minifier accepts the expression and keeps it, but a worker takes its end and the code behind it for a
comment. -/
theorem removed_splitAtSlashes :
    Minifier.minify splitAtSlashes .javascript {} = .ofTexts splitAtSlashes "s.split(/\\/\\//);run();" [] ∧
      (Stages.lexer .javascript).removed splitAtSlashes.toList = [] ∧
      (lexerFor Language.javascript.commentStyle).removed splitAtSlashes.toList = [(12, "//); run();".toList)] ∧
      handle ⟨"1", splitAtSlashes, .javascript, {}⟩ = .ok "1" (.ofTexts splitAtSlashes "s.split(/\\/\\" []) := by
  decide +kernel

end Minifier.Worker
