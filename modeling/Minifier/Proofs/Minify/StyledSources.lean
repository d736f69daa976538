import Minifier.Proofs.Masking.Comments
import Minifier.Proofs.Minify.HashComments
import Minifier.Proofs.Minify.QuotedLiterals
import Minifier.Proofs.Script.Reading

/-!
Sources in SQL, in PHP and in the languages with hash comments: code, and in it comments and quoted text. In the code of
a source no quote stands and no comment opens, so nothing in it can be taken for another piece. The lexer reads such a
source piece by piece.

A hash sign behind an indentation that the comment above it took opens no comment to the lexer, so such a comment
counts as code here, and may hold no quote. A backslash escapes in every kind of quotes, as it does for the lexer.
-/

namespace Minifier.Generic

open Pattern
open Script (isQuote Piece Source ReadsComment ReadsLiteral)

variable {style : CommentStyle} {index : Nat} {prev : Option Char} {text body tail code behind : List Char}

/-! ### Comments -/

/-- Whether a style has comments from a slash and a star to a star and a slash. -/
def hasBlocks : CommentStyle → Bool
  | .cFamily | .php | .sql => true
  | .hash | .powerShell | .matlab | .markup | .none => false

/-- What a comment to the end of a line opens with, given the character before and the text behind. -/
inductive OpensLine : CommentStyle → Option Char → List Char → List Char → Prop where
  | dashes {prev : Option Char} {behind : List Char} : OpensLine .sql prev ['-', '-'] behind
  | slashes {prev : Option Char} {behind : List Char} : OpensLine .php prev ['/', '/'] behind
  | hash {prev : Option Char} {before behind : List Char} : OpensComment prev before →
      OpensLine .hash prev (before ++ ['#']) behind
  | noBracket {prev : Option Char} {before behind : List Char} : OpensComment prev before → behind.head? ≠ some '[' →
      OpensLine .php prev (before ++ ['#']) behind

/-- A comment of a style, between a character and a text. One that ends with its line takes along the line break and
the indentation of the next line. -/
inductive CommentOf (style : CommentStyle) (prev : Option Char) : List Char → List Char → Prop where
  | block {body behind : List Char} : hasBlocks style = true → ¬ ['*', '/'] <:+: body →
      CommentOf style prev ('/' :: '*' :: (body ++ ['*', '/'])) behind
  | line {begun body tail behind : List Char} : OpensLine style prev begun (body ++ (tail ++ behind)) → '\n' ∉ body →
      EndsComment tail behind → CommentOf style prev (begun ++ (body ++ tail)) behind

/-- Whether no comment opens at the beginning of a text. -/
def OpensNone (style : CommentStyle) (prev : Option Char) (text : List Char) : Prop :=
  ¬ (hasBlocks style = true ∧ ['/', '*'] <+: text) ∧
    ∀ begun behind, text = begun ++ behind → ¬ OpensLine style prev begun behind

/-- The styles of which sources are described. -/
def IsDescribed (style : CommentStyle) : Prop := style = .hash ∨ style = .php ∨ style = .sql

theorem takes_hashCommentNoBracket {taken : List Char} {parts : Parts}
    (h : hashCommentNoBracket.Takes prev taken behind parts) :
    ∃ before rest, OpensComment prev before ∧ taken = before ++ '#' :: rest ∧ (rest ++ behind).head? ≠ some '[' := by
  obtain ⟨_, closed, _, _, ⟨_, line, _, _, ⟨before, _, _, _, hbefore, hhash, rfl, -⟩, hline, rfl, -⟩, hclosed, rfl,
    -⟩ := h
  obtain ⟨rfl, -⟩ := (takes_char '#').mp hhash
  refine ⟨before, line ++ closed, (takes_beforeHash.mp hbefore).1, by simp, ?_⟩
  rcases hline with ⟨_, _, _, _, ⟨⟨c, hc, rfl⟩, -⟩, -, rfl, -⟩ | ⟨rfl, -⟩
  · have hbracket : c ≠ '[' := by
      rintro rfl
      cases hc
    simpa using hbracket
  · rcases hclosed with ⟨_, _, _, _, hbreak, -, rfl, -⟩ | ⟨hend, rfl, -⟩
    · obtain ⟨rfl, -⟩ := (takes_char '\n').mp hbreak
      simp
    · rw [Anchor.holdsBetween_textEnd.mp hend]
      simp

/-- Where no comment opens, none is found. -/
theorem matchAt_comments_eq_none (hstyle : IsDescribed style) (h : OpensNone style prev text) (index : Nat) :
    (label .comment (choice (comments style))).matchAt index prev text = none := by
  obtain ⟨hblock, hline⟩ := h
  rw [Option.eq_none_iff_forall_ne_some]
  intro found hfound
  obtain ⟨behind, _, htext, ⟨_, htakes, -⟩, -⟩ := Match.exists_takes hfound
  have hopens : ∀ {pattern : Pattern} {opening : List Char} {parts : Parts}, pattern.OpensWith opening →
      pattern.Takes prev found.text behind parts → ∃ more, text = opening ++ more := fun hopening htakes => by
    obtain ⟨more, hmore⟩ := hopening _ _ _ _ htakes
    exact ⟨more ++ behind, by rw [htext, ← hmore, List.append_assoc]⟩
  rcases hstyle with rfl | rfl | rfl
  · obtain ⟨before, rest, hbefore, hfoundText⟩ := exists_of_takes_opening htakes
    exact hline (before ++ ['#']) (rest ++ behind) (by simp [htext, hfoundText]) (.hash hbefore)
  · rcases htakes with htakes | htakes | htakes
    · obtain ⟨more, hmore⟩ := hopens opensWith_blockComment htakes
      exact hblock ⟨rfl, more, hmore.symm⟩
    · obtain ⟨more, hmore⟩ := hopens (opensWith_lineComment "//") htakes
      exact hline _ more hmore .slashes
    · obtain ⟨before, rest, hbefore, hfoundText, hhead⟩ := takes_hashCommentNoBracket htakes
      exact hline (before ++ ['#']) (rest ++ behind) (by simp [htext, hfoundText]) (.noBracket hbefore hhead)
  · rcases htakes with htakes | htakes
    · obtain ⟨more, hmore⟩ := hopens opensWith_blockComment htakes
      exact hblock ⟨rfl, more, hmore.symm⟩
    · obtain ⟨more, hmore⟩ := hopens (opensWith_lineComment "--") htakes
      exact hline _ more hmore .dashes

/-- A hash sign and what a comment can take before it are taken, whatever comes behind. -/
theorem walk_opening {before rest : List Char} (h : OpensComment prev before) (index : Nat)
    (next : Spot → Option Spot) :
    (beforeHash ++ char '#').walk ⟨index, prev, before ++ ['#'] ++ rest, []⟩ next =
      next (Spot.after ⟨index, prev, before ++ ['#'] ++ rest, []⟩ (before ++ ['#']) rest) := by
  let start : Spot := ⟨index, prev, before ++ ['#'] ++ rest, []⟩
  have hwalk : (beforeHash ++ char '#').walk start next =
      (lineStart.walk start fun reached => (char '#').walk reached next).or
        ((one Class.spaceTab).walk start fun reached => (char '#').walk reached next) :=
    walk_alt _ _ _ _
  refine hwalk.trans ?_
  rcases h with ⟨rfl, hprev⟩ | ⟨c, rfl, hc⟩
  · have hstart : Anchor.lineStart.holds start = true := by
      rcases hprev with rfl | rfl <;> rfl
    have hfirst : (lineStart.walk start fun reached => (char '#').walk reached next) =
        next (start.after ['#'] rest) := if_pos hstart
    have hsecond : ((one Class.spaceTab).walk start fun reached => (char '#').walk reached next) = none := rfl
    rw [hfirst, hsecond, Option.or_none]
    rfl
  · have hhash : (c == '#') = false := by
      rw [beq_eq_false_iff_ne]
      rintro rfl
      cases hc
    have hfirst : (lineStart.walk start fun reached => (char '#').walk reached next) = none := by
      simp only [lineStart, walk, char, start, List.cons_append]
      split <;> simp [hhash]
    have hsecond : ((one Class.spaceTab).walk start fun reached => (char '#').walk reached next) =
        next (start.after [c, '#'] rest) := by
      simp [walk, char, start, hc, Spot.after]
    rw [hfirst, hsecond, Option.none_or]
    rfl

/-- Where no bracket follows, both kinds of hash comments take the same. -/
theorem walk_noBracket {spot : Spot} {next : Spot → Option Spot} (hspot : spot.rest = body ++ (tail ++ behind))
    (hhead : (body ++ (tail ++ behind)).head? ≠ some '[') (hbody : '\n' ∉ body) (htail : EndsComment tail behind)
    (hnext : ∀ stop, (next stop).isSome = true) :
    ((Pattern.optional (one (Class.except ['[', '\n']) ++ run Class.inLine)).walk spot fun stop =>
      ((char '\n' ++ run Class.spaceTab) <|> textEnd).walk stop next) = next (spot.after (body ++ tail) behind) := by
  have hend : ∀ spot : Spot, spot.rest = tail ++ behind →
      ((char '\n' ++ run Class.spaceTab) <|> textEnd).walk spot next = next (spot.after tail behind) :=
    fun spot hspot => Lexer.walk_alt_break hspot htail hnext fun hnil => if_pos (List.isEmpty_iff.mpr hnil)
  cases body with
  | nil =>
    have hnone : ∀ next : Spot → Option Spot, (one (Class.except ['[', '\n'])).walk spot next = none := by
      intro next
      rw [walk, hspot]
      rcases htail with ⟨rfl, rfl⟩ | ⟨indentation, rfl, -⟩ <;> rfl
    rw [Pattern.optional, walk, walk_append, hnone, walk]
    exact hend spot hspot
  | cons c body =>
    obtain ⟨hc, hbody⟩ := not_or.mp (mt List.mem_cons.mpr hbody)
    have hopens : Class.except ['[', '\n'] c = true := by
      simpa [Class.except, Ne.symm hc] using hhead
    let onward (stop : Spot) : Option Spot := ((char '\n' ++ run Class.spaceTab) <|> textEnd).walk stop next
    have hline : onward ((spot.after [c] (body ++ (tail ++ behind))).after body (tail ++ behind)) =
        next (spot.after (c :: body ++ tail) behind) := by
      refine (hend _ rfl).trans ?_
      rw [Spot.after_after, Spot.after_after]
      rfl
    have hrun : (run Class.inLine).walk (spot.after [c] (body ++ (tail ++ behind))) onward =
        next (spot.after (c :: body ++ tail) behind) :=
      (Lexer.walk_line rfl hbody htail ((congrArg Option.isSome hline).trans (hnext _))).trans hline
    have hbegun : (one (Class.except ['[', '\n']) ++ run Class.inLine).walk spot onward =
        (run Class.inLine).walk (spot.after [c] (body ++ (tail ++ behind))) onward := by
      rw [walk_append]
      exact walk_one hspot hopens
    have hoptional : (Pattern.optional (one (Class.except ['[', '\n']) ++ run Class.inLine)).walk spot onward =
        next (spot.after (c :: body ++ tail) behind) := by
      obtain ⟨found, hfound⟩ := Option.isSome_iff_exists.mp (hnext (spot.after (c :: body ++ tail) behind))
      rw [Pattern.optional, walk_alt, hbegun, hrun, hfound, Option.some_or]
    exact hoptional

theorem exists_matchAt_noBracket {before : List Char} (hbefore : OpensComment prev before)
    (hhead : (body ++ (tail ++ behind)).head? ≠ some '[') (hbody : '\n' ∉ body) (htail : EndsComment tail behind)
    (index : Nat) :
    ∃ found, (label .comment hashCommentNoBracket).matchAt index prev (before ++ ['#'] ++ (body ++ tail) ++ behind) =
      some found ∧ found.text = before ++ ['#'] ++ (body ++ tail) := by
  have htext : before ++ ['#'] ++ (body ++ (tail ++ behind)) = before ++ ['#'] ++ (body ++ tail) ++ behind := by simp
  let start : Spot := ⟨index, prev, before ++ ['#'] ++ (body ++ (tail ++ behind)), []⟩
  let next (stop : Spot) : Option Spot := some (Spot.remember .comment start stop)
  have hwalk : (label .comment hashCommentNoBracket).walk start some =
      (beforeHash ++ char '#').walk start fun spot =>
        (Pattern.optional (one (Class.except ['[', '\n']) ++ run Class.inLine)).walk spot fun stop =>
          ((char '\n' ++ run Class.spaceTab) <|> textEnd).walk stop next := rfl
  rw [walk_opening hbefore, @walk_noBracket body tail behind _ next rfl hhead hbody htail fun _ => rfl,
    Spot.after_after] at hwalk
  rw [← htext]
  exact exists_matchAt_of_walk hwalk htext rfl

theorem comments_matchAt_php (index : Nat) (prev : Option Char) (text : List Char) :
    (label .comment (choice (comments .php))).matchAt index prev text =
      ((label .comment Lexer.blockComment).matchAt index prev text).or
        (((label .comment (Lexer.lineComment "//")).matchAt index prev text).or
          ((label .comment hashCommentNoBracket).matchAt index prev text)) := by
  rw [← matchAt_label_alt, ← matchAt_label_alt]
  rfl

theorem comments_matchAt_sql (index : Nat) (prev : Option Char) (text : List Char) :
    (label .comment (choice (comments .sql))).matchAt index prev text =
      ((label .comment Lexer.blockComment).matchAt index prev text).or
        ((label .comment (Lexer.lineComment "--")).matchAt index prev text) :=
  matchAt_label_alt _ _ _ _ _ _

/-- All of a comment is found, and nothing more. -/
theorem CommentOf.exists_matchAt (h : CommentOf style prev text behind) (index : Nat) :
    ∃ found, (label .comment (choice (comments style))).matchAt index prev (text ++ behind) = some found ∧
      found.text = text := by
  cases h with
  | block hblock hbody =>
    obtain ⟨found, hfound, htext⟩ := Script.exists_matchAt_block hbody index prev behind
    refine ⟨found, ?_, htext⟩
    cases style with
    | cFamily => exact (Script.comment_matchAt _ _ _).trans (by rw [hfound, Option.some_or])
    | php => rw [comments_matchAt_php, hfound, Option.some_or]
    | sql => rw [comments_matchAt_sql, hfound, Option.some_or]
    | hash | powerShell | matlab | markup | none => cases hblock
  | @line _ body tail _ hopens hbody htail =>
    have hother : ∀ {pattern : Pattern} {opening text : List Char}, pattern.OpensWith opening →
        opening.isPrefixOf text = false → (label .comment pattern).matchAt index prev text = none :=
      fun hopening htext => (hopening.label _).matchAt_eq_none
        (mt List.isPrefixOf_iff_prefix.mpr (Bool.eq_false_iff.mp htext)) index prev
    cases hopens with
    | dashes =>
      rw [comments_matchAt_sql, hother opensWith_blockComment rfl, Option.none_or]
      exact Lexer.exists_matchAt_lineComment "--" hbody htail index prev
    | slashes =>
      obtain ⟨found, hfound, htext⟩ := Lexer.exists_matchAt_lineComment "//" hbody htail index prev
      refine ⟨found, (comments_matchAt_php _ _ _).trans ?_, htext⟩
      rw [hother opensWith_blockComment rfl, Option.none_or]
      exact Option.or_eq_some_iff.mpr (Or.inl hfound)
    | hash hbefore => exact Lexer.exists_matchAt_restOfLine (walk_opening hbefore index) hbody htail
    | @noBracket _ before _ hbefore hhead =>
      -- Neither a space nor a tab nor a hash sign begins a comment of the other kinds.
      have hslash : ∀ c, ['/', c].isPrefixOf (before ++ ['#'] ++ (body ++ tail) ++ behind) = false := by
        intro c
        rcases hbefore with ⟨rfl, -⟩ | ⟨d, rfl, hd⟩
        · rfl
        · have hne : '/' ≠ d := by
            rintro rfl
            cases hd
          simp [List.isPrefixOf, hne]
      rw [comments_matchAt_php, hother opensWith_blockComment (hslash '*'), Option.none_or,
        hother (opensWith_lineComment "//") (hslash '/'), Option.none_or]
      exact exists_matchAt_noBracket hbefore hhead hbody htail index

/-! ### Sources -/

/-- Code between a character and a text, at no place of which a comment opens or a quote stands. -/
def CodeOf (style : CommentStyle) (prev : Option Char) (code behind : List Char) : Prop :=
  match code with
  | [] => True
  | c :: rest => isQuote c = false ∧ OpensNone style prev (c :: (rest ++ behind)) ∧ CodeOf style (some c) rest behind

/-- Whether a piece of a source is what it is called, between a character and a text. -/
def PieceOf (style : CommentStyle) (prev : Option Char) (behind : List Char) : Piece → Prop
  | .code text => CodeOf style prev text behind
  | .comment text => CommentOf style prev text behind
  | .literal lead text => lead = [] ∧ QuotedText text behind

/-- Whether no piece of a source can be taken for another, between a character and a text. -/
def SourceOf (style : CommentStyle) : Option Char → Source → List Char → Prop
  | _, [], _ => True
  | prev, piece :: rest, behind =>
    PieceOf style prev (Source.text rest ++ behind) piece ∧ SourceOf style (piece.text.getLast?.or prev) rest behind

theorem matchAt_lexer (hstyle : IsDescribed style) (index : Nat) (prev : Option Char) (text : List Char) :
    (lexer style).pattern.matchAt index prev text =
      ((label .comment (choice (comments style))).matchAt index prev text).or (literals.matchAt index prev text) := by
  rcases hstyle with rfl | rfl | rfl <;> exact matchAt_alt _ _ _ _ _

theorem exceeds_of_isDescribed (hstyle : IsDescribed style) : (lexer style).pattern.exceeds [] = true := by
  rcases hstyle with rfl | rfl | rfl <;> decide

theorem CodeOf.passesOver (hstyle : IsDescribed style) (h : CodeOf style prev code behind) :
    (lexer style).pattern.PassesOver prev code behind := by
  induction code generalizing prev with
  | nil => trivial
  | cons c rest ih =>
    obtain ⟨hquote, hopens, hrest⟩ := h
    refine ⟨fun index => ?_, ih hrest⟩
    rw [matchAt_lexer hstyle, matchAt_comments_eq_none hstyle hopens, literals_matchAt_of_not_isQuote hquote,
      Option.none_or]

/-- No comment opens but with a slash, a dash or a hash sign, or with a space or a tab in front of a hash sign. -/
theorem OpensNone.of_head {c : Char} {rest : List Char} (hc : c ∉ ['/', '-', '#'])
    (hblank : Class.spaceTab c = true → rest.head? ≠ some '#') : OpensNone style prev (c :: rest) := by
  simp only [List.mem_cons, List.not_mem_nil, or_false, not_or] at hc
  obtain ⟨hslash, hdash, hhash⟩ := hc
  have hbefore : ∀ before behind, OpensComment prev before → c :: rest ≠ before ++ ['#'] ++ behind := by
    rintro before behind (⟨rfl, -⟩ | ⟨d, rfl, hd⟩) htext
    · exact hhash (List.cons.inj htext).1
    · obtain ⟨rfl, hrest⟩ := List.cons.inj htext
      exact hblank hd (by rw [hrest]; rfl)
  refine ⟨fun h => hslash ?_, fun begun behind htext hopens => ?_⟩
  · obtain ⟨-, more, hmore⟩ := h
    exact (List.cons.inj hmore).1.symm
  · cases hopens with
    | dashes => exact hdash (List.cons.inj htext).1
    | slashes => exact hslash (List.cons.inj htext).1
    | hash hopens => exact hbefore _ _ hopens htext
    | noBracket hopens _ => exact hbefore _ _ hopens htext

/-- Whether a character is no quote and begins no opening of a comment by itself. -/
def isQuietIn (c : Char) : Bool := !isQuote c && c != '/' && c != '-' && c != '#'

/-- Text of such characters is code, if it does not stand right in front of a hash sign. -/
theorem CodeOf.of_all (h : code.all isQuietIn = true) (hbehind : behind.head? ≠ some '#') :
    CodeOf style prev code behind := by
  induction code generalizing prev with
  | nil => trivial
  | cons c rest ih =>
    obtain ⟨hc, hrest⟩ := Bool.and_eq_true_iff.mp h
    simp only [isQuietIn, Bool.and_eq_true, Bool.not_eq_true', bne_iff_ne] at hc
    obtain ⟨⟨⟨hquote, hslash⟩, hdash⟩, hhash⟩ := hc
    refine ⟨hquote, .of_head (by simp [hslash, hdash, hhash]) fun _ hnext => ?_, ih hrest⟩
    cases rest with
    | nil => exact hbehind hnext
    | cons d rest =>
      obtain rfl := Option.some.inj hnext
      cases hrest

/-- Where quoted text stands no comment opens. -/
theorem QuotedText.opensNone (h : QuotedText text behind) : OpensNone style prev (text ++ behind) := by
  cases h with
  | triple hquote =>
    rcases hquote with rfl | rfl <;> exact .of_head (by decide) nofun
  | line hquote =>
    rcases hquote with rfl | rfl <;> exact .of_head (by decide) nofun
  | backticks => exact .of_head (by decide) nofun

/-- The comments and literals of a style, if any comment goes that can. -/
def plainLexer (style : CommentStyle) : Lexer := ⟨(lexer style).pattern, Lexer.stripAll⟩

theorem CommentOf.readsComment (hstyle : IsDescribed style) (h : CommentOf style prev text behind) :
    ReadsComment (plainLexer style) prev text behind := by
  intro index
  obtain ⟨found, hfound, htext⟩ := h.exists_matchAt index
  obtain ⟨span, _, _, hspan, -, hspanText, -⟩ := Match.exists_label hfound
  have hmatch : (plainLexer style).pattern.matchAt index prev (text ++ behind) = some found := by
    rw [plainLexer, matchAt_lexer hstyle, hfound, Option.some_or]
  refine ⟨found, hmatch, htext, fun stripComments literals => ?_⟩
  rw [MaskedText.replaceMatch, hspan]
  cases stripComments with
  | true => simp [plainLexer, Lexer.stripAll, hspanText, htext]
  | false => simp [MaskedText.setAside, htext]

theorem QuotedText.readsLiteral (hstyle : IsDescribed style) (h : QuotedText text behind) (prev : Option Char) :
    ReadsLiteral (plainLexer style) prev [] text behind := by
  intro index
  obtain ⟨found, hfound, htext⟩ := h.exists_matchAt index prev
  have hmatch : (plainLexer style).pattern.matchAt index prev (text ++ behind) = some found := by
    rw [plainLexer, matchAt_lexer hstyle, matchAt_comments_eq_none hstyle h.opensNone, hfound, Option.none_or]
  refine ⟨found, hmatch, htext, fun stripComments literals => ?_⟩
  rw [MaskedText.replaceMatch, Match.label?_eq_none (by decide) hfound]
  exact Script.setAsideMatch_eq (by decide) hfound htext literals

/-- A source is read piece by piece. -/
theorem SourceOf.isRead {source : Source} (hstyle : IsDescribed style) (h : SourceOf style prev source behind) :
    source.IsRead (plainLexer style) prev behind := by
  induction source generalizing prev with
  | nil => trivial
  | cons piece rest ih =>
    obtain ⟨hpiece, hrest⟩ := h
    refine ⟨?_, ih hrest⟩
    cases piece with
    | code text => exact CodeOf.passesOver hstyle hpiece
    | comment text => exact CommentOf.readsComment hstyle hpiece
    | literal lead text =>
      obtain ⟨rfl, hliteral⟩ := hpiece
      exact hliteral.readsLiteral hstyle prev

/-! ### The line that names a program -/

/-- Only a comment that begins the text and names a program is treated in its own way. -/
theorem replaceMatch_plainLexer {found : Match} (hfound : (lexer style).pattern.matchAt index prev text = some found)
    (hnamed : ¬ (index = 0 ∧ ['#', '!'] <+: found.text)) (stripComments : Bool) (literals : Array (List Char)) :
    MaskedText.replaceMatch (lexer style) stripComments literals found =
      MaskedText.replaceMatch (plainLexer style) stripComments literals found := by
  rw [MaskedText.replaceMatch, MaskedText.replaceMatch]
  cases hcomment : found.label? .comment with
  | none => rfl
  | some comment =>
    have hother : ¬ (comment.start = 0 ∧ ['#', '!'].isPrefixOf comment.text = true) := by
      rintro ⟨hstart, hbegins⟩
      obtain ⟨before, rest, htext, hspan, -⟩ := Match.span_within hfound hcomment
      obtain ⟨_, -, -, hplace⟩ := exists_of_matchAt hfound
      obtain rfl : before = [] := List.eq_nil_of_length_eq_zero (by omega)
      exact hnamed ⟨by omega, (List.isPrefixOf_iff_prefix.mp hbegins).trans ⟨rest, htext.symm⟩⟩
    have hstrip : (lexer style).strip comment.text comment.start = some (Lexer.leaveBreak comment.text) :=
      if_neg hother
    simp only [hstrip, plainLexer, Lexer.stripAll]

theorem replaceFrom_plainLexer (hstyle : IsDescribed style) {segments : List Segment}
    (h : Segmented (lexer style).pattern index prev text segments)
    (hnamed : index = 0 → ∀ found, (lexer style).pattern.matchAt index prev text = some found →
      ¬ ['#', '!'] <+: found.text) (stripComments : Bool) (literals : Array (List Char)) :
    replaceFrom (MaskedText.replaceMatch (lexer style) stripComments) segments literals =
      replaceFrom (MaskedText.replaceMatch (plainLexer style) stripComments) segments literals := by
  induction h generalizing literals with
  | done => rfl
  | plain _ _ ih => simp only [replaceFrom, ih fun hstart => absurd hstart (Nat.succ_ne_zero _)]
  | hit hfound _ _ ih =>
    have hsame := replaceMatch_plainLexer hfound (fun h => hnamed h.1 _ hfound h.2) stripComments literals
    have hbehind := List.length_pos_iff.mpr (ne_nil_of_matchAt (exceeds_of_isDescribed hstyle) hfound)
    simp only [replaceFrom, hsame, ih fun hstart => absurd hstart (by omega)]

/-- The line that names the program of a source, in front of a text: a comment at the very beginning. A source need
not have one. -/
def ProgramLine (style : CommentStyle) (line behind : List Char) : Prop :=
  line = [] ∧ ¬ (opensAtHash style = true ∧ ['#', '!'] <+: behind) ∨
    ['#', '!'] <+: line ∧ CommentOf style none line behind

/-- A source behind the line that names its program. That line stays in the code if comments go. -/
def withLine (stripComments : Bool) (line : List Char) (source : Source) : Source :=
  if line = [] then source else (if stripComments then .code line else .comment line) :: source

/-- The opening of such a line opens nothing in a style without hash comments. -/
theorem not_named_of_matchAt (hstyle : IsDescribed style) (h : ¬ (opensAtHash style = true ∧ ['#', '!'] <+: text))
    {found : Match} (hfound : (lexer style).pattern.matchAt index prev text = some found) :
    ¬ ['#', '!'] <+: found.text := by
  intro hnamed
  obtain ⟨rest, _, htext, htakes, -⟩ := Match.exists_takes hfound
  rcases hstyle with rfl | rfl | rfl
  · exact h ⟨rfl, hnamed.trans ⟨rest, htext.symm⟩⟩
  · exact h ⟨rfl, hnamed.trans ⟨rest, htext.symm⟩⟩
  · have hopens : (lexer .sql).pattern.opensOutside ['#'] = true := by decide
    obtain ⟨c, more, hfoundText, hc⟩ := htakes.exists_head hopens
    rw [hfoundText] at hnamed
    obtain ⟨rest, hrest⟩ := hnamed
    obtain ⟨rfl, -⟩ := List.cons.inj hrest
    exact hc List.mem_cons_self

/-- The line that names a program is a comment that stays. -/
theorem exists_matchAt_programLine {line : List Char} (hstyle : IsDescribed style) (hnamed : ['#', '!'] <+: line)
    (hcomment : CommentOf style none line behind) :
    ∃ found, (lexer style).pattern.matchAt 0 none (line ++ behind) = some found ∧ found.text = line ∧
      ∀ stripComments, MaskedText.replaceMatch (lexer style) stripComments #[] found =
        if stripComments then (line, #[]) else (Placeholder.render 0, #[line]) := by
  obtain ⟨found, hfound, htext⟩ := hcomment.exists_matchAt 0
  obtain ⟨span, _, _, hspan, hstart, hspanText, -⟩ := Match.exists_label hfound
  have hstays : (lexer style).strip span.text span.start = some line := by
    rw [hspanText, hstart, htext]
    exact if_pos ⟨rfl, List.isPrefixOf_iff_prefix.mpr hnamed⟩
  refine ⟨found, by rw [matchAt_lexer hstyle, hfound, Option.some_or], htext, fun stripComments => ?_⟩
  rw [MaskedText.replaceMatch, hspan]
  cases stripComments <;> simp [hstays, MaskedText.setAside, htext]

/-- The lexer goes through a source and goes on behind it. -/
theorem exists_segments_of_source {line : List Char} {source : Source} (hstyle : IsDescribed style)
    (hline : ProgramLine style line (source.text ++ behind)) (h : SourceOf style line.getLast? source behind) :
    ∃ done index todo, (lexer style).pattern.segments (line ++ (source.text ++ behind)) = done ++ todo ∧
      done.flatMap Segment.text = line ++ source.text ∧
      Segmented (lexer style).pattern index (line ++ source.text).getLast? behind todo ∧
      ∀ stripComments, replaceFrom (MaskedText.replaceMatch (lexer style) stripComments) (done ++ todo) #[] =
        (((withLine stripComments line source).template stripComments 0).render ++
            (replaceFrom (MaskedText.replaceMatch (plainLexer style) stripComments) todo
              ((withLine stripComments line source).kept stripComments).toArray).1,
          (replaceFrom (MaskedText.replaceMatch (plainLexer style) stripComments) todo
              ((withLine stripComments line source).kept stripComments).toArray).2) := by
  obtain ⟨todo, htodo⟩ := exists_segmented (lexer style).pattern (line.length + source.text.length)
    (source.text.getLast?.or line.getLast?) behind
  obtain ⟨done, hdone, htext, hreplace⟩ := (h.isRead hstyle).exists_segmented htodo
  rw [← List.getLast?_append] at htodo
  rcases hline with ⟨rfl, hnamed⟩ | ⟨hnamed, hcomment⟩
  · refine ⟨done, _, todo, (segments_segmented _ _).unique (exceeds_of_isDescribed hstyle) hdone, htext, htodo,
      fun stripComments => ?_⟩
    rw [replaceFrom_plainLexer hstyle hdone fun _ _ => not_named_of_matchAt hstyle hnamed, hreplace]
    simp [withLine]
  · have hne : line ≠ [] := by
      rintro rfl
      simp at hnamed
    obtain ⟨found, hfound, hfoundText, hset⟩ := exists_matchAt_programLine hstyle hnamed hcomment
    have hwhole : Segmented (lexer style).pattern 0 none (line ++ (source.text ++ behind))
        (.hit found :: (done ++ todo)) := by
      refine .hit hfound (by rw [hfoundText]) ?_
      rw [hfoundText, Nat.zero_add, Option.or_none]
      exact hdone
    refine ⟨.hit found :: done, _, todo, (segments_segmented _ _).unique (exceeds_of_isDescribed hstyle) hwhole,
      ?_, htodo, fun stripComments => ?_⟩
    · rw [List.flatMap_cons, htext]
      exact congrArg (· ++ source.text) hfoundText
    · have hbehind := replaceFrom_plainLexer hstyle hdone
        (fun hnil => absurd (List.eq_nil_of_length_eq_zero hnil) hne) stripComments
      rw [List.cons_append, replaceFrom, hset]
      cases stripComments <;>
        simp [hbehind, hreplace, withLine, hne, Source.template, Source.kept, Piece.template, Piece.kept]

end Minifier.Generic
