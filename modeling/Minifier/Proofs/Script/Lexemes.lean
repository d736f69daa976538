import Minifier.Proofs.Masking.Comments
import Minifier.Proofs.Script.Source

/-!
What the lexer of scripts finds at a place. It finds the comment or the literal that a plain source has there, all of
it and nothing more, and where the source has code it finds nothing.
-/

namespace Minifier.Script

open Pattern

variable {index : Nat} {prev : Option Char} {lead body taken text behind : List Char} {parts : Parts}

/-! ### Comments -/

theorem comment_matchAt (index : Nat) (prev : Option Char) (text : List Char) :
    (label .comment comment).matchAt index prev text =
      ((label .comment Lexer.blockComment).matchAt index prev text).or
        ((label .comment (Lexer.lineComment "//")).matchAt index prev text) :=
  matchAt_label_alt _ _ _ _ _ _

/-- Where no comment begins, none is found. -/
theorem matchAt_comment_eq_none (h : startsComment text = false) :
    (label .comment comment).matchAt index prev text = none := by
  obtain ⟨hline, hblock⟩ := startsComment_eq_false_iff.mp h
  rw [comment_matchAt, (opensWith_blockComment.label _).matchAt_eq_none hblock,
    ((opensWith_lineComment "//").label _).matchAt_eq_none hline, Option.or_none]

/-- A block comment ends at the first closing. -/
theorem exists_matchAt_block (hbody : ¬ ['*', '/'] <:+: body) (index : Nat) (prev : Option Char) (behind : List Char) :
    ∃ found, (label .comment Lexer.blockComment).matchAt index prev
        ('/' :: '*' :: (body ++ ['*', '/']) ++ behind) = some found ∧
      found.text = '/' :: '*' :: (body ++ ['*', '/']) := by
  have hclosing : "*/".toList = ['*', '/'] := rfl
  have hnone : ∀ inside, inside ≠ [] → inside <:+ body → ¬ "*/".toList <+: inside ++ ("*/".toList ++ behind) := by
    rw [hclosing]
    rintro inside hne ⟨before, rfl⟩ ⟨rest, hrest⟩
    cases inside with
    | nil => exact hne rfl
    | cons c inside =>
      obtain ⟨rfl, hmore⟩ := List.cons.inj hrest
      -- A lone star before the closing does not close, since a star follows it.
      cases inside with
      | nil => exact absurd (List.cons.inj hmore).1 (by decide)
      | cons d inside =>
        obtain ⟨rfl, -⟩ := List.cons.inj hmore
        exact hbody ⟨before, inside, by simp⟩
  obtain ⟨found, hfound, htext⟩ := @exists_matchAt_enclosed index prev _ _ .comment "/*" "*/" hnone
  refine ⟨found, ?_, htext⟩
  rw [← hfound, hclosing]
  simp [Lexer.blockComment]

/-- The lexer finds every comment of a plain source. -/
theorem IsComment.exists_matchAt (h : IsComment text behind) (index : Nat) (prev : Option Char) :
    ∃ found, (label .comment comment).matchAt index prev (text ++ behind) = some found ∧ found.text = text := by
  have hnone : ∀ body behind,
      (label .comment Lexer.blockComment).matchAt index prev ('/' :: '/' :: body ++ behind) = none :=
    fun _ _ => (opensWith_blockComment.label _).matchAt_eq_none (by simp) index prev
  rw [comment_matchAt]
  cases h with
  | block hbody =>
    obtain ⟨found, hfound, htext⟩ := exists_matchAt_block hbody index prev behind
    exact ⟨found, by rw [hfound, Option.some_or], htext⟩
  | line hbody hindentation hbehind =>
    have htail : EndsComment ('\n' :: _) behind := Or.inr ⟨_, rfl, hindentation, hbehind⟩
    rw [hnone, Option.none_or]
    exact Lexer.exists_matchAt_lineComment "//" hbody htail index prev
  | @lastLine body hbody =>
    rw [hnone, Option.none_or]
    simpa using Lexer.exists_matchAt_lineComment "//" hbody (Or.inl ⟨rfl, rfl⟩) index prev

/-! ### Regular expressions -/

/-- What an expression may follow, and the blanks in front of it. -/
def leadPattern : Pattern := beforeExpression ++ run (Class.among [' ', '\t', '\r', '\n'])

theorem holdsBetween_wordEdge {word : String} (hword : word ∈ leadWords) (prev : Option Char) (behind : List Char) :
    Anchor.wordEdge.HoldsBetween prev (word.toList ++ behind) ↔ prev.any Text.isWord = false := by
  have hwords : leadWords.all (·.toList.head?.any Text.isWord) = true := rfl
  have hopens : word.toList.head?.any Text.isWord = true := List.all_eq_true.mp hwords word hword
  exact Anchor.holdsBetween_wordEdge_before (any_head?_append hopens behind)

theorem takes_beforeExpression :
    beforeExpression.Takes prev taken behind parts ↔ isFront prev taken = true ∧ parts = [] := by
  have hpattern : beforeExpression = alt (oneOf leadMarks) (alt lineStart (wordEdge ++ words leadWords)) := rfl
  have hline : lineStart.Takes prev taken behind parts ↔
      Anchor.lineStart.HoldsBetween prev behind ∧ taken = [] ∧ parts = [] := Iff.rfl
  have hword : (wordEdge ++ words leadWords).Takes prev taken behind parts ↔
      ((∃ word ∈ leadWords, taken = word.toList) ∧ prev.any Text.isWord = false) ∧ parts = [] := by
    rw [takes_append]
    constructor
    · rintro ⟨_, _, _, _, ⟨hedge, rfl, rfl⟩, hwords, rfl, rfl⟩
      obtain ⟨⟨word, hmem, rfl⟩, rfl⟩ := (takes_words leadWords).mp hwords
      exact ⟨⟨⟨word, hmem, rfl⟩, (holdsBetween_wordEdge hmem prev behind).mp hedge⟩, rfl⟩
    · rintro ⟨⟨⟨word, hmem, rfl⟩, hprev⟩, rfl⟩
      exact ⟨[], word.toList, [], [], ⟨(holdsBetween_wordEdge hmem prev behind).mpr hprev, rfl, rfl⟩,
        (takes_words leadWords).mpr ⟨⟨word, hmem, rfl⟩, rfl⟩, rfl, rfl⟩
  rw [hpattern, Takes, Takes, hline, hword, takes_oneOf, Anchor.holdsBetween_lineStart, isFront_iff]
  constructor
  · rintro (⟨hmark, rfl⟩ | ⟨hbreak, rfl, rfl⟩ | ⟨hspelled, rfl⟩)
    · exact ⟨Or.inr (Or.inl hmark), rfl⟩
    · exact ⟨Or.inl ⟨rfl, hbreak⟩, rfl⟩
    · exact ⟨Or.inr (Or.inr hspelled), rfl⟩
  · rintro ⟨⟨rfl, hbreak⟩ | hmark | hspelled, rfl⟩
    · exact Or.inr (Or.inl ⟨hbreak, rfl, rfl⟩)
    · exact Or.inl ⟨hmark, rfl⟩
    · exact Or.inr (Or.inr ⟨hspelled, rfl⟩)

theorem takes_leadPattern : leadPattern.Takes prev taken behind parts ↔ leads prev taken = true ∧ parts = [] := by
  have hblank : ∀ c, Class.among [' ', '\t', '\r', '\n'] c = true ↔ c ∈ leadBlanks := fun c =>
    List.contains_iff_mem
  rw [leadPattern, takes_append, leads_iff]
  constructor
  · rintro ⟨front, blanks, _, _, htakes, ⟨hblanks, rfl⟩, rfl, rfl⟩
    obtain ⟨hfront, rfl⟩ := takes_beforeExpression.mp htakes
    exact ⟨⟨front, blanks, rfl, hfront, fun c hc => (hblank c).mp (hblanks c hc)⟩, rfl⟩
  · rintro ⟨⟨front, blanks, rfl, hfront, hblanks⟩, rfl⟩
    exact ⟨front, blanks, [], [], takes_beforeExpression.mpr ⟨hfront, rfl⟩,
      ⟨fun c hc => (hblank c).mpr (hblanks c hc), rfl⟩, rfl, rfl⟩

theorem takes_regexUnit {plain : Char → Bool} : (regexUnit plain).Takes prev taken behind parts ↔
    ((∃ c, plain c = true ∧ taken = [c]) ∨ (∃ c, c ≠ '\n' ∧ taken = ['\\', c]) ∨
      ∃ inside, EscapedUnits (Class.except [']', '\\', '\n']) Class.inLine inside ∧
        taken = '[' :: (inside ++ [']'])) ∧ parts = [] := by
  have hunit : (regexUnit plain).Takes prev taken behind parts ↔ (one plain).Takes prev taken behind parts ∨
      (char '\\' ++ one Class.inLine).Takes prev taken behind parts ∨ regexClass.Takes prev taken behind parts :=
    Iff.rfl
  have hescaped : (char '\\' ++ one Class.inLine).Takes prev taken behind parts ↔
      (∃ c, c ≠ '\n' ∧ taken = ['\\', c]) ∧ parts = [] := by
    rw [takes_append]
    constructor
    · rintro ⟨_, _, _, _, hslash, ⟨⟨c, hc, rfl⟩, rfl⟩, rfl, rfl⟩
      obtain ⟨rfl, rfl⟩ := (takes_char '\\').mp hslash
      exact ⟨⟨c, bne_iff_ne.mp hc, rfl⟩, rfl⟩
    · rintro ⟨⟨c, hc, rfl⟩, rfl⟩
      exact ⟨['\\'], [c], [], [], (takes_char '\\').mpr ⟨rfl, rfl⟩, ⟨⟨c, bne_iff_ne.mpr hc, rfl⟩, rfl⟩, rfl, rfl⟩
  have hclass : regexClass.Takes prev taken behind parts ↔
      (∃ inside, EscapedUnits (Class.except [']', '\\', '\n']) Class.inLine inside ∧
        taken = '[' :: (inside ++ [']'])) ∧ parts = [] := takes_units
  rw [hunit, takes_one, hescaped, hclass, ← or_and_right, ← or_and_right]

/-- A regular expression up to its flags. -/
def regexFront : Pattern :=
  char '/' ++ regexUnit (Class.except ['/', '\\', '\n', '[', '*']) ++
    star (regexUnit (Class.except ['/', '\\', '\n', '['])) ++ char '/'

theorem regexLiteral_eq : regexLiteral = leadPattern ++ label .literal (regexFront ++ run Class.letter) := rfl

theorem except_iff {chars : List Char} {c : Char} : Class.except chars c = true ↔ c ∉ chars := by
  simp [Class.except]

theorem RegexUnits.of_takes {plain : Char → Bool} (hplain : ∀ c, plain c = true → c ∉ ['/', '\\', '\n', '['])
    (h : (regexUnit plain).Takes prev taken behind parts) : RegexUnits taken := by
  rcases (takes_regexUnit.mp h).1 with ⟨c, hc, rfl⟩ | ⟨c, hc, rfl⟩ | ⟨inside, hinside, rfl⟩
  · exact .plain (hplain c hc) .nil
  · exact .escaped hc .nil
  · exact .among hinside .nil

/-- Units come one by one, each taken by the pattern of a unit whatever stands around it. -/
theorem RegexUnits.exists_head {plain : Char → Bool} (h : RegexUnits body) (hne : body ≠ [])
    (hplain : ∀ c ∈ body.head?, c ∉ ['/', '\\', '\n', '['] → plain c = true) :
    ∃ unit rest, body = unit ++ rest ∧ unit ≠ [] ∧ RegexUnits rest ∧
      ∀ prev behind, (regexUnit plain).Takes prev unit behind [] := by
  cases h with
  | nil => exact absurd rfl hne
  | @plain c rest hc hrest =>
    exact ⟨[c], rest, rfl, by simp, hrest, fun _ _ => takes_regexUnit.mpr ⟨Or.inl ⟨c, hplain c rfl hc, rfl⟩, rfl⟩⟩
  | @escaped c rest hc hrest =>
    exact ⟨['\\', c], rest, rfl, by simp, hrest, fun _ _ => takes_regexUnit.mpr ⟨Or.inr (Or.inl ⟨c, hc, rfl⟩), rfl⟩⟩
  | @among inside rest hinside hrest =>
    exact ⟨'[' :: (inside ++ [']']), rest, by simp, by simp, hrest, fun _ _ =>
      takes_regexUnit.mpr ⟨Or.inr (Or.inr ⟨inside, hinside, rfl⟩), rfl⟩⟩

theorem takes_star_regexUnit :
    (star (regexUnit (Class.except ['/', '\\', '\n', '[']))).Takes prev taken behind parts ↔
      RegexUnits taken ∧ parts = [] := by
  constructor
  · intro h
    have hrounds : TakesRounds (regexUnit (Class.except ['/', '\\', '\n', '['])).Takes prev taken behind parts := h
    clear h
    induction hrounds with
    | none => exact ⟨.nil, rfl⟩
    | more _ _ hround ih =>
      obtain ⟨hunits, rfl⟩ := ih
      exact ⟨hunits.append (.of_takes (fun _ => except_iff.mp) hround), by rw [(takes_regexUnit.mp hround).2]; rfl⟩
  · rintro ⟨h, rfl⟩
    -- The induction is on the length, since a unit may be a whole class of characters.
    induction hlength : taken.length using Nat.strong_induction_on generalizing taken prev with
    | _ n ih =>
      by_cases hne : taken = []
      · subst hne
        exact TakesRounds.none
      · obtain ⟨unit, rest, rfl, hunit, hrest, htakes⟩ := h.exists_head hne fun c _ => except_iff.mpr
        have hpos := List.length_pos_iff.mpr hunit
        rw [List.length_append] at hlength
        exact TakesRounds.head (htakes _ _) hunit (ih rest.length (by omega) hrest rfl)

theorem takes_regexFront : regexFront.Takes prev taken behind parts ↔
    (∃ body, RegexUnits body ∧ body.head? ∉ [none, some '*'] ∧ taken = '/' :: (body ++ ['/'])) ∧ parts = [] := by
  constructor
  · rintro ⟨_, _, _, _, ⟨_, rounds, _, _, ⟨_, unit, _, _, hopen, hunit, rfl, rfl⟩, hrounds, rfl, rfl⟩, hclose, rfl, rfl⟩
    obtain ⟨rfl, rfl⟩ := (takes_char '/').mp hopen
    obtain ⟨rfl, rfl⟩ := (takes_char '/').mp hclose
    obtain ⟨hunits, rfl⟩ := takes_star_regexUnit.mp hrounds
    have hfirst : RegexUnits unit := .of_takes (fun c hc => by simp_all [Class.except]) hunit
    obtain ⟨hcases, rfl⟩ := takes_regexUnit.mp hunit
    refine ⟨⟨unit ++ rounds, hfirst.append hunits, ?_, by simp⟩, rfl⟩
    rcases hcases with ⟨c, hc, rfl⟩ | ⟨c, -, rfl⟩ | ⟨inside, -, rfl⟩
    · have hstar : c ≠ '*' := by
        rintro rfl
        exact absurd hc (by decide)
      simpa using hstar
    · simp
    · simp
  · rintro ⟨⟨body, hunits, hhead, rfl⟩, rfl⟩
    have hne : body ≠ [] := by
      rintro rfl
      exact hhead List.mem_cons_self
    have hplain : ∀ c ∈ body.head?, c ∉ ['/', '\\', '\n', '['] →
        Class.except ['/', '\\', '\n', '[', '*'] c = true := by
      intro c hc hnot
      rw [hc] at hhead
      rw [except_iff]
      simp_all
    obtain ⟨unit, rest, rfl, -, hrest, htakes⟩ := hunits.exists_head hne hplain
    exact ⟨'/' :: (unit ++ rest), ['/'], [], [], ⟨'/' :: unit, rest, [], [], ⟨['/'], unit, [], [],
      (takes_char '/').mpr ⟨rfl, rfl⟩, htakes _ _, rfl, rfl⟩, takes_star_regexUnit.mpr ⟨hrest, rfl⟩, rfl, rfl⟩,
      (takes_char '/').mpr ⟨rfl, rfl⟩, rfl, rfl⟩

/-- Where no regular expression begins, none is found. -/
theorem matchAt_regexLiteral_eq_none (h : ¬ StartsRegex prev text) : regexLiteral.matchAt index prev text = none := by
  rw [Option.eq_none_iff_forall_ne_some]
  intro found hfound
  rw [regexLiteral_eq] at hfound
  obtain ⟨lead, inside, behind, _, _, rfl, hlead, hinside, -, -⟩ := exists_of_matchAt_label_run hfound
  obtain ⟨hleads, -⟩ := takes_leadPattern.mp hlead
  obtain ⟨⟨body, hunits, hhead, rfl⟩, -⟩ := takes_regexFront.mp hinside
  exact h ⟨lead, body, behind, by simp, hleads, hunits, hhead⟩

/-- A regular expression is found with what it follows, and it is set aside with all of its flags. -/
theorem exists_matchAt_regex {flags : List Char} (hlead : leads prev lead = true) (hunits : RegexUnits body)
    (hhead : body.head? ∉ [none, some '*']) (hflags : flags.all Class.letter = true)
    (hbehind : behind.head?.any Class.letter = false) (index : Nat) :
    ∃ found, regexLiteral.matchAt index prev (lead ++ '/' :: (body ++ '/' :: flags) ++ behind) = some found ∧
      found.text = lead ++ '/' :: (body ++ '/' :: flags) ∧
      (found.label? .literal).map Span.text = some ('/' :: (body ++ '/' :: flags)) := by
  have htakes : regexLiteral.Takes prev (lead ++ '/' :: (body ++ '/' :: flags)) behind
      [(.literal, '/' :: (body ++ '/' :: flags))] := by
    have hfront : ∀ prev behind, regexFront.Takes prev ('/' :: (body ++ ['/'])) behind [] := fun _ _ =>
      takes_regexFront.mpr ⟨⟨body, hunits, hhead, rfl⟩, rfl⟩
    exact ⟨lead, _, [], _, takes_leadPattern.mpr ⟨hlead, rfl⟩, ⟨[], ⟨_, flags, [], [], hfront _ _,
      ⟨List.all_eq_true.mp hflags, rfl⟩, by simp, rfl⟩, rfl⟩, rfl, rfl⟩
  have hsome : (regexLiteral.matchAt index prev (lead ++ '/' :: (body ++ '/' :: flags) ++ behind)).isSome = true :=
    matchAt_isSome_iff.mpr ⟨_, behind, _, rfl, htakes⟩
  obtain ⟨found, hfound⟩ := Option.isSome_iff_exists.mp hsome
  refine ⟨found, hfound, ?_⟩
  -- Some way through the pattern is found. Where it leads is settled by the first slash, and by where the units end.
  rw [regexLiteral_eq] at hfound
  obtain ⟨lead', inside, behind', _, _, htext, hlead', hinside, hfoundText, hlabel⟩ :=
    exists_of_matchAt_label_run hfound
  obtain ⟨hleads, -⟩ := takes_leadPattern.mp hlead'
  obtain ⟨⟨body', hunits', -, rfl⟩, -⟩ := takes_regexFront.mp hinside
  simp only [List.cons_append, List.append_assoc] at htext
  obtain ⟨htake, hdrop⟩ := takeWhile_of_leads hlead (body ++ '/' :: (flags ++ behind))
  obtain ⟨htake', hdrop'⟩ := takeWhile_of_leads hleads (body' ++ '/' :: behind')
  obtain rfl : lead = lead' := by rw [← htake, ← htake', htext]; rfl
  have hrest : body ++ '/' :: (flags ++ behind) = body' ++ '/' :: behind' := by
    simpa using htext
  obtain ⟨rfl, rfl⟩ := hunits.eq_of_append_eq hunits' hrest
  obtain ⟨hrun, -⟩ := takeWhile_append_of_head (List.all_eq_true.mp hflags) hbehind
  rw [hrun] at hfoundText hlabel
  exact ⟨by simpa using hfoundText, by simpa using hlabel⟩

/-! ### The lexer -/

/-- What the lexer finds where there is no comment. -/
def literal : Pattern := Lexer.quoted <|> template <|> regexLiteral

theorem literal_matchAt (index : Nat) (prev : Option Char) (text : List Char) :
    literal.matchAt index prev text = (((Lexer.quotedBy '"').matchAt index prev text).or
      ((Lexer.quotedBy '\'').matchAt index prev text)).or
        ((template.matchAt index prev text).or (regexLiteral.matchAt index prev text)) := by
  have hpattern : literal =
      alt (alt (Lexer.quotedBy '"') (Lexer.quotedBy '\'')) (alt template regexLiteral) := rfl
  rw [hpattern, matchAt_alt, matchAt_alt, matchAt_alt]

theorem lexer_matchAt (index : Nat) (prev : Option Char) (text : List Char) :
    lexer.pattern.matchAt index prev text =
      ((label .comment comment).matchAt index prev text).or (literal.matchAt index prev text) :=
  matchAt_alt (label .comment comment) literal index prev text

theorem opensWith_template : template.OpensWith ['\x60'] := ((opensWith_char '\x60').append _).append _

/-- What begins with no quote can only be a regular expression. -/
theorem literal_matchAt_of_not_isQuote {c : Char} (hc : isQuote c = false) (index : Nat) (prev : Option Char)
    (rest : List Char) : literal.matchAt index prev (c :: rest) = regexLiteral.matchAt index prev (c :: rest) := by
  simp only [isQuote, Bool.or_eq_false_iff, beq_eq_false_iff_ne] at hc
  obtain ⟨⟨hdouble, hsingle⟩, hback⟩ := hc
  rw [literal_matchAt, (opensWith_quotedBy '"').matchAt_eq_none (by simp [hdouble.symm]),
    (opensWith_quotedBy '\'').matchAt_eq_none (by simp [hsingle.symm]),
    opensWith_template.matchAt_eq_none (by simp [hback.symm])]
  rfl

/-- The lexer finds nothing in the code of a plain source. -/
theorem lexer_matchAt_eq_none {c : Char} {rest : List Char} (hquote : isQuote c = false)
    (hcomment : startsComment (c :: rest) = false) (hregex : ¬ StartsRegex prev (c :: rest)) (index : Nat) :
    lexer.pattern.matchAt index prev (c :: rest) = none := by
  rw [lexer_matchAt, matchAt_comment_eq_none hcomment, literal_matchAt_of_not_isQuote hquote,
    matchAt_regexLiteral_eq_none hregex]
  rfl

/-- It finds every comment, and strips it or sets it aside. -/
theorem IsComment.exists_lexer_matchAt (h : IsComment text behind) (index : Nat) (prev : Option Char) :
    ∃ found, lexer.pattern.matchAt index prev (text ++ behind) = some found ∧ found.text = text ∧
      ∀ stripComments literals, MaskedText.replaceMatch lexer stripComments literals found =
        if stripComments then (Lexer.leaveBreak text, literals)
        else (Placeholder.render literals.size, literals.push text) := by
  obtain ⟨found, hfound, htext⟩ := h.exists_matchAt index prev
  obtain ⟨span, _, _, hspan, -, hspanText, -⟩ := Match.exists_label hfound
  refine ⟨found, by rw [lexer_matchAt, hfound, Option.some_or], htext, fun stripComments literals => ?_⟩
  have hstrip : lexer.strip = Lexer.stripAll := rfl
  rw [MaskedText.replaceMatch, hspan]
  cases stripComments with
  | true => simp [hstrip, Lexer.stripAll, hspanText, htext]
  | false => simp [MaskedText.setAside, htext]

/-- No literal begins like a comment. -/
theorem IsLiteral.startsComment_eq_false (h : IsLiteral prev lead text behind) :
    startsComment (lead ++ text ++ behind) = false := by
  have hslash : ∀ {c : Char} {rest : List Char}, c ≠ '/' → startsComment (c :: rest) = false := fun hc => by
    simp [startsComment_eq_false_iff, hc.symm]
  cases h with
  | string hquote _ => rcases hquote with rfl | rfl <;> exact hslash (by decide)
  | template _ => exact hslash (by decide)
  | regex hlead hunits hhead _ _ =>
    cases lead with
    | nil =>
      obtain ⟨c, rest, rfl, hc⟩ := hunits.exists_cons hhead
      simp only [List.mem_cons, List.not_mem_nil, or_false, not_or] at hc
      simp [startsComment_eq_false_iff, Ne.symm hc.1, Ne.symm hc.2]
    | cons d lead =>
      have hd : d ≠ '/' := by
        rintro rfl
        cases isQuiet_of_leads hlead '/' List.mem_cons_self
      exact hslash hd

/-- A string or a template is set aside as a whole. -/
theorem setAsideMatch_eq {pattern : Pattern} {found : Match} (hlacks : pattern.lacks .literal = true)
    (hfound : pattern.matchAt index prev (text ++ behind) = some found) (htext : found.text = text)
    (literals : Array (List Char)) :
    MaskedText.setAsideMatch literals found = ([] ++ Placeholder.render literals.size, literals.push text) :=
  htext ▸ MaskedText.setAsideMatch_of_eq_none (Match.label?_eq_none hlacks hfound) literals

theorem exists_matchAt_string {quote : Char} (hquote : quote = '"' ∨ quote = '\'')
    (h : EscapedUnits (Class.except [quote, '\\', '\n']) Class.any body) (index : Nat) (prev : Option Char)
    (behind : List Char) : ∃ found, literal.matchAt index prev (quote :: (body ++ [quote]) ++ behind) = some found ∧
      found.text = quote :: (body ++ [quote]) ∧ ∀ literals, MaskedText.setAsideMatch literals found =
        ([] ++ Placeholder.render literals.size, literals.push (quote :: (body ++ [quote]))) := by
  have hplain : Class.except [quote, '\\', '\n'] quote = false := by simp [Class.except]
  have hslash : quote ≠ '\\' := by rcases hquote with rfl | rfl <;> decide
  obtain ⟨found, hmatch, htext⟩ := h.exists_matchAt hplain hslash quote index prev behind
  have hfound : (Lexer.quotedBy quote).matchAt index prev (quote :: (body ++ [quote]) ++ behind) = some found := hmatch
  refine ⟨found, ?_, htext, setAsideMatch_eq rfl hfound htext⟩
  rw [literal_matchAt]
  rcases hquote with rfl | rfl
  · rw [hfound]
    rfl
  · rw [(opensWith_quotedBy '"').matchAt_eq_none (by simp), hfound]
    rfl

theorem exists_matchAt_template (h : EscapedUnits (Class.except ['\x60', '\\']) Class.any body) (index : Nat)
    (prev : Option Char) (behind : List Char) :
    ∃ found, literal.matchAt index prev ('\x60' :: (body ++ ['\x60']) ++ behind) = some found ∧
      found.text = '\x60' :: (body ++ ['\x60']) ∧ ∀ literals, MaskedText.setAsideMatch literals found =
        ([] ++ Placeholder.render literals.size, literals.push ('\x60' :: (body ++ ['\x60']))) := by
  have hplain : Class.except ['\x60', '\\'] '\x60' = false := by decide
  obtain ⟨found, hmatch, htext⟩ := h.exists_matchAt hplain (by decide) '\x60' index prev behind
  have hfound : template.matchAt index prev ('\x60' :: (body ++ ['\x60']) ++ behind) = some found := hmatch
  refine ⟨found, ?_, htext, setAsideMatch_eq rfl hfound htext⟩
  rw [literal_matchAt, (opensWith_quotedBy '"').matchAt_eq_none (by simp),
    (opensWith_quotedBy '\'').matchAt_eq_none (by simp), hfound]
  rfl

/-- Every literal is found, with what a regular expression follows. -/
theorem IsLiteral.exists_matchAt (h : IsLiteral prev lead text behind) (index : Nat) :
    ∃ found, literal.matchAt index prev (lead ++ text ++ behind) = some found ∧ found.text = lead ++ text ∧
      ∀ literals, MaskedText.setAsideMatch literals found =
        (lead ++ Placeholder.render literals.size, literals.push text) := by
  cases h with
  | string hquote hunits => exact exists_matchAt_string hquote hunits index prev behind
  | template hunits => exact exists_matchAt_template hunits index prev behind
  | regex hlead hunits hhead hflags hbehind =>
    obtain ⟨found, hfound, htext, hlabel⟩ := exists_matchAt_regex hlead hunits hhead hflags hbehind index
    have hslash : '/' ∉ lead := fun hmem => nomatch isQuiet_of_leads hlead '/' hmem
    refine ⟨found, ?_, htext, MaskedText.setAsideMatch_of_not_mem hfound hlabel htext hslash⟩
    rw [← hfound]
    cases lead with
    | nil => exact literal_matchAt_of_not_isQuote rfl index prev _
    | cons d lead =>
      have hd : isQuote d = false := (isQuietChar_iff.mp (isQuiet_of_leads hlead d List.mem_cons_self)).1
      exact literal_matchAt_of_not_isQuote hd index prev _

/-- It finds every literal, and sets it aside. -/
theorem IsLiteral.exists_lexer_matchAt (h : IsLiteral prev lead text behind) (index : Nat) :
    ∃ found, lexer.pattern.matchAt index prev (lead ++ text ++ behind) = some found ∧ found.text = lead ++ text ∧
      ∀ stripComments literals, MaskedText.replaceMatch lexer stripComments literals found =
        (lead ++ Placeholder.render literals.size, literals.push text) := by
  obtain ⟨found, hfound, htext, hset⟩ := h.exists_matchAt index
  refine ⟨found, ?_, htext, fun stripComments literals => ?_⟩
  · rw [lexer_matchAt, matchAt_comment_eq_none h.startsComment_eq_false, hfound, Option.none_or]
  · rw [MaskedText.replaceMatch, Match.label?_eq_none (by decide) hfound]
    exact hset literals

end Minifier.Script
