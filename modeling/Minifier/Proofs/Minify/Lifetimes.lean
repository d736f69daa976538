import Minifier.Proofs.Minify.Literals
import Minifier.Proofs.Minify.QuotedLiterals
import Minifier.Proofs.Script.Reading

/-!
Comments beside lifetimes. In Rust an apostrophe opens a character, or it begins the name of a lifetime. The lexer does
not tell these apart: it takes an apostrophe for the opening of a literal if another one closes it on its line. So two
lifetimes on a line are set aside as one literal, which changes nothing in the code around them. But a comment behind a
lifetime may hold the other apostrophe. It is then no comment to the lexer, and where line breaks go, the code on the
next lines becomes part of it.
-/

namespace Minifier.Generic

open Pattern
open Script (isQuote startsComment IsComment)

variable {index : Nat} {prev : Option Char} {text before behind code inside rest : List Char} {c quote : Char}

/-! ### Apostrophes -/

/-- What the lexer takes between two apostrophes: text within a line, with escapes. -/
def Between (text : List Char) : Prop := EscapedUnits (Class.except ['\'', '\\', '\n']) Class.any text

/-- Whether a text has an apostrophe that closes one in front of it. -/
def Closes (text : List Char) : Prop := ∃ inside rest, Between inside ∧ text = inside ++ '\'' :: rest

theorem closes_cons_iff (hc : Class.except ['\'', '\\', '\n'] c = true) : Closes (c :: rest) ↔ Closes rest := by
  constructor
  · rintro ⟨inside, more, hinside, htext⟩
    cases hinside with
    | nil =>
      obtain ⟨rfl, -⟩ := List.cons.inj htext
      cases hc
    | plain _ hrest => exact ⟨_, more, hrest, (List.cons.inj htext).2⟩
    | escaped =>
      obtain ⟨rfl, -⟩ := List.cons.inj htext
      cases hc
  · rintro ⟨inside, more, hinside, rfl⟩
    exact ⟨c :: inside, more, .plain hc hinside, rfl⟩

theorem closes_escaped_iff : Closes ('\\' :: c :: rest) ↔ Closes rest := by
  constructor
  · rintro ⟨inside, more, hinside, htext⟩
    cases hinside with
    | nil => cases htext
    | plain hslash _ =>
      obtain ⟨rfl, -⟩ := List.cons.inj htext
      cases hslash
    | escaped _ _ hrest => exact ⟨_, more, hrest, (List.cons.inj (List.cons.inj htext).2).2⟩
  · rintro ⟨inside, more, hinside, rfl⟩
    exact ⟨'\\' :: c :: inside, more, .escaped rfl rfl hinside, rfl⟩

/-- What stands in front of the closing apostrophe plays no role. -/
theorem Between.closes_append_iff (h : Between inside) : Closes (inside ++ rest) ↔ Closes rest := by
  induction h with
  | nil => rfl
  | plain hc _ ih => exact (closes_cons_iff hc).trans ih
  | escaped _ _ _ ih => exact closes_escaped_iff.trans ih

/-! ### What the lexer finds -/

theorem lexer_matchAt (index : Nat) (prev : Option Char) (text : List Char) :
    (lexer .cFamily).pattern.matchAt index prev text =
      ((label .comment Script.comment).matchAt index prev text).or (literals.matchAt index prev text) :=
  matchAt_alt (label .comment Script.comment) literals index prev text

/-- An apostrophe that nothing closes opens no literal. -/
theorem matchAt_apostrophe_eq_none (h : ¬ Closes rest) (index : Nat) (prev : Option Char) :
    (Lexer.quotedBy '\'').matchAt index prev ('\'' :: rest) = none := by
  rw [Option.eq_none_iff_forall_ne_some]
  intro found hfound
  obtain ⟨behind, _, htext, htakes, -⟩ := Match.exists_takes hfound
  obtain ⟨⟨body, hbody, hfoundText⟩, -⟩ := takes_units.mp htakes
  rw [hfoundText, List.cons_append, List.append_assoc] at htext
  exact h ⟨body, behind, hbody, (List.cons.inj htext).2⟩

/-- No literal opens but at a quote, and none at an apostrophe that nothing closes. -/
theorem literals_matchAt_eq_none (h : isQuote c = false ∨ c = '\'' ∧ ¬ Closes rest) (index : Nat) (prev : Option Char) :
    literals.matchAt index prev (c :: rest) = none := by
  rcases h with hquote | ⟨rfl, hopen⟩
  · exact literals_matchAt_of_not_isQuote hquote index prev rest
  · have htriple : ¬ ['\'', '\'', '\''] <+: '\'' :: rest := by
      rintro ⟨more, hmore⟩
      exact hopen ⟨[], '\'' :: more, .nil, (List.cons.inj hmore).2.symm⟩
    rw [literals_matchAt, (opensWith_tripleQuoted '"').matchAt_eq_none (by simp),
      (opensWith_tripleQuoted '\'').matchAt_eq_none htriple,
      (opensWith_quotedBy '"').matchAt_eq_none (by simp), matchAt_apostrophe_eq_none hopen,
      opensWith_backtickQuoted.matchAt_eq_none (by simp)]
    rfl

/-! ### Sources -/

/-- A string or a character, or what stands from one lifetime to the next on its line. Two quotes are empty text unless
a third one stands behind them. -/
inductive IsLiteral : List Char → List Char → Prop where
  | mk {quote : Char} {body behind : List Char} : quote = '"' ∨ quote = '\'' →
      EscapedUnits (Class.except [quote, '\\', '\n']) Class.any body → (body = [] → behind.head? ≠ some quote) →
      IsLiteral (quote :: (body ++ [quote])) behind

/-- Code in front of a text, at no place of which a comment or a literal begins. An apostrophe in it begins a lifetime,
and nothing closes it on its line. -/
def IsCode (code behind : List Char) : Prop :=
  match code with
  | [] => True
  | c :: rest =>
    (isQuote c = false ∨ c = '\'' ∧ ¬ Closes (rest ++ behind)) ∧ startsComment (c :: (rest ++ behind)) = false ∧
      IsCode rest behind

/-- Whether a piece of a source is what it is called, in front of a text. -/
def IsPiece (behind : List Char) : Script.Piece → Prop
  | .code text => IsCode text behind
  | .comment text => IsComment text behind
  | .literal lead text => lead = [] ∧ IsLiteral text behind

/-- Whether no piece of a source in front of a text can be taken for another. -/
def IsSource : Script.Source → List Char → Prop
  | [], _ => True
  | piece :: rest, behind => IsPiece (Script.Source.text rest ++ behind) piece ∧ IsSource rest behind

theorem IsCode.of_isQuiet (h : code.all Script.isQuietChar = true) : IsCode code behind := by
  induction code with
  | nil => trivial
  | cons c rest ih =>
    obtain ⟨hc, hrest⟩ := Bool.and_eq_true_iff.mp h
    obtain ⟨hquote, hslash, -⟩ := Script.isQuietChar_iff.mp hc
    exact ⟨Or.inl hquote, by simp [Script.startsComment_eq_false_iff, hslash.symm], ih hrest⟩

theorem IsSource.append {first second : Script.Source} (h : IsSource first (second.text ++ behind))
    (h' : IsSource second behind) : IsSource (first ++ second) behind := by
  induction first with
  | nil => exact h'
  | cons piece rest ih =>
    obtain ⟨hpiece, hrest⟩ := h
    rw [← List.append_assoc, ← Script.Source.text_append] at hpiece
    exact ⟨hpiece, ih hrest⟩

theorem IsCode.passesOver (h : IsCode code behind) : (lexer .cFamily).pattern.PassesOver prev code behind := by
  induction code generalizing prev with
  | nil => trivial
  | cons c rest ih =>
    obtain ⟨hquote, hcomment, hrest⟩ := h
    refine ⟨fun index => ?_, ih hrest⟩
    rw [lexer_matchAt, Script.matchAt_comment_eq_none hcomment, literals_matchAt_eq_none hquote]
    rfl

theorem exists_cons_of_isComment (h : IsComment text behind) : ∃ more, text = '/' :: more := by
  cases h <;> exact ⟨_, rfl⟩

theorem readsComment (h : IsComment text behind) (prev : Option Char) :
    Script.ReadsComment (lexer .cFamily) prev text behind := by
  intro index
  obtain ⟨found, hfound, htext⟩ := h.exists_matchAt index prev
  obtain ⟨span, _, _, hspan, -, hspanText, -⟩ := Match.exists_label hfound
  obtain ⟨more, rfl⟩ := exists_cons_of_isComment h
  refine ⟨found, by rw [lexer_matchAt, hfound, Option.some_or], htext, fun stripComments literals => ?_⟩
  have hstrip : (lexer .cFamily).strip = stripButShebang := rfl
  rw [MaskedText.replaceMatch, hspan]
  cases stripComments with
  | true => simp [hstrip, stripButShebang, hspanText, htext]
  | false => simp [MaskedText.setAside, htext]

theorem IsLiteral.exists_matchAt (h : IsLiteral text behind) (index : Nat) (prev : Option Char) :
    ∃ found, (lexer .cFamily).pattern.matchAt index prev (text ++ behind) = some found ∧ found.text = text ∧
      literals.matchAt index prev (text ++ behind) = some found := by
  cases h with | @mk quote body _ hquote hbody hempty => ?_
  have hplain : Class.except [quote, '\\', '\n'] quote = false := by simp [Class.except]
  have hslash : quote ≠ '\\' := by rcases hquote with rfl | rfl <;> decide
  have htriple : ¬ StartsTriple quote (quote :: (body ++ [quote]) ++ behind) := by
    rintro ⟨inside, rest, htext⟩
    cases hbody with
    | nil =>
      have hhead : behind.head? = some quote := congrArg List.head? (List.cons.inj (List.cons.inj htext).2).2
      exact hempty rfl hhead
    | plain hc _ =>
      obtain ⟨rfl, -⟩ := List.cons.inj (List.cons.inj htext).2
      rw [hplain] at hc
      cases hc
    | escaped => exact hslash (List.cons.inj (List.cons.inj htext).2).1.symm
  obtain ⟨found, hliteral, htext⟩ := exists_line_matchAt hquote hbody htriple index prev
  have hcomment : startsComment (quote :: (body ++ [quote]) ++ behind) = false := by
    rcases hquote with rfl | rfl <;> rfl
  refine ⟨found, ?_, htext, hliteral⟩
  rw [lexer_matchAt, Script.matchAt_comment_eq_none hcomment, hliteral, Option.none_or]

theorem readsLiteral (h : IsLiteral text behind) (prev : Option Char) :
    Script.ReadsLiteral (lexer .cFamily) prev [] text behind := by
  intro index
  obtain ⟨found, hfound, htext, hliteral⟩ := h.exists_matchAt index prev
  refine ⟨found, hfound, htext, fun stripComments literals => ?_⟩
  rw [MaskedText.replaceMatch, Match.label?_eq_none (by decide) hliteral]
  exact Script.setAsideMatch_eq (by decide) hliteral htext literals

/-- The lexer reads such a source piece by piece. -/
theorem IsSource.isRead {source : Script.Source} (h : IsSource source behind) :
    source.IsRead (lexer .cFamily) prev behind := by
  induction source generalizing prev with
  | nil => trivial
  | cons piece rest ih =>
    obtain ⟨hpiece, hrest⟩ := h
    refine ⟨?_, ih hrest⟩
    cases piece with
    | code text => exact IsCode.passesOver hpiece
    | comment text => exact readsComment hpiece prev
    | literal lead text =>
      obtain ⟨rfl, hliteral⟩ := hpiece
      exact readsLiteral hliteral prev

/-! ### Minified sources -/

variable {source front between : Script.Source} {comment back : List Char}

/-- The minified text of a source is what the rules make of its code, with its literals filled in, and with its
comments unless they go. -/
theorem IsSource.exists_minified (h : IsSource source []) (hclear : Unreserved source.text) (options : Options) :
    (minifyGeneric (String.ofList source.text) .rust options).errors = [] ∧
      ∃ result : Template,
        result.render = (pipeline .rust options).run (source.template options.removeComments 0).render ∧
        result.slots = List.range (source.kept options.removeComments).length ∧
        (minifyGeneric (String.ofList source.text) .rust options).minified.toList =
          result.fill fun index => (source.kept options.removeComments)[index]?.getD [] := by
  have hmask := h.isRead.mask_eq (by decide) hclear options.removeComments
  rw [← String.toList_ofList (l := source.text)] at hmask
  obtain ⟨herrors, result, hrender, hslots, hminified⟩ := @exists_minified_of_mask .rust _ _ _ hmask
  refine ⟨herrors, result, hrender, by simpa using hslots, hminified.trans ?_⟩
  exact Template.fill_congr fun index _ => by simp [Template.literalAt]

/-- The lexer goes through a source and goes on behind it. -/
theorem IsSource.exists_segments (h : IsSource source behind) :
    ∃ done index todo, (lexer .cFamily).pattern.segments (source.text ++ behind) = done ++ todo ∧
      done.flatMap Segment.text = source.text ∧
      Segmented (lexer .cFamily).pattern index source.text.getLast? behind todo ∧
      ∀ stripComments,
        (replaceFrom (MaskedText.replaceMatch (lexer .cFamily) stripComments) (done ++ todo) #[]).2 =
          (replaceFrom (MaskedText.replaceMatch (lexer .cFamily) stripComments) todo
            (source.kept stripComments).toArray).2 := by
  obtain ⟨todo, htodo⟩ := exists_segmented (lexer .cFamily).pattern (0 + source.text.length)
    (source.text.getLast?.or none) behind
  obtain ⟨done, hdone, htext, hreplace⟩ := h.isRead.exists_segmented htodo
  rw [Option.or_none] at htodo
  refine ⟨done, _, todo, (segments_segmented _ _).unique (by decide) hdone, htext, htodo, fun stripComments => ?_⟩
  rw [hreplace]
  simp

/-! ### Comments behind lifetimes -/

/-- A lifetime behind a source, and behind its apostrophe the name with other text of the line. -/
def lifetimeText (front between : Script.Source) (behind : List Char) : List Char :=
  front.text ++ '\'' :: (between.text ++ behind)

/-- Whether the lexer finds a comment between two texts. -/
def FindsComment (text before comment behind : List Char) : Prop :=
  ∃ done found todo, (lexer .cFamily).pattern.segments text = done ++ .hit found :: todo ∧
    (found.label? .comment).isSome = true ∧ done.flatMap Segment.text = before ∧ found.text = comment ∧
    todo.flatMap Segment.text = behind

/-- A comment is found behind a lifetime that nothing closes. -/
theorem findsComment_of_not_closes (hfront : IsSource front ('\'' :: (between.text ++ (comment ++ back))))
    (hbetween : IsSource between (comment ++ back)) (hinside : Between between.text) (hcomment : IsComment comment back)
    (hopen : ¬ Closes (comment ++ back)) :
    FindsComment (lifetimeText front between (comment ++ back)) (front.text ++ '\'' :: between.text)
      comment back := by
  have hlifetime : IsSource (.code ['\''] :: between) (comment ++ back) :=
    ⟨⟨Or.inr ⟨rfl, mt hinside.closes_append_iff.mp hopen⟩, rfl, trivial⟩, hbetween⟩
  have hsource : IsSource (front ++ .code ['\''] :: between) (comment ++ back) := hfront.append hlifetime
  have htext : Script.Source.text (front ++ .code ['\''] :: between) = front.text ++ '\'' :: between.text :=
    Script.Source.text_append _ _
  obtain ⟨done, index, todo, hsegments, hdone, htodo, -⟩ := hsource.exists_segments
  rw [htext] at hdone hsegments htodo
  obtain ⟨found, hfound, hfoundText⟩ := hcomment.exists_matchAt index (front.text ++ '\'' :: between.text).getLast?
  obtain ⟨span, -, -, hspan, -⟩ := Match.exists_label hfound
  have hmatch : (lexer .cFamily).pattern.matchAt index (front.text ++ '\'' :: between.text).getLast? (comment ++ back) =
      some found := by
    rw [lexer_matchAt, hfound, Option.some_or]
  obtain ⟨rest, rfl, hrest⟩ := htodo.exists_todo_of_matchAt (by decide) hmatch hfoundText
  refine ⟨done, found, rest, ?_, by rw [hspan]; rfl, hdone, hfoundText, hrest⟩
  rw [← hsegments, lifetimeText, List.append_assoc, List.cons_append]

/-- A lifetime that an apostrophe in a comment closes is read as a literal up to there. -/
theorem exists_of_closes (hinside : Between between.text) (hline : ['/', '/'] <+: comment)
    (hcloses : Closes (comment ++ back)) : ∃ inside rest, comment ++ back = '/' :: '/' :: (inside ++ '\'' :: rest) ∧
      IsLiteral ('\'' :: (between.text ++ '/' :: '/' :: (inside ++ ['\'']))) rest := by
  obtain ⟨body, rfl⟩ := hline
  obtain ⟨inside, rest, hcovers, htext⟩ := (closes_cons_iff rfl).mp ((closes_cons_iff rfl).mp hcloses)
  have hbody : Between (between.text ++ '/' :: '/' :: inside) :=
    EscapedUnits.append hinside (.plain rfl (.plain rfl hcovers))
  refine ⟨inside, rest, congrArg ('/' :: '/' :: ·) htext, ?_⟩
  have hliteral := @IsLiteral.mk '\'' _ rest (Or.inr rfl) hbody (by simp)
  simpa using hliteral

/-- What stands between the lifetime and the apostrophe is set aside, so the comment stays. -/
theorem not_findsComment_of_closes (hfront : IsSource front ('\'' :: (between.text ++ (comment ++ back))))
    (hinside : Between between.text) (hline : ['/', '/'] <+: comment) (hcloses : Closes (comment ++ back)) :
    ¬ FindsComment (lifetimeText front between (comment ++ back)) (front.text ++ '\'' :: between.text) comment back := by
  rintro ⟨done', found', todo', hsegments', -, hdone', -, -⟩
  obtain ⟨inside, rest, htext, hliteral⟩ := exists_of_closes hinside hline hcloses
  rw [htext] at hfront hsegments'
  obtain ⟨done, index, todo, hsegments, hdone, htodo, -⟩ := hfront.exists_segments
  obtain ⟨found, hfound, hfoundText, -⟩ := hliteral.exists_matchAt index front.text.getLast?
  have hbehind : '\'' :: (between.text ++ '/' :: '/' :: (inside ++ '\'' :: rest)) =
      '\'' :: (between.text ++ '/' :: '/' :: (inside ++ ['\''])) ++ rest := by simp
  rw [lifetimeText, hbehind] at hsegments'
  rw [hbehind] at htodo hsegments
  obtain ⟨more, rfl, -⟩ := htodo.exists_todo_of_matchAt (by decide) hfound hfoundText
  -- The place of the comment lies inside the literal.
  have hliteralText : (Segment.hit found).text = '\'' :: (between.text ++ '/' :: '/' :: (inside ++ ['\''])) :=
    hfoundText
  have hreach := eq_or_length_le_of_segments (hsegments.symm.trans hsegments')
  rw [hdone, hdone', hliteralText] at hreach
  simp only [List.length_append, List.length_cons, List.length_nil] at hreach
  rcases hreach with ⟨hsame, -⟩ | hover | hover
  · rw [hsame, hdone'] at hdone
    simp at hdone
  · omega
  · omega

/-- What stands between the lifetime and the apostrophe stands in the minified text as it was. -/
theorem infix_minified_of_closes (hfront : IsSource front ('\'' :: (between.text ++ (comment ++ back))))
    (hinside : Between between.text) (hline : ['/', '/'] <+: comment) (hcloses : Closes (comment ++ back))
    (hclear : Unreserved (lifetimeText front between (comment ++ back))) (options : Options) :
    ∃ inside rest, comment ++ back = '/' :: '/' :: (inside ++ '\'' :: rest) ∧
      '\'' :: (between.text ++ '/' :: '/' :: (inside ++ ['\''])) <:+: (minifyGeneric
        (String.ofList (lifetimeText front between (comment ++ back))) .rust options).minified.toList := by
  obtain ⟨inside, rest, htext, hliteral⟩ := exists_of_closes hinside hline hcloses
  refine ⟨inside, rest, htext, ?_⟩
  generalize hliteralText : '\'' :: (between.text ++ '/' :: '/' :: (inside ++ ['\''])) = literal at hliteral
  have hbehind : '\'' :: (between.text ++ (comment ++ back)) = literal ++ rest := by simp [htext, ← hliteralText]
  rw [lifetimeText, hbehind] at hclear ⊢
  rw [hbehind] at hfront
  obtain ⟨done, index, todo, hsegments, -, htodo, hliterals⟩ := hfront.exists_segments
  obtain ⟨found, hfound, hfoundText, hset⟩ := readsLiteral hliteral front.text.getLast? index
  obtain ⟨more, rfl, -⟩ := htodo.exists_todo_of_matchAt (by decide) hfound hfoundText
  obtain ⟨masked, hmask⟩ := MaskedText.exists_mask (lexer .cFamily) options.removeComments (not_or.mpr hclear)
  have hkept : ((front.kept options.removeComments).toArray.push literal).toList <+: masked.literals.toList := by
    have hreserved := mt MaskedText.reserved_iff.mp (not_or.mpr hclear)
    rw [MaskedText.mask, if_neg hreserved, MaskedText.replaceSegments_eq] at hmask
    obtain rfl := Except.ok.inj hmask
    rw [hsegments, hliterals, replaceFrom, hset]
    exact MaskedText.literals_prefix_replaceFrom _ _ _ _
  rw [← String.toList_ofList (l := front.text ++ (literal ++ rest))] at hmask
  obtain ⟨-, result, -, hslots, hminified⟩ := @exists_minified_of_mask .rust _ _ _ hmask
  obtain ⟨last, hlast⟩ := hkept
  have hsize : (front.kept options.removeComments).length < masked.literals.size := by
    rw [← Array.length_toList, ← hlast]
    simp
  have hvalue : Template.literalAt masked.literals (front.kept options.removeComments).length = literal := by
    rw [Template.literalAt, ← Array.getElem?_toList, ← hlast]
    simp
  rw [hminified, ← hvalue]
  exact Template.infix_fill (hslots ▸ List.mem_range.mpr hsize)

/-- In a line without a backslash the first apostrophe closes what is open. -/
theorem closes_line_iff {line : List Char} (hline : '\n' ∉ line) (hslash : '\\' ∉ line)
    (hrest : rest = [] ∨ rest.head? = some '\n') : Closes (line ++ rest) ↔ '\'' ∈ line := by
  induction line with
  | nil =>
    refine iff_of_false ?_ List.not_mem_nil
    rintro ⟨inside, more, hinside, rfl⟩
    cases hinside with
    | nil => simp at hrest
    | plain hc _ =>
      obtain rfl : _ = '\n' := by simpa using hrest
      cases hc
    | escaped => simp at hrest
  | cons c line ih =>
    obtain ⟨hbreak, hline⟩ := not_or.mp (mt List.mem_cons.mpr hline)
    obtain ⟨hback, hslash⟩ := not_or.mp (mt List.mem_cons.mpr hslash)
    by_cases hc : c = '\''
    · subst hc
      exact iff_of_true ⟨[], line ++ rest, .nil, rfl⟩ List.mem_cons_self
    · have hplain : Class.except ['\'', '\\', '\n'] c = true := by
        simp [Class.except, hc, Ne.symm hbreak, Ne.symm hback]
      rw [List.cons_append, closes_cons_iff hplain, ih hline hslash, List.mem_cons, or_iff_right (Ne.symm hc)]

/-- In a comment without a backslash every apostrophe closes what is open. -/
theorem closes_comment_iff (hcomment : IsComment comment back) (hline : ['/', '/'] <+: comment)
    (hslash : '\\' ∉ comment) : Closes (comment ++ back) ↔ '\'' ∈ comment := by
  cases hcomment with
  | block => simp at hline
  | @line body indentation _ hbody hindentation _ =>
    have hnone : '\'' ∉ '\n' :: indentation := by
      intro hmem
      rcases List.mem_cons.mp hmem with hbreak | hblank
      · cases hbreak
      · exact absurd (List.all_eq_true.mp hindentation _ hblank) (by decide)
    have hsplit : '/' :: '/' :: (body ++ '\n' :: indentation) = ('/' :: '/' :: body) ++ '\n' :: indentation := rfl
    rw [hsplit] at hslash ⊢
    have hfront : '\\' ∉ '/' :: '/' :: body := fun hmem => hslash (List.mem_append_left _ hmem)
    rw [List.append_assoc, closes_line_iff (by simpa using hbody) hfront (Or.inr rfl), List.mem_append,
      or_iff_left hnone]
  | lastLine hbody => exact closes_line_iff (by simpa using hbody) hslash (Or.inl rfl)

/-- A source is minified without an error. Its literals are set aside, and its comments unless they go, in which case
they leave a line break or a space, and its code is what the rules see. In such a source every lifetime is alone on its
line or is read together with the next one there.

Where a comment follows a lifetime on its line, it is found exactly if no apostrophe in it closes the lifetime;
without a backslash any apostrophe does so. Then what stands between the lifetime and the apostrophe is taken for a
literal, with the opening of the comment in it, and it stands in the minified text as it was. -/
theorem comments_beside_lifetimes (options : Options) :
    (∀ source : Script.Source, IsSource source [] → Unreserved source.text →
        (minifyGeneric (String.ofList source.text) .rust options).errors = [] ∧
          ∃ result : Template,
            result.render = (pipeline .rust options).run (source.template options.removeComments 0).render ∧
            result.slots = List.range (source.kept options.removeComments).length ∧
            (minifyGeneric (String.ofList source.text) .rust options).minified.toList =
              result.fill fun index => (source.kept options.removeComments)[index]?.getD []) ∧
      ∀ (front between : Script.Source) (comment back : List Char),
        IsSource front ('\'' :: (between.text ++ (comment ++ back))) → IsSource between (comment ++ back) →
        Between between.text → IsComment comment back → ['/', '/'] <+: comment →
          (FindsComment (lifetimeText front between (comment ++ back)) (front.text ++ '\'' :: between.text) comment
              back ↔ ¬ Closes (comment ++ back)) ∧
          ('\\' ∉ comment → (Closes (comment ++ back) ↔ '\'' ∈ comment)) ∧
          (Closes (comment ++ back) → Unreserved (lifetimeText front between (comment ++ back)) →
            ∃ inside rest, comment ++ back = '/' :: '/' :: (inside ++ '\'' :: rest) ∧
              '\'' :: (between.text ++ '/' :: '/' :: (inside ++ ['\''])) <:+: (minifyGeneric
                (String.ofList (lifetimeText front between (comment ++ back))) .rust options).minified.toList) := by
  refine ⟨fun source h hclear => h.exists_minified hclear options, ?_⟩
  intro front between comment back hfront hbetween hinside hcomment hline
  refine ⟨⟨fun hfinds hcloses => ?_, findsComment_of_not_closes hfront hbetween hinside hcomment⟩,
    closes_comment_iff hcomment hline, fun hcloses hclear => ?_⟩
  · exact not_findsComment_of_closes hfront hinside hline hcloses hfinds
  · exact infix_minified_of_closes hfront hinside hline hcloses hclear options

/-- Two lifetimes, a character and a comment with an apostrophe on one line. -/
def rustSource : Script.Source :=
  [.code "fn f<".toList, .literal [] "'a>(x: &'".toList, .code "a str) \x7b x == ".toList, .literal [] "'y'".toList,
    .code " \x7d ".toList, .comment "// don't\n".toList, .code "fn g() \x7b\x7d\n".toList]

/-- A lifetime and a comment with an apostrophe on one line. -/
def staticText : String := "fn f(x: &'static str) \x7b\x7d // don't\nfn g() \x7b\x7d\n"

theorem comments_beside_lifetimes_rustSource :
    IsSource rustSource [] ∧ Unreserved rustSource.text ∧
      (minifyGeneric (String.ofList rustSource.text) .rust {}).errors = [] ∧
      (∃ result : Template, result.render = (pipeline .rust {}).run (rustSource.template true 0).render ∧
        result.slots = List.range 2 ∧ (minifyGeneric (String.ofList rustSource.text) .rust {}).minified.toList =
          result.fill fun index => (rustSource.kept true)[index]?.getD []) ∧
      ¬ FindsComment staticText.toList "fn f(x: &'static str) \x7b\x7d ".toList "// don't\n".toList
        "fn g() \x7b\x7d\n".toList := by
  have hcomment : IsComment "// don't\n".toList "fn g() \x7b\x7d\n".toList :=
    @IsComment.line " don't".toList [] _ (by decide) rfl rfl
  have hplain : IsSource rustSource [] := by
    refine ⟨.of_isQuiet rfl, ⟨rfl, ?_⟩, .of_isQuiet rfl, ⟨rfl, ?_⟩, .of_isQuiet rfl, hcomment,
      .of_isQuiet rfl, trivial⟩
    · exact @IsLiteral.mk '\'' "a>(x: &".toList _ (Or.inr rfl) (.of_all rfl) nofun
    · exact @IsLiteral.mk '\'' "y".toList _ (Or.inr rfl) (.of_all rfl) nofun
  have hclear : Unreserved rustSource.text := by decide +kernel
  obtain ⟨herrors, hresult⟩ := (comments_beside_lifetimes {}).1 rustSource hplain hclear
  obtain ⟨hfinds, hcloses, -⟩ := (comments_beside_lifetimes {}).2 [.code "fn f(x: &".toList]
    [.code "static str) \x7b\x7d ".toList] "// don't\n".toList "fn g() \x7b\x7d\n".toList
    ⟨.of_isQuiet rfl, trivial⟩ ⟨.of_isQuiet rfl, trivial⟩ (.of_all rfl) hcomment ⟨_, rfl⟩
  exact ⟨hplain, hclear, herrors, hresult,
    fun h => hfinds.mp h ((hcloses (by decide)).mpr (by decide))⟩

/-- The comment stays, and the function on the next line becomes part of it. -/
theorem minifyGeneric_staticText :
    minifyGeneric staticText .rust {} =
      .ofTexts staticText "fn f(x: &'static str) \x7b\x7d // don't fn g()\x7b\x7d" [] := by
  decide +kernel

end Minifier.Generic
