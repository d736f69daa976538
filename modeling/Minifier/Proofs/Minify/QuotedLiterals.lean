import Minifier.Generic
import Minifier.Proofs.Script.Lexemes

/-!
Quoted text in the languages without a minifier of their own: text between triples of a quote, text within a line, in
which a backslash escapes the next character, and text between backticks. Three quotes are tried first, so text within
a line counts as such only where no triple of its quote is closed.
-/

namespace Minifier.Generic

open Pattern

variable {index : Nat} {prev : Option Char} {text body behind : List Char} {quote : Char}

/-! ### What is tried -/

theorem literals_matchAt (index : Nat) (prev : Option Char) (text : List Char) :
    literals.matchAt index prev text = ((tripleQuoted '"').matchAt index prev text).or
      (((tripleQuoted '\'').matchAt index prev text).or ((((Lexer.quotedBy '"').matchAt index prev text).or
        ((Lexer.quotedBy '\'').matchAt index prev text)).or (backtickQuoted.matchAt index prev text))) := by
  have hpattern : literals = alt (tripleQuoted '"') (alt (tripleQuoted '\'')
      (alt (alt (Lexer.quotedBy '"') (Lexer.quotedBy '\'')) backtickQuoted)) := rfl
  rw [hpattern, matchAt_alt, matchAt_alt, matchAt_alt, matchAt_alt]

theorem opensWith_tripleQuoted (quote : Char) : (tripleQuoted quote).OpensWith [quote, quote, quote] := by
  rintro prev taken behind parts ⟨_, _, _, _, ⟨_, _, _, _, ⟨_, _, _, _, ⟨_, _, _, _, hfirst, hsecond, rfl, -⟩, hthird,
    rfl, -⟩, -, rfl, -⟩, -, rfl, -⟩
  obtain ⟨rfl, -⟩ := (takes_char quote).mp hfirst
  obtain ⟨rfl, -⟩ := (takes_char quote).mp hsecond
  obtain ⟨rfl, -⟩ := (takes_char quote).mp hthird
  simp

theorem opensWith_backtickQuoted : backtickQuoted.OpensWith ['\x60'] := ((opensWith_char '\x60').append _).append _

/-- No literal opens but at a quote. -/
theorem literals_matchAt_of_not_isQuote {c : Char} (hc : Script.isQuote c = false) (index : Nat) (prev : Option Char)
    (rest : List Char) : literals.matchAt index prev (c :: rest) = none := by
  simp only [Script.isQuote, Bool.or_eq_false_iff, beq_eq_false_iff_ne] at hc
  obtain ⟨⟨hdouble, hsingle⟩, hback⟩ := hc
  rw [literals_matchAt, (opensWith_tripleQuoted '"').matchAt_eq_none (by simp [hdouble.symm]),
    (opensWith_tripleQuoted '\'').matchAt_eq_none (by simp [hsingle.symm]),
    (opensWith_quotedBy '"').matchAt_eq_none (by simp [hdouble.symm]),
    (opensWith_quotedBy '\'').matchAt_eq_none (by simp [hsingle.symm]),
    opensWith_backtickQuoted.matchAt_eq_none (by simp [hback.symm])]
  rfl

/-- At a quote three of them are tried, and then the one. -/
theorem literals_matchAt_quote (hquote : quote = '"' ∨ quote = '\'') (index : Nat) (prev : Option Char)
    (rest : List Char) : literals.matchAt index prev (quote :: rest) =
      ((tripleQuoted quote).matchAt index prev (quote :: rest)).or
        ((Lexer.quotedBy quote).matchAt index prev (quote :: rest)) := by
  rw [literals_matchAt]
  rcases hquote with rfl | rfl
  · rw [(opensWith_tripleQuoted '\'').matchAt_eq_none (by simp),
      (opensWith_quotedBy '\'').matchAt_eq_none (by simp), opensWith_backtickQuoted.matchAt_eq_none (by simp),
      Option.none_or, Option.or_none, Option.or_none]
  · rw [(opensWith_tripleQuoted '"').matchAt_eq_none (by simp),
      (opensWith_quotedBy '"').matchAt_eq_none (by simp), opensWith_backtickQuoted.matchAt_eq_none (by simp),
      Option.none_or, Option.none_or, Option.or_none]

/-! ### Triples -/

/-- Whether a text begins with three quotes, and three more close them somewhere. -/
def StartsTriple (quote : Char) (text : List Char) : Prop :=
  ∃ inside rest, text = quote :: quote :: quote :: (inside ++ quote :: quote :: quote :: rest)

theorem exists_of_takes_tripleQuoted {taken : List Char} {parts : Parts}
    (h : (tripleQuoted quote).Takes prev taken behind parts) :
    ∃ inside, taken = quote :: quote :: quote :: (inside ++ [quote, quote, quote]) := by
  have htriple : ∀ {prev : Option Char} {taken behind : List Char} {parts : Parts},
      (char quote ++ char quote ++ char quote).Takes prev taken behind parts → taken = [quote, quote, quote] := by
    rintro prev taken behind parts ⟨_, _, _, _, ⟨_, _, _, _, hfirst, hsecond, rfl, -⟩, hthird, rfl, -⟩
    obtain ⟨rfl, -⟩ := (takes_char quote).mp hfirst
    obtain ⟨rfl, -⟩ := (takes_char quote).mp hsecond
    obtain ⟨rfl, -⟩ := (takes_char quote).mp hthird
    rfl
  obtain ⟨_, _, _, _, ⟨_, inside, _, _, hopen, -, rfl, -⟩, hclose, rfl, -⟩ := h
  obtain rfl := htriple hopen
  obtain rfl := htriple hclose
  exact ⟨inside, rfl⟩

theorem tripleQuoted_matchAt_eq_none (h : ¬ StartsTriple quote text) (index : Nat) (prev : Option Char) :
    (tripleQuoted quote).matchAt index prev text = none := by
  rw [Option.eq_none_iff_forall_ne_some]
  intro found hfound
  obtain ⟨behind, _, htext, htakes, -⟩ := Match.exists_takes hfound
  obtain ⟨inside, hinside⟩ := exists_of_takes_tripleQuoted htakes
  exact h ⟨inside, behind, by rw [htext, hinside]; simp⟩

/-- Text between triples ends at the first three quotes. -/
theorem exists_tripleQuoted_matchAt (hquote : quote = '"' ∨ quote = '\'')
    (hbody : ¬ [quote, quote, quote] <:+: body ++ [quote, quote]) (index : Nat) (prev : Option Char)
    (behind : List Char) :
    ∃ found, (tripleQuoted quote).matchAt index prev
        (quote :: quote :: quote :: (body ++ [quote, quote, quote]) ++ behind) = some found ∧
      found.text = quote :: quote :: quote :: (body ++ [quote, quote, quote]) := by
  have hnone : ∀ inside, inside ≠ [] → inside <:+ body →
      ¬ [quote, quote, quote] <+: inside ++ ([quote, quote, quote] ++ behind) := by
    rintro inside hne ⟨before, rfl⟩ hprefix
    refine hbody (List.IsInfix.trans ?_ ⟨before, [], by rw [List.append_nil, List.append_assoc]⟩)
    -- The three quotes that would close begin in the body, so they end two quotes behind it at the latest.
    have hsplit : inside ++ ([quote, quote, quote] ++ behind) = (inside ++ [quote, quote]) ++ quote :: behind := by simp
    rw [hsplit] at hprefix
    refine (List.prefix_of_prefix_length_le hprefix (List.prefix_append _ _) ?_).isInfix
    have hpos := List.length_pos_iff.mpr hne
    simp only [List.length_cons, List.length_nil, List.length_append]
    omega
  have htext : quote :: quote :: quote :: (body ++ [quote, quote, quote]) ++ behind =
      [quote, quote, quote] ++ (body ++ ([quote, quote, quote] ++ behind)) := by simp
  rw [htext]
  rcases hquote with rfl | rfl
  · exact exists_matchAt_of_walk (@walk_enclosed body behind "\"\"\"" "\"\"\"" ⟨index, prev, _, []⟩ some rfl hnone
      fun _ => rfl) htext.symm rfl
  · exact exists_matchAt_of_walk (@walk_enclosed body behind "'''" "'''" ⟨index, prev, _, []⟩ some rfl hnone
      fun _ => rfl) htext.symm rfl

/-! ### Quoted text -/

/-- Quoted text in front of another text. -/
inductive QuotedText : List Char → List Char → Prop where
  | triple {quote : Char} {body behind : List Char} : quote = '"' ∨ quote = '\'' →
      ¬ [quote, quote, quote] <:+: body ++ [quote, quote] →
      QuotedText (quote :: quote :: quote :: (body ++ [quote, quote, quote])) behind
  | line {quote : Char} {body behind : List Char} : quote = '"' ∨ quote = '\'' →
      EscapedUnits (Class.except [quote, '\\', '\n']) Class.any body →
      ¬ StartsTriple quote (quote :: (body ++ [quote]) ++ behind) → QuotedText (quote :: (body ++ [quote])) behind
  | backticks {body behind : List Char} : '\x60' ∉ body → QuotedText ('\x60' :: (body ++ ['\x60'])) behind

theorem exists_backtickQuoted_matchAt (hbody : '\x60' ∉ body) (index : Nat) (prev : Option Char)
    (behind : List Char) : ∃ found, backtickQuoted.matchAt index prev ('\x60' :: (body ++ ['\x60']) ++ behind) =
      some found ∧ found.text = '\x60' :: (body ++ ['\x60']) := by
  have hplain : ∀ c ∈ body, Class.except ['\x60'] c = true := fun c hc =>
    Script.except_iff.mpr fun hmem => hbody (List.mem_singleton.mp hmem ▸ hc)
  have htakes : backtickQuoted.Takes prev ('\x60' :: (body ++ ['\x60'])) behind [] :=
    ⟨'\x60' :: body, ['\x60'], [], [], ⟨['\x60'], body, [], [], (takes_char _).mpr ⟨rfl, rfl⟩, ⟨hplain, rfl⟩, rfl, rfl⟩,
      (takes_char _).mpr ⟨rfl, rfl⟩, rfl, rfl⟩
  have hsome : (backtickQuoted.matchAt index prev ('\x60' :: (body ++ ['\x60']) ++ behind)).isSome = true :=
    matchAt_isSome_iff.mpr ⟨_, behind, _, rfl, htakes⟩
  obtain ⟨found, hfound⟩ := Option.isSome_iff_exists.mp hsome
  refine ⟨found, hfound, ?_⟩
  -- What is taken stops at a backtick and holds none before it.
  obtain ⟨behind', _, htext, ⟨_, _, _, _, ⟨_, inside, _, _, hopen, ⟨hinside, -⟩, rfl, -⟩, hclose, hfoundText, -⟩, -⟩ :=
    Match.exists_takes hfound
  obtain ⟨rfl, -⟩ := (takes_char '\x60').mp hopen
  obtain ⟨rfl, -⟩ := (takes_char '\x60').mp hclose
  rw [hfoundText] at htext ⊢
  obtain ⟨htake, -⟩ := @takeWhile_append_of_head _ _ ('\x60' :: behind) hplain rfl
  obtain ⟨htake', -⟩ := @takeWhile_append_of_head _ _ ('\x60' :: behind') hinside rfl
  have hrest : body ++ '\x60' :: behind = inside ++ '\x60' :: behind' := by simpa using htext
  rw [hrest, htake'] at htake
  rw [htake]
  simp

/-- Text within a line is found where no triple is. -/
theorem exists_line_matchAt (hquote : quote = '"' ∨ quote = '\'')
    (hbody : EscapedUnits (Class.except [quote, '\\', '\n']) Class.any body)
    (htriple : ¬ StartsTriple quote (quote :: (body ++ [quote]) ++ behind)) (index : Nat) (prev : Option Char) :
    ∃ found, literals.matchAt index prev (quote :: (body ++ [quote]) ++ behind) = some found ∧
      found.text = quote :: (body ++ [quote]) := by
  have hplain : Class.except [quote, '\\', '\n'] quote = false := by simp [Class.except]
  have hslash : quote ≠ '\\' := by rcases hquote with rfl | rfl <;> decide
  obtain ⟨found, hmatch, htext⟩ := hbody.exists_matchAt hplain hslash quote index prev behind
  have hfound : (Lexer.quotedBy quote).matchAt index prev (quote :: (body ++ [quote]) ++ behind) = some found := hmatch
  refine ⟨found, ?_, htext⟩
  rw [List.cons_append, literals_matchAt_quote hquote, ← List.cons_append, tripleQuoted_matchAt_eq_none htriple, hfound,
    Option.none_or]

/-- All quoted text is found, and nothing more. -/
theorem QuotedText.exists_matchAt (h : QuotedText text behind) (index : Nat) (prev : Option Char) :
    ∃ found, literals.matchAt index prev (text ++ behind) = some found ∧ found.text = text := by
  cases h with
  | triple hquote hbody =>
    obtain ⟨found, hfound, htext⟩ := exists_tripleQuoted_matchAt hquote hbody index prev behind
    refine ⟨found, ?_, htext⟩
    rw [List.cons_append, literals_matchAt_quote hquote, ← List.cons_append, hfound, Option.some_or]
  | line hquote hbody htriple => exact exists_line_matchAt hquote hbody htriple index prev
  | backticks hbody =>
    obtain ⟨found, hfound, htext⟩ := exists_backtickQuoted_matchAt hbody index prev behind
    refine ⟨found, ?_, htext⟩
    rw [literals_matchAt, (opensWith_tripleQuoted '"').matchAt_eq_none (by simp),
      (opensWith_tripleQuoted '\'').matchAt_eq_none (by simp),
      (opensWith_quotedBy '"').matchAt_eq_none (by simp),
      (opensWith_quotedBy '\'').matchAt_eq_none (by simp), hfound]
    rfl

/-- A quote opens nothing where the text up to the next quote goes on behind the end of its line. -/
theorem literals_matchAt_eq_none_of_break (hquote : quote = '"' ∨ quote = '\'')
    (hbody : EscapedUnits (Class.except [quote, '\\']) Class.any body)
    (hbreak : ¬ EscapedUnits (Class.except [quote, '\\', '\n']) Class.any body)
    (htriple : ¬ StartsTriple quote (quote :: (body ++ quote :: behind))) (index : Nat) (prev : Option Char) :
    literals.matchAt index prev (quote :: (body ++ quote :: behind)) = none := by
  have hplain : Class.except [quote, '\\'] quote = false := by simp [Class.except]
  have hslash : quote ≠ '\\' := by rcases hquote with rfl | rfl <;> decide
  have hnone : (Lexer.quotedBy quote).matchAt index prev (quote :: (body ++ quote :: behind)) = none := by
    rw [Option.eq_none_iff_forall_ne_some]
    intro found hfound
    obtain ⟨behind', _, htext, htakes, -⟩ := Match.exists_takes hfound
    obtain ⟨⟨inside, hinside, hfoundText⟩, -⟩ := takes_units.mp htakes
    have hfewer : ∀ c, Class.except [quote, '\\', '\n'] c = true → Class.except [quote, '\\'] c = true := fun c hc =>
      Script.except_iff.mpr fun hmem => Script.except_iff.mp hc (List.mem_append_left ['\n'] hmem)
    have hwithin := hinside.mono hfewer (by simp [Class.except])
    have hsame : body ++ quote :: behind = inside ++ quote :: behind' := by simpa [hfoundText] using htext
    obtain ⟨rfl, -⟩ := hbody.eq_of_append_eq hplain hslash hwithin hsame
    exact hbreak hinside
  rw [literals_matchAt_quote hquote, tripleQuoted_matchAt_eq_none htriple, hnone, Option.none_or]

end Minifier.Generic
