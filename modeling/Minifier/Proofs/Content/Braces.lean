import Mathlib.Data.List.TakeWhile
import Minifier.Content.Check
import Minifier.Proofs.Worker.Comments
import Minifier.Style

/-!
What the check of a stylesheet counts. It counts braces outside quoted text and comments, but takes two slashes for a
comment up to the end of the line, as in a script, and knows no addresses. So what it says of a stylesheet is what a
reader of stylesheets finds only as long as that reader meets no two slashes, and nothing in an address that the check
would pass over or count.
-/

namespace Minifier.Check

open Pattern

/-! ### Reading from left to right -/

/-- What is left of a text wherever a reader stands who passes over as many characters as `skip` says, and over one
where it says none. The next `busy` characters are passed over already. -/
def stops (skip : List Char → Nat) : (busy : Nat) → List Char → List (List Char)
  | _, [] => []
  | busy + 1, _ :: rest => stops skip busy rest
  | 0, c :: rest => (c :: rest) :: stops skip (skip (c :: rest) - 1) rest

/-- The characters of which a reader passes over none but themselves. -/
def outside (skip : List Char → Nat) (text : List Char) : List Char :=
  (stops skip 0 text).filterMap fun rest => if skip rest = 0 then rest.head? else none

variable {skip : List Char → Nat} {text rest body : List Char} {c : Char}

theorem stops_drop (skip : List Char → Nat) (busy : Nat) (text : List Char) :
    stops skip busy text = stops skip 0 (text.drop busy) := by
  induction text generalizing busy with
  | nil => rw [List.drop_nil, stops, stops]
  | cons c rest ih =>
    cases busy with
    | zero => rfl
    | succ busy => rw [stops, List.drop_succ_cons, ih]

theorem stops_cons (h : skip (c :: rest) = 0) : stops skip 0 (c :: rest) = (c :: rest) :: stops skip 0 rest := by
  rw [stops, h]

theorem stops_of_pos (h : skip (c :: rest) ≠ 0) :
    stops skip 0 (c :: rest) = (c :: rest) :: stops skip 0 ((c :: rest).drop (skip (c :: rest))) := by
  obtain ⟨busy, hbusy⟩ := Nat.exists_eq_succ_of_ne_zero h
  rw [stops, stops_drop, hbusy, Nat.succ_sub_one, List.drop_succ_cons]

theorem outside_cons (h : skip (c :: rest) = 0) : outside skip (c :: rest) = c :: outside skip rest := by
  rw [outside, stops_cons h, List.filterMap_cons_some (b := c) (by simp [h]), outside]

theorem outside_of_pos (h : skip (c :: rest) ≠ 0) :
    outside skip (c :: rest) = outside skip ((c :: rest).drop (skip (c :: rest))) := by
  rw [outside, stops_of_pos h, List.filterMap_cons_none (by simp [h]), outside]

/-- What holds of a text is shown the way a reader goes through it. -/
theorem reading_induction (skip : List Char → Nat) {motive : List Char → Prop} (nil : motive [])
    (plain : ∀ c rest, skip (c :: rest) = 0 → motive rest → motive (c :: rest))
    (past : ∀ c rest, skip (c :: rest) ≠ 0 → motive ((c :: rest).drop (skip (c :: rest))) → motive (c :: rest))
    (text : List Char) : motive text := by
  induction hlength : text.length using Nat.strong_induction_on generalizing text with
  | _ n ih =>
    subst hlength
    cases text with
    | nil => exact nil
    | cons c rest =>
      by_cases hzero : skip (c :: rest) = 0
      · exact plain c rest hzero (ih _ (Nat.lt_succ_self _) rest rfl)
      · refine past c rest hzero (ih _ ?_ _ rfl)
        rw [List.length_drop, List.length_cons]
        omega

/-- How long the match of a pattern is, if there is one. -/
def matchLength (pattern : Pattern) (index : Nat) (prev : Option Char) (text : List Char) : Option Nat :=
  (pattern.matchAt index prev text).map fun found => found.text.length

/-- A reader whose steps are the matches of a pattern finds what is left where the matches give way to nothing. -/
theorem outside_eq_of_segmented {pattern : Pattern} {index : Nat} {prev : Option Char} {segments : List Segment}
    (hskip : ∀ index prev text, (matchLength pattern index prev text).getD 0 = skip text)
    (hexceeds : pattern.exceeds [] = true) (h : pattern.Segmented index prev text segments) :
    outside skip text = segments.flatMap (Segment.replaced fun _ => []) := by
  induction h with
  | done => rfl
  | @plain index prev c rest segments hnone _ ih =>
    have hzero : skip (c :: rest) = 0 := by
      rw [← hskip index prev, matchLength, matchAt_eq_none_of_forall hexceeds hnone]
      rfl
    rw [outside_cons hzero, ih]
    rfl
  | @hit index prev text rest found segments hfound htext _ ih =>
    have hlength : skip text = found.text.length := by
      rw [← hskip index prev, matchLength, hfound]
      rfl
    obtain ⟨c, more, hmore⟩ := List.exists_cons_of_ne_nil (ne_nil_of_matchAt hexceeds hfound)
    have htext : text = c :: (more ++ rest) := by rw [htext, hmore, List.cons_append]
    subst htext
    have hpos : skip (c :: (more ++ rest)) ≠ 0 := by
      rw [hlength, hmore]
      exact Nat.succ_ne_zero _
    rw [outside_of_pos hpos, hlength, hmore, ← List.cons_append, List.drop_left, ih]
    rfl

/-! ### What is no code -/

/-- How long a comment is behind its opening, with its closing. -/
def commentLength? : List Char → Option Nat
  | [] => none
  | c :: rest => if c = '*' ∧ rest.head? = some '/' then some 2 else (commentLength? rest).map (· + 1)

/-- How long a quoted text is behind its opening quote, with its closing one. It ends on its line, but a backslash
escapes whatever stands behind it. -/
def quotedLength? (quote : Char) : (escaped : Bool) → List Char → Option Nat
  | _, [] => none
  | true, _ :: rest => (quotedLength? quote false rest).map (· + 1)
  | false, c :: rest =>
    if c = quote then some 1
    else if c = '\n' then none
    else (quotedLength? quote (c == '\\') rest).map (· + 1)

/-- The body of an address without quotes that begins a text. -/
def address? : List Char → Option (List Char)
  | u :: r :: l :: '(' :: rest =>
    let inside := Class.except [')', '"', '\'']
    if [u, r, l].map Char.toLower = ['u', 'r', 'l'] ∧ (rest.dropWhile inside).head? = some ')' then
      some (rest.takeWhile inside)
    else none
  | _ => none

/-- How long the quoted text or the comment between signs is that begins a text. -/
def literalLength : List Char → Nat
  | '/' :: '*' :: rest => (commentLength? rest).elim 0 (· + 2)
  | '"' :: rest => (quotedLength? '"' false rest).elim 0 (· + 1)
  | '\'' :: rest => (quotedLength? '\'' false rest).elim 0 (· + 1)
  | _ => 0

/-- What the check passes over: literals, and two slashes with the rest of their line. -/
def checkLength : List Char → Nat
  | '/' :: '/' :: rest => (rest.takeWhile (· != '\n')).length + 2
  | text => literalLength text

/-- What a reader of stylesheets passes over: literals, and addresses without quotes. A stylesheet is read in this way
before it is made smaller (`matchLength_stylesheet`). -/
def sheetLength (text : List Char) : Nat :=
  match address? text with
  | some body => body.length + 5
  | none => literalLength text

example : outside sheetLength "a\x7bb:url(//\x7b)\x7d/*\x7d*/".toList = "a\x7bb:\x7d".toList := by decide

example : outside checkLength "a\x7bb:url(//\x7b)\x7d\n'\\'\x7d'c".toList = "a\x7bb:url(\nc".toList := by decide

/-! ### What the check finds -/

/-- A comment goes on up to the first closing. -/
theorem exists_of_commentLength? {n : Nat} (h : commentLength? text = some n) :
    ∃ body rest, text = body ++ '*' :: '/' :: rest ∧ n = body.length + 2 ∧
      ∀ inside, inside ≠ [] → inside <:+ body → ¬ ['*', '/'] <+: inside ++ ('*' :: '/' :: rest) := by
  induction text generalizing n with
  | nil => exact absurd h nofun
  | cons c text ih =>
    rw [commentLength?] at h
    split_ifs at h with hclose
    · obtain ⟨rfl, hhead⟩ := hclose
      obtain ⟨rest, rfl⟩ := List.head?_eq_some_iff.mp hhead
      obtain rfl := Option.some.inj h
      exact ⟨[], rest, rfl, rfl, fun inside hne hinside => absurd (List.suffix_nil.mp hinside) hne⟩
    · obtain ⟨m, hm, rfl⟩ := Option.map_eq_some_iff.mp h
      obtain ⟨body, rest, rfl, rfl, hbody⟩ := ih hm
      refine ⟨c :: body, rest, rfl, by simp, fun inside hne hinside => ?_⟩
      rcases List.suffix_cons_iff.mp hinside with rfl | hinside
      · rintro ⟨more, hmore⟩
        obtain ⟨rfl, hrest⟩ := List.cons.inj hmore
        exact hclose ⟨rfl, (congrArg List.head? hrest).symm⟩
      · exact hbody inside hne hinside

/-- A closing is found wherever it stands. -/
theorem isSome_commentLength? (body rest : List Char) :
    (commentLength? (body ++ '*' :: '/' :: rest)).isSome = true := by
  induction body with
  | nil => simp [commentLength?]
  | cons c body ih =>
    rw [List.cons_append, commentLength?]
    split_ifs
    · rfl
    · rwa [Option.isSome_map]

/-- A quoted text goes on up to the first closing quote. The induction is on the text, with the backslash before it. -/
theorem exists_of_quotedLength? {quote : Char} {escaped : Bool} {n : Nat}
    (h : quotedLength? quote escaped text = some n) :
    ∃ body rest, text = body ++ quote :: rest ∧ n = body.length + 1 ∧
      EscapedUnits (Class.except [quote, '\\', '\n']) Class.any ((if escaped then ['\\'] else []) ++ body) := by
  induction text generalizing escaped n with
  | nil => cases escaped <;> exact absurd h nofun
  | cons c text ih =>
    cases escaped with
    | true =>
      obtain ⟨m, hm, rfl⟩ := Option.map_eq_some_iff.mp h
      obtain ⟨body, rest, rfl, rfl, hunits⟩ := ih hm
      exact ⟨c :: body, rest, rfl, rfl, .escaped (by simp [Class.except]) rfl hunits⟩
    | false =>
      rw [quotedLength?] at h
      split_ifs at h with hquote hbreak
      · obtain rfl := Option.some.inj h
        exact ⟨[], text, by rw [hquote]; rfl, rfl, .nil⟩
      · obtain ⟨m, hm, rfl⟩ := Option.map_eq_some_iff.mp h
        obtain ⟨body, rest, rfl, rfl, hunits⟩ := ih hm
        refine ⟨c :: body, rest, rfl, rfl, ?_⟩
        by_cases hslash : c = '\\'
        · subst hslash
          exact hunits
        · have hplain : (c == '\\') = false := beq_eq_false_iff_ne.mpr hslash
          rw [hplain] at hunits
          exact .plain (by simp [Class.except, hquote, hbreak, hslash]) hunits

/-- A closing quote behind units is found. -/
theorem isSome_quotedLength? {quote : Char} (h : EscapedUnits (Class.except [quote, '\\', '\n']) Class.any body)
    (rest : List Char) : (quotedLength? quote false (body ++ quote :: rest)).isSome = true := by
  induction h with
  | nil => simp [quotedLength?]
  | @plain c more hc _ ih =>
    have hne : c ≠ quote ∧ c ≠ '\\' ∧ c ≠ '\n' := by simpa [Class.except] using hc
    have hplain : (c == '\\') = false := beq_eq_false_iff_ne.mpr hne.2.1
    rw [List.cons_append, quotedLength?, if_neg hne.1, if_neg hne.2.2, hplain, Option.isSome_map]
    exact ih
  | @escaped d more _ _ _ ih =>
    rw [List.cons_append, quotedLength?]
    split_ifs with hquote hbreak
    · rfl
    · exact absurd hbreak (by decide)
    · rw [Option.isSome_map, List.cons_append]
      exact (Option.isSome_map ..).trans ih

/-- A pattern finds what is expected if it finds any length that is, and takes nothing where none is. -/
theorem matchLength_eq {pattern : Pattern} {index : Nat} {prev : Option Char} {expected : Option Nat}
    (hfinds : ∀ n, expected = some n → matchLength pattern index prev text = some n)
    (htakes : ∀ taken behind parts, text = taken ++ behind → pattern.Takes prev taken behind parts →
      expected.isSome = true) : matchLength pattern index prev text = expected := by
  cases hexpected : expected with
  | some n => exact hfinds n hexpected
  | none =>
    rw [matchLength, Option.map_eq_none_iff, Option.eq_none_iff_forall_ne_some]
    intro found hfound
    obtain ⟨behind, parts, htext, hfoundTakes, -⟩ := Match.exists_takes hfound
    have hsome := htakes _ _ _ htext hfoundTakes
    rw [hexpected] at hsome
    exact Bool.noConfusion hsome

theorem matchLength_blockComment (index : Nat) (prev : Option Char) (rest : List Char) :
    matchLength (label .comment Lexer.blockComment) index prev ('/' :: '*' :: rest) =
      (commentLength? rest).map (· + 2) := by
  refine matchLength_eq (fun n hn => ?_) fun taken behind parts htext htakes => ?_
  · obtain ⟨m, hm, rfl⟩ := Option.map_eq_some_iff.mp hn
    obtain ⟨body, behind, rfl, rfl, hbody⟩ := exists_of_commentLength? hm
    obtain ⟨found, hfound, htext⟩ := @exists_matchAt_enclosed index prev body behind .comment "/*" "*/" hbody
    have hmatch : (label .comment Lexer.blockComment).matchAt index prev
        ('/' :: '*' :: (body ++ '*' :: '/' :: behind)) = some found := hfound
    rw [matchLength, hmatch, Option.map_some, htext]
    simp
  · obtain ⟨_, htakes, -⟩ := htakes
    obtain ⟨⟨body, rfl⟩, -⟩ := takes_enclosed.mp htakes
    obtain rfl : rest = body ++ '*' :: '/' :: behind := by simpa using htext
    rw [Option.isSome_map]
    exact isSome_commentLength? body behind

theorem matchLength_quotedBy {quote : Char} (hquote : quote ≠ '\\') (index : Nat) (prev : Option Char)
    (rest : List Char) :
    matchLength (Lexer.quotedBy quote) index prev (quote :: rest) = (quotedLength? quote false rest).map (· + 1) := by
  have hplain : Class.except [quote, '\\', '\n'] quote = false := by simp [Class.except]
  refine matchLength_eq (fun n hn => ?_) fun taken behind parts htext htakes => ?_
  · obtain ⟨m, hm, rfl⟩ := Option.map_eq_some_iff.mp hn
    obtain ⟨body, behind, rfl, rfl, hunits⟩ := exists_of_quotedLength? hm
    obtain ⟨found, hfound, htext⟩ := hunits.exists_matchAt hplain hquote quote index prev behind
    have hmatch : (Lexer.quotedBy quote).matchAt index prev (quote :: (body ++ quote :: behind)) = some found := by
      rw [← hfound, List.cons_append, List.append_assoc]
      rfl
    rw [matchLength, hmatch, Option.map_some, htext]
    simp
  · obtain ⟨⟨body, hunits, rfl⟩, -⟩ := takes_units.mp htakes
    obtain rfl : rest = body ++ quote :: behind := by simpa using htext
    rw [Option.isSome_map]
    exact isSome_quotedLength? hunits behind

theorem matchLength_lineComment (index : Nat) (prev : Option Char) (rest : List Char) :
    matchLength (label .comment Worker.lineComment) index prev ('/' :: '/' :: rest) =
      some ((rest.takeWhile (· != '\n')).length + 2) := by
  obtain ⟨found, hfound, htext⟩ := Worker.exists_matchAt_lineComment index prev rest
  rw [matchLength, hfound, Option.map_some, htext]
  rfl

/-- Where the opening does not stand there is no match. -/
theorem matchLength_eq_none {pattern : Pattern} {opening : List Char} (h : pattern.OpensWith opening)
    (htext : ¬ opening <+: text) (index : Nat) (prev : Option Char) : matchLength pattern index prev text = none := by
  rw [matchLength, h.matchAt_eq_none htext, Option.map_none]

theorem matchLength_alt (first second : Pattern) (index : Nat) (prev : Option Char) (text : List Char) :
    matchLength (alt first second) index prev text =
      (matchLength first index prev text).or (matchLength second index prev text) := by
  simp only [matchLength, matchAt_alt, Option.map_or]

/-- Comments between signs and quoted text are the literals. The cases are those of what begins the text. -/
theorem matchLength_literals (index : Nat) (prev : Option Char) (text : List Char) :
    ((matchLength (label .comment Lexer.blockComment) index prev text).or
      (matchLength Lexer.quoted index prev text)).getD 0 = literalLength text := by
  have hblock {text : List Char} (h : ¬ ['/', '*'] <+: text) :
      matchLength (label .comment Lexer.blockComment) index prev text = none :=
    matchLength_eq_none (opensWith_blockComment.label _) h index prev
  have hquoted {quote : Char} {text : List Char} (h : ¬ [quote] <+: text) :
      matchLength (Lexer.quotedBy quote) index prev text = none :=
    matchLength_eq_none (opensWith_quotedBy quote) h index prev
  have hopens {text opening : List Char} (h : ∀ rest, text = opening ++ rest → False) : ¬ opening <+: text :=
    fun ⟨rest, hrest⟩ => h rest hrest.symm
  have halt : Lexer.quoted = alt (Lexer.quotedBy '"') (Lexer.quotedBy '\'') := rfl
  rw [halt, matchLength_alt, literalLength.eq_def]
  split
  case h_1 rest =>
    rw [matchLength_blockComment, hquoted (by simp), hquoted (by simp)]
    cases commentLength? rest <;> rfl
  case h_2 rest =>
    rw [matchLength_quotedBy (by decide), hblock (by simp), hquoted (by simp)]
    cases quotedLength? '"' false rest <;> rfl
  case h_3 rest =>
    rw [matchLength_quotedBy (by decide), hblock (by simp), hquoted (by simp)]
    cases quotedLength? '\'' false rest <;> rfl
  case h_4 hcomment hdouble hsingle =>
    rw [hblock (hopens hcomment), hquoted (hopens hdouble), hquoted (hopens hsingle)]
    rfl

/-- The check passes over what its lexer finds. -/
theorem matchLength_codeLexer (index : Nat) (prev : Option Char) (text : List Char) :
    (matchLength codeLexer.pattern index prev text).getD 0 = checkLength text := by
  have hpattern : matchLength codeLexer.pattern index prev text =
      ((matchLength (label .comment Lexer.blockComment) index prev text).or
        (matchLength (label .comment Worker.lineComment) index prev text)).or
      (matchLength Lexer.quoted index prev text) := by
    have hlexer : codeLexer.pattern =
        alt (label .comment (alt Lexer.blockComment Worker.lineComment)) Lexer.quoted := rfl
    simp only [hlexer, matchLength, matchAt_alt, matchAt_label_alt, Option.map_or]
  rw [hpattern, checkLength.eq_def]
  split
  case h_1 rest =>
    rw [matchLength_lineComment, matchLength_eq_none (opensWith_blockComment.label _) (by simp), Option.none_or,
      Option.some_or, Option.getD_some]
  case h_2 hslashes =>
    have hline : matchLength (label .comment Worker.lineComment) index prev text = none :=
      matchLength_eq_none (((opensWith_word "//").append _).label _) (fun ⟨rest, hrest⟩ => hslashes rest hrest.symm) _ _
    rw [hline, Option.or_none, matchLength_literals]

/-- What takes the place of a match holds no brace. -/
theorem not_mem_replaceMatch {index : Nat} {prev : Option Char} {found : Match}
    (hfound : codeLexer.pattern.matchAt index prev text = some found) (literals : Array (List Char))
    (hc : c ∈ ['\x7b', '\x7d']) : c ∉ (MaskedText.replaceMatch codeLexer true literals found).1 := by
  have hblank : c ∉ ['\n', ' ', '\t'] := by
    rcases List.mem_pair.mp hc with rfl | rfl <;> decide
  have hmark : c ≠ Placeholder.opening ∧ c.isDigit = false ∧ c ≠ Placeholder.closing := by
    rcases List.mem_pair.mp hc with rfl | rfl <;> decide
  rw [MaskedText.replaceMatch]
  cases hlabel : found.label? .comment with
  | some span =>
    have hstrip : codeLexer.strip span.text span.start = some (Lexer.leaveBreak span.text) := rfl
    simp only [if_true, hstrip]
    exact fun hmem => hblank (Lexer.mem_leaveBreak hmem)
  | none =>
    have hlacks : codeLexer.pattern.lacks .literal = true := by decide
    simp only [MaskedText.setAsideMatch, Match.label?_eq_none hlacks hfound]
    intro hmem
    rw [MaskedText.setAside, Placeholder.render, List.mem_cons, List.mem_append, List.mem_singleton] at hmem
    rcases hmem with hopening | hdigit | hclosing
    · exact hmark.1 hopening
    · rw [Nat.isDigit_of_mem_toDigits (by decide) (by decide) hdigit] at hmark
      exact Bool.noConfusion hmark.2.1
    · exact hmark.2.2 hclosing

/-- What the check takes for the code of a text. A text with characters that mark placeholders is all code to it. -/
def checkedCode (text : List Char) : List Char :=
  if MaskedText.reserved text then text else outside checkLength text

theorem count_codeOnly (text : List Char) (hc : c ∈ ['\x7b', '\x7d']) :
    (codeOnly text).count c = (checkedCode text).count c := by
  have hsegments {index : Nat} {prev : Option Char} {text : List Char} {segments : List Segment}
      (h : codeLexer.pattern.Segmented index prev text segments) (literals : Array (List Char)) :
      (replaceFrom (MaskedText.replaceMatch codeLexer true) segments literals).1.count c =
        (segments.flatMap (Segment.replaced fun _ => [])).count c := by
    induction h generalizing literals with
    | done => rfl
    | plain _ _ ih => simp [replaceFrom, Segment.replaced, List.count_cons, ih]
    | hit hfound _ _ ih =>
      have hnone := List.count_eq_zero_of_not_mem (not_mem_replaceMatch hfound literals hc)
      simp [replaceFrom, Segment.replaced, hnone, ih]
  have hexceeds : codeLexer.pattern.exceeds [] = true := by decide
  rw [codeOnly, MaskedText.mask, checkedCode]
  split_ifs with hreserved
  · rfl
  · rw [outside_eq_of_segmented matchLength_codeLexer hexceeds (segments_segmented _ text)]
    simp only [MaskedText.replaceSegments_eq]
    exact hsegments (segments_segmented _ text) #[]

/-! ### What a reader of stylesheets finds -/

/-- A reader who meets no two slashes, and in no address a brace, two slashes or the opening of a comment. -/
structure Familiar (text : List Char) : Prop where
  slashes : ∀ rest ∈ stops sheetLength 0 text, ¬ ['/', '/'] <+: rest
  addresses : ∀ rest ∈ stops sheetLength 0 text, ∀ body ∈ address? rest,
    '\x7b' ∉ body ∧ '\x7d' ∉ body ∧ ¬ ['/', '/'] <:+: body ∧ ¬ ['/', '*'] <:+: body

namespace Familiar

theorem head (h : Familiar (c :: rest)) : ¬ ['/', '/'] <+: c :: rest ∧ ∀ body ∈ address? (c :: rest),
    '\x7b' ∉ body ∧ '\x7d' ∉ body ∧ ¬ ['/', '/'] <:+: body ∧ ¬ ['/', '*'] <:+: body :=
  ⟨h.slashes _ List.mem_cons_self, h.addresses _ List.mem_cons_self⟩

theorem of_stops (h : Familiar text) {stop : List Char}
    (hstops : ∀ other ∈ stops sheetLength 0 stop, other ∈ stops sheetLength 0 text) : Familiar stop where
  slashes other hother := h.slashes other (hstops other hother)
  addresses other hother := h.addresses other (hstops other hother)

theorem tail (h : Familiar (c :: rest)) (hzero : sheetLength (c :: rest) = 0) : Familiar rest :=
  h.of_stops fun other hother => by
    rw [stops_cons hzero]
    exact List.mem_cons_of_mem _ hother

theorem drop (h : Familiar (c :: rest)) (hpos : sheetLength (c :: rest) ≠ 0) :
    Familiar ((c :: rest).drop (sheetLength (c :: rest))) :=
  h.of_stops fun other hother => by
    rw [stops_of_pos hpos]
    exact List.mem_cons_of_mem _ hother

end Familiar

/-- Where neither a quote stands nor a slash that begins a comment, the check passes over nothing. -/
theorem checkLength_eq_zero (hquote : c ≠ '"' ∧ c ≠ '\'')
    (hslash : c = '/' → rest.head? ≠ some '/' ∧ rest.head? ≠ some '*') : checkLength (c :: rest) = 0 := by
  have hopens {d : Char} {more : List Char} (hd : d = '/' ∨ d = '*') (heq : c :: rest = '/' :: d :: more) : False := by
    obtain ⟨rfl, rfl⟩ := List.cons.inj heq
    rcases hd with rfl | rfl
    · exact (hslash rfl).1 rfl
    · exact (hslash rfl).2 rfl
  rw [checkLength.eq_def]
  split
  case h_1 heq => exact (hopens (.inl rfl) heq).elim
  case h_2 =>
    rw [literalLength.eq_def]
    split
    case h_1 heq => exact (hopens (.inr rfl) heq).elim
    case h_2 heq => exact absurd (List.cons.inj heq).1 hquote.1
    case h_3 heq => exact absurd (List.cons.inj heq).1 hquote.2
    case h_4 => rfl

/-- The check counts all characters of a text in which it passes over nothing. -/
theorem outside_append {front : List Char} (h : ∀ tail, tail ≠ [] → tail <:+ front → skip (tail ++ rest) = 0) :
    outside skip (front ++ rest) = front ++ outside skip rest := by
  induction front with
  | nil => rfl
  | cons c front ih =>
    have hc : skip (c :: (front ++ rest)) = 0 := h (c :: front) (List.cons_ne_nil _ _) List.suffix_rfl
    rw [List.cons_append, outside_cons hc, ih fun tail hne htail => h tail hne (htail.trans (List.suffix_cons c front)),
      List.cons_append]

/-- The word before the brackets of an address, in any case, and the body between them. -/
structure IsAddress (letters body : List Char) : Prop where
  word : letters.map Char.toLower = ['u', 'r', 'l']
  body : ∀ c ∈ body, c ∉ [')', '"', '\'']

namespace IsAddress

variable {letters : List Char}

theorem length_letters (h : IsAddress letters body) : letters.length = 3 :=
  (List.length_map _).symm.trans (congrArg List.length h.word)

/-- An address holds no quotes, so it goes on up to the first closing bracket. -/
theorem address?_eq_some (h : IsAddress letters body) (rest : List Char) :
    address? (letters ++ '(' :: (body ++ ')' :: rest)) = some body := by
  have hinside : ∀ c ∈ body, Class.except [')', '"', '\''] c = true := by simpa [Class.except] using h.body
  obtain ⟨u, r, l, rfl⟩ := List.length_eq_three.mp h.length_letters
  simp only [List.cons_append, List.nil_append, address?, List.takeWhile_append_of_pos hinside,
    List.dropWhile_append_of_pos hinside]
  rw [if_pos]
  · exact congrArg some (List.append_nil body)
  · exact ⟨h.word, rfl⟩

end IsAddress

theorem exists_of_address? (h : address? text = some body) :
    ∃ letters rest, text = letters ++ '(' :: (body ++ ')' :: rest) ∧ IsAddress letters body := by
  rw [address?.eq_def] at h
  split at h
  case h_1 u r l rest =>
    rw [Option.ite_none_right_eq_some] at h
    obtain ⟨⟨hletters, hclose⟩, hbody⟩ := h
    obtain ⟨behind, hbehind⟩ := List.head?_eq_some_iff.mp hclose
    rw [Option.some.injEq] at hbody
    refine ⟨[u, r, l], behind, ?_, hletters, fun c hc => ?_⟩
    · rw [← hbehind, ← hbody, List.takeWhile_append_dropWhile]
      rfl
    · rw [← hbody] at hc
      simpa [Class.except] using List.mem_takeWhile_imp hc
  case h_2 => exact absurd h nofun

theorem takes_address {prev : Option Char} {taken behind : List Char} {parts : Parts} :
    Style.address.Takes prev taken behind parts ↔
      ∃ letters body, IsAddress letters body ∧ taken = letters ++ '(' :: (body ++ [')']) ∧
        parts = [(.literal, body)] := by
  have hspells {letters : List Char} : Spells "url" letters ↔ letters.map Char.toLower = ['u', 'r', 'l'] :=
    spells_iff_map_toLower (by decide)
  constructor
  · rintro ⟨_, _, _, _, ⟨_, body, _, _, ⟨letters, _, _, _, hword, hopen, rfl, rfl⟩, ⟨_, ⟨hbody, rfl⟩, rfl⟩, rfl, rfl⟩,
      hclose, rfl, rfl⟩
    obtain ⟨hletters, rfl⟩ := takes_wordAnyCase.mp hword
    obtain ⟨rfl, rfl⟩ := (takes_char '(').mp hopen
    obtain ⟨rfl, rfl⟩ := (takes_char ')').mp hclose
    exact ⟨letters, body, ⟨hspells.mp hletters, by simpa [Class.except] using hbody⟩, by simp, rfl⟩
  · rintro ⟨letters, body, haddress, rfl, rfl⟩
    have hword : (wordAnyCase "url" ++ char '(').Takes prev (letters ++ ['(']) (body ++ ([')'] ++ behind)) [] :=
      ⟨letters, ['('], _, _, takes_wordAnyCase.mpr ⟨hspells.mpr haddress.word, rfl⟩, (takes_char '(').mpr ⟨rfl, rfl⟩,
        rfl, rfl⟩
    have hbody : ∀ c ∈ body, Class.except [')', '"', '\''] c = true := by simpa [Class.except] using haddress.body
    exact ⟨letters ++ ['('] ++ body, [')'], _, _,
      ⟨letters ++ ['('], body, _, _, hword, ⟨_, ⟨hbody, rfl⟩, rfl⟩, rfl, rfl⟩,
      (takes_char ')').mpr ⟨rfl, rfl⟩, by simp, rfl⟩

theorem matchLength_address (index : Nat) (prev : Option Char) (text : List Char) :
    matchLength Style.address index prev text = (address? text).map fun body => body.length + 5 := by
  have htaken {taken behind : List Char} {parts : Parts} (htext : text = taken ++ behind)
      (htakes : Style.address.Takes prev taken behind parts) :
      ∃ body, address? text = some body ∧ taken.length = body.length + 5 := by
    obtain ⟨letters, body, haddress, rfl, -⟩ := takes_address.mp htakes
    refine ⟨body, ?_, ?_⟩
    · rw [htext, List.append_assoc, List.cons_append, List.append_assoc]
      exact haddress.address?_eq_some behind
    · simp only [List.length_append, List.length_cons, List.length_nil, haddress.length_letters]
      omega
  refine matchLength_eq (fun n hn => ?_) fun taken behind parts htext htakes => ?_
  · obtain ⟨body, hbody, rfl⟩ := Option.map_eq_some_iff.mp hn
    obtain ⟨letters, rest, htext, haddress⟩ := exists_of_address? hbody
    have hlexeme : text = letters ++ '(' :: (body ++ [')']) ++ rest := by simpa using htext
    obtain ⟨found, hfound⟩ := Option.isSome_iff_exists.mp (matchAt_isSome_iff.mpr
      ⟨_, rest, _, hlexeme, takes_address.mpr ⟨letters, body, haddress, rfl, rfl⟩⟩)
    obtain ⟨behind, _, hfoundText, htakes, -⟩ := Match.exists_takes hfound
    obtain ⟨_, hsome, hlength⟩ := htaken hfoundText htakes
    obtain rfl := Option.some.inj (hbody.symm.trans hsome)
    rw [matchLength, hfound, Option.map_some, hlength]
  · obtain ⟨body, hbody, -⟩ := htaken htext htakes
    rw [hbody, Option.map_some, Option.isSome_some]

/-- The reader of stylesheets passes over what is set aside or taken out before a stylesheet is made smaller. -/
theorem matchLength_stylesheet (index : Nat) (prev : Option Char) (text : List Char) :
    (matchLength Style.lexer.pattern index prev text).getD 0 = sheetLength text := by
  have hpattern : matchLength Style.lexer.pattern index prev text =
      ((matchLength (label .comment Lexer.blockComment) index prev text).or
        (matchLength Lexer.quoted index prev text)).or ((address? text).map fun body => body.length + 5) := by
    have hlexer : Style.lexer.pattern =
        alt (label .comment Lexer.blockComment) (alt Lexer.quoted Style.address) := rfl
    rw [hlexer, matchLength_alt, matchLength_alt, matchLength_address, Option.or_assoc]
  rw [hpattern, sheetLength]
  cases haddress : address? text with
  | none => rw [Option.map_none, Option.or_none, matchLength_literals]
  | some body =>
    obtain ⟨letters, rest, rfl, hletters, -⟩ := exists_of_address? haddress
    -- what else a stylesheet sets aside does not begin with a letter
    have hnone {opening more : List Char} {d : Char} (hd : d.toLower ≠ 'u') (hopening : opening = d :: more) :
        ¬ opening <+: letters ++ '(' :: (body ++ ')' :: rest) := by
      rw [hopening]
      rintro ⟨behind, hbehind⟩
      obtain ⟨c, _, rfl, hc, -⟩ := List.map_eq_cons_iff.mp hletters
      exact hd ((List.cons.inj hbehind).1 ▸ hc)
    have halt : Lexer.quoted = alt (Lexer.quotedBy '"') (Lexer.quotedBy '\'') := rfl
    rw [matchLength_eq_none (opensWith_blockComment.label _) (hnone (by decide) rfl), halt, matchLength_alt,
      matchLength_eq_none (opensWith_quotedBy _) (hnone (by decide) rfl),
      matchLength_eq_none (opensWith_quotedBy _) (hnone (by decide) rfl)]
    rfl

namespace IsAddress

variable {letters : List Char}

theorem checkLength_letters (h : IsAddress letters body) {tail : List Char} (hne : tail ≠ []) (htail : tail <:+ letters)
    (rest : List Char) : checkLength (tail ++ rest) = 0 := by
  obtain ⟨c, more, rfl⟩ := List.exists_cons_of_ne_nil hne
  have hlower : c.toLower ∈ ['u', 'r', 'l'] := h.word ▸ List.mem_map_of_mem (htail.mem List.mem_cons_self)
  refine checkLength_eq_zero ⟨?_, ?_⟩ ?_
  all_goals
    rintro rfl
    exact absurd hlower (by decide)

theorem checkLength_body (h : IsAddress letters body) (hslashes : ¬ ['/', '/'] <:+: body)
    (hopening : ¬ ['/', '*'] <:+: body) {tail : List Char} (hne : tail ≠ []) (htail : tail <:+ body)
    (rest : List Char) : checkLength (tail ++ ')' :: rest) = 0 := by
  obtain ⟨c, more, rfl⟩ := List.exists_cons_of_ne_nil hne
  have hc := h.body c (htail.mem List.mem_cons_self)
  refine checkLength_eq_zero ⟨?_, ?_⟩ ?_
  · rintro rfl
    exact hc (by decide)
  · rintro rfl
    exact hc (by decide)
  · rintro rfl
    cases more with
    | nil => exact ⟨by simp, by simp⟩
    | cons d more =>
      have hinfix : ['/', d] <:+: body := List.IsInfix.trans ⟨[], more, rfl⟩ htail.isInfix
      constructor
      · rintro ⟨⟩
        exact hslashes hinfix
      · rintro ⟨⟩
        exact hopening hinfix

/-- In an address that holds nothing it knows, the check passes over nothing. -/
theorem outside_eq (h : IsAddress letters body) (hslashes : ¬ ['/', '/'] <:+: body)
    (hopening : ¬ ['/', '*'] <:+: body) (rest : List Char) :
    outside checkLength (letters ++ '(' :: (body ++ ')' :: rest)) =
      letters ++ '(' :: (body ++ ')' :: outside checkLength rest) := by
  have hopen : checkLength ('(' :: (body ++ ')' :: rest)) = 0 := checkLength_eq_zero (by decide) nofun
  have hclose : checkLength (')' :: rest) = 0 := checkLength_eq_zero (by decide) nofun
  rw [outside_append fun tail hne htail => h.checkLength_letters hne htail _, outside_cons hopen,
    outside_append fun tail hne htail => h.checkLength_body hslashes hopening hne htail rest, outside_cons hclose]

/-- Of an address that holds no brace the check counts nothing. -/
theorem count_eq (h : IsAddress letters body) (hslashes : ¬ ['/', '/'] <:+: body)
    (hopening : ¬ ['/', '*'] <:+: body) (hc : c ∈ ['\x7b', '\x7d']) (hbrace : c ∉ body) (rest : List Char) :
    (outside checkLength (letters ++ '(' :: (body ++ ')' :: rest))).count c = (outside checkLength rest).count c := by
  have hother : c.toLower ∉ ['u', 'r', 'l'] ∧ c ∉ ['('] ∧ c ∉ [')'] := by
    rcases List.mem_pair.mp hc with rfl | rfl <;> decide
  have hnone : c ∉ letters ++ ['('] ++ body ++ [')'] := by
    simp only [List.mem_append, not_or]
    exact ⟨⟨⟨fun hmem => hother.1 (h.word ▸ List.mem_map_of_mem hmem), hother.2.1⟩, hbrace⟩, hother.2.2⟩
  have happend (more : List Char) : letters ++ '(' :: (body ++ ')' :: more) =
      letters ++ ['('] ++ body ++ [')'] ++ more := by simp
  rw [h.outside_eq hslashes hopening, happend, List.count_append,
    List.count_eq_zero_of_not_mem hnone, Nat.zero_add]

end IsAddress

/-- Without slashes side by side or an address, both pass over the same. -/
theorem checkLength_eq (hslashes : ¬ ['/', '/'] <+: text) (haddress : address? text = none) :
    checkLength text = sheetLength text := by
  rw [sheetLength, haddress, checkLength.eq_def]
  split
  case h_1 rest => exact absurd ⟨rest, rfl⟩ hslashes
  case h_2 => rfl

theorem address?_eq_none (h : sheetLength text = 0) : address? text = none := by
  cases haddress : address? text with
  | none => rfl
  | some body =>
    rw [sheetLength, haddress] at h
    exact absurd h (Nat.succ_ne_zero _)

/-- A familiar text has the braces that the check counts. The induction is on how it is read. -/
theorem Familiar.count_eq (h : Familiar text) (hc : c ∈ ['\x7b', '\x7d']) :
    (outside checkLength text).count c = (outside sheetLength text).count c := by
  induction text using reading_induction sheetLength with
  | nil => rfl
  | plain d rest hzero ih =>
    have hsame := checkLength_eq h.head.1 (address?_eq_none hzero)
    rw [outside_cons (hsame.trans hzero), outside_cons hzero, List.count_cons, List.count_cons, ih (h.tail hzero)]
  | past d rest hpos ih =>
    rw [outside_of_pos hpos, ← ih (h.drop hpos)]
    cases hsome : address? (d :: rest) with
    | none =>
      have hsame := checkLength_eq h.head.1 hsome
      rw [outside_of_pos (hsame ▸ hpos), hsame]
    | some body =>
      obtain ⟨hopen, hclose, hslashes, hopening⟩ := h.head.2 body hsome
      obtain ⟨letters, behind, htext, haddress⟩ := exists_of_address? hsome
      have hbrace : c ∉ body := by
        rcases List.mem_pair.mp hc with rfl | rfl
        · exact hopen
        · exact hclose
      have hdrop : (d :: rest).drop (sheetLength (d :: rest)) = behind := by
        have hlength : sheetLength (d :: rest) = (letters ++ ['('] ++ body ++ [')']).length := by
          rw [sheetLength, hsome]
          simp only [List.length_append, List.length_cons, List.length_nil, haddress.length_letters]
          omega
        have hfront : d :: rest = letters ++ ['('] ++ body ++ [')'] ++ behind := by simp [htext]
        rw [hlength, hfront, List.drop_left]
      rw [hdrop, htext, haddress.count_eq hslashes hopening hc hbrace]

/-! ### The verdict -/

/-- Of a stylesheet the check reports the two counts if they differ. -/
theorem errors_css {text : String} {opening closing : Nat} (hopening : (checkedCode text.toList).count '\x7b' = opening)
    (hclosing : (checkedCode text.toList).count '\x7d' = closing) :
    (content text .css).errors =
      if opening = closing then [] else [s!"Mismatched braces: {opening} '\x7b' vs {closing} '\x7d'"] := by
  rw [content, count_codeOnly _ (by decide), count_codeOnly _ (by decide), hopening, hclosing]
  split_ifs
  all_goals rfl

/-- The check finds an error in a stylesheet if it counts unlike braces. Where a reader of stylesheets goes through
familiar text, these are the braces that the reader finds. -/
theorem errors_css_iff (text : String) :
    ((content text .css).errors ≠ [] ↔
        (checkedCode text.toList).count '\x7b' ≠ (checkedCode text.toList).count '\x7d') ∧
      (MaskedText.reserved text.toList = false → Familiar text.toList →
        ((content text .css).errors ≠ [] ↔
          (outside sheetLength text.toList).count '\x7b' ≠ (outside sheetLength text.toList).count '\x7d')) := by
  have hchecked : (content text .css).errors ≠ [] ↔
      (checkedCode text.toList).count '\x7b' ≠ (checkedCode text.toList).count '\x7d' := by
    rw [errors_css rfl rfl]
    split_ifs with heq
    all_goals simp [heq]
  refine ⟨hchecked, fun hreserved hfamiliar => ?_⟩
  rw [hchecked, checkedCode, hreserved, if_neg Bool.false_ne_true, hfamiliar.count_eq (by decide),
    hfamiliar.count_eq (by decide)]

/-- Two slashes in quoted text and an address with a path are familiar, so a missing brace is found. -/
theorem errors_css_missing : (content "a\x7bb:'//\x7d'url(c/d)/*\x7d*/" .css).errors ≠ [] :=
  ((errors_css_iff "a\x7bb:'//\x7d'url(c/d)/*\x7d*/").2 (by decide) ⟨by decide, by decide +kernel⟩).mpr (by decide)

/-- The two slashes of an address hide the closing brace behind it. -/
theorem errors_css_hidden :
    (outside sheetLength "a\x7bbackground:url(http://x.com/y)\x7d".toList).count '\x7b' =
        (outside sheetLength "a\x7bbackground:url(http://x.com/y)\x7d".toList).count '\x7d' ∧
      (content "a\x7bbackground:url(http://x.com/y)\x7d" .css).errors =
        ["Mismatched braces: 1 '\x7b' vs 0 '\x7d'"] := by
  have hopening : (checkedCode "a\x7bbackground:url(http://x.com/y)\x7d".toList).count '\x7b' = 1 := by decide
  have hclosing : (checkedCode "a\x7bbackground:url(http://x.com/y)\x7d".toList).count '\x7d' = 0 := by decide
  exact ⟨by decide, errors_css hopening hclosing⟩

end Minifier.Check
