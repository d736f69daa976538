import Minifier.Minify
import Minifier.Proofs.Masking.Comments
import Minifier.Proofs.Pattern.Taken
import Mathlib.Data.List.Basic

/-!
Comments after a hash sign. Such a comment is found by what stands before it: the beginning of a line, a space
or a tab, which then belongs to the comment. But a comment also takes its line break and the
indentation of the next line along, and a comment that follows has nothing left before it. So a hash sign
that could open a comment stays in the text exactly behind an indentation that the comment above it
took.
-/

namespace Minifier.Generic

open Pattern

/-! ### Where matches end -/

/-- A match goes on to what ends its line: it ends with a character that is no space and no tab, or where the
text ends, or with the indentation after a line break. -/
def ClosesLine (taken behind : List Char) : Prop :=
  (∃ c, taken.getLast? = some c ∧ c ∉ [' ', '\t']) ∨ behind = [] ∨
    ∃ body indentation, taken = body ++ '\n' :: indentation ∧ ∀ c ∈ indentation, Class.spaceTab c = true

/-- Every match of a pattern does so, whatever comes after it, as long as that does not fail. -/
def ClosesLines (pattern : Pattern) : Prop :=
  ∀ (spot : Spot) (next : Spot → Option Spot) (found : Spot), (∀ stop, (next stop).isSome = true) →
    pattern.walk spot next = some found → ∃ taken reached, spot.rest = taken ++ reached.rest ∧
      reached.index = spot.index + taken.length ∧ next reached = some found ∧ ClosesLine taken reached.rest

namespace ClosesLines

variable {pattern first second : Pattern}

theorem of_takes (h : ∀ prev taken behind parts, pattern.Takes prev taken behind parts →
    ClosesLine taken behind) : ClosesLines pattern := by
  intro spot next found _ hwalk
  obtain ⟨reached, hreach, hnext⟩ := exists_of_walk hwalk
  obtain ⟨taken, closed, hpassage, htakes⟩ := hreach.exists_passage
  exact ⟨taken, reached, hpassage.rest, hpassage.index, hnext, h _ _ _ _ htakes⟩

theorem of_endsOutside (h : pattern.endsOutside [' ', '\t'] = true) : ClosesLines pattern :=
  of_takes fun _ _ _ _ htakes => Or.inl (htakes.exists_getLast? h)

theorem alt (hfirst : ClosesLines first) (hsecond : ClosesLines second) :
    ClosesLines (.alt first second) := by
  intro spot next found hnext hwalk
  rw [walk] at hwalk
  split at hwalk
  · rename_i hhere
    exact hfirst spot next found hnext (hhere.trans hwalk)
  · exact hsecond spot next found hnext hwalk

theorem label (name : Label) (h : ClosesLines pattern) : ClosesLines (.label name pattern) := by
  intro spot next found hnext hwalk
  obtain ⟨taken, reached, hrest, hindex, hreached, hcloses⟩ := h spot _ found (fun _ => hnext _) hwalk
  exact ⟨taken, Spot.remember name spot reached, hrest, hindex, hreached, hcloses⟩

end ClosesLines

/-- What goes to the end of a line takes all of it behind what it begins with, and the line break. -/
theorem exists_of_walk_restOfLine {front : Pattern} {spot found : Spot} {next : Spot → Option Spot}
    (hnext : ∀ stop, (next stop).isSome = true)
    (hwalk : (front ++ run Class.inLine ++ Lexer.lineBreak).walk spot next = some found) :
    ∃ begun rest parts taken reached, spot.rest = begun ++ rest ∧ front.Takes spot.prev begun rest parts ∧
      rest = rest.takeWhile Class.inLine ++ taken ++ reached.rest ∧
      reached.index = spot.index + (begun ++ (rest.takeWhile Class.inLine ++ taken)).length ∧
      next reached = some found ∧ IsBreak taken reached.rest := by
  have hwalk : front.walk spot (fun middle =>
      (run Class.inLine).walk middle fun stop => Lexer.lineBreak.walk stop next) = some found := hwalk
  obtain ⟨middle, hfront, hline⟩ := exists_of_walk hwalk
  obtain ⟨begun, closed, hpassage, htakes⟩ := hfront.exists_passage
  obtain ⟨taken, reached, hreached, hrest, hindex, hbreak⟩ := Lexer.exists_walk_restOfLine hnext middle
  refine ⟨begun, middle.rest, _, taken, reached, hpassage.rest, htakes, hrest, ?_, hreached.symm.trans hline, hbreak⟩
  rw [hindex, hpassage.index, Nat.add_assoc, ← List.length_append]

theorem closesLines_restOfLine (front : Pattern) :
    ClosesLines (front ++ run Class.inLine ++ Lexer.lineBreak) := by
  intro spot next found hnext hwalk
  obtain ⟨begun, rest, -, taken, reached, hbegun, -, hrest, hindex, hreached, hbreak⟩ :=
    exists_of_walk_restOfLine hnext hwalk
  refine ⟨begun ++ (rest.takeWhile Class.inLine ++ taken), reached, ?_, hindex, hreached, ?_⟩
  · rw [hbegun, List.append_assoc, ← hrest]
  · rcases hbreak with ⟨-, hend⟩ | ⟨indentation, rfl, hindentation⟩
    · exact Or.inr (Or.inl hend)
    · exact Or.inr (Or.inr ⟨_, indentation, (List.append_assoc _ _ _).symm, hindentation⟩)

theorem closesLines_hashCommentNoBracket : ClosesLines hashCommentNoBracket := by
  refine .of_takes fun prev taken behind parts h => ?_
  obtain ⟨before, after, _, _, -, hafter, rfl, -⟩ := h
  rcases hafter with ⟨_, indentation, _, _, hbreak, ⟨hindentation, -⟩, rfl, -⟩ | ⟨hend, -⟩
  · obtain ⟨rfl, -⟩ := (takes_char '\n').mp hbreak
    exact Or.inr (Or.inr ⟨before, indentation, rfl, hindentation⟩)
  · exact Or.inr (Or.inl (Anchor.holdsBetween_textEnd.mp hend))

/-- The styles in which a hash sign opens a comment. -/
def opensAtHash : CommentStyle → Bool
  | .hash | .php | .powerShell => true
  | .cFamily | .sql | .matlab | .markup | .none => false

theorem closesLines_lexer {style : CommentStyle} (hstyle : opensAtHash style = true) :
    ClosesLines (lexer style).pattern := by
  have hcomment : ClosesLines (choice (comments style)) := by
    cases style with
    | hash => exact closesLines_restOfLine _
    | php =>
      exact .alt (.of_endsOutside (by decide))
        (.alt (closesLines_restOfLine _) closesLines_hashCommentNoBracket)
    | powerShell => exact .alt (.of_endsOutside (by decide)) (closesLines_restOfLine _)
    | cFamily | sql | matlab | markup | none => cases hstyle
  have hliterals : ClosesLines literals := .of_endsOutside (by decide)
  cases style with
  | hash | php | powerShell => exact .alt (.label .comment hcomment) hliterals
  | cFamily | sql | matlab | markup | none => cases hstyle

theorem closesLine_of_matchAt {style : CommentStyle} (hstyle : opensAtHash style = true) {index : Nat}
    {prev : Option Char} {rest : List Char} {found : Match}
    (h : (lexer style).pattern.matchAt index prev rest = some found) :
    ∃ behind, rest = found.text ++ behind ∧ ClosesLine found.text behind := by
  obtain ⟨reached, hwalk, rfl⟩ := Option.map_eq_some_iff.mp h
  obtain ⟨taken, reached', hrest, hindex, hsome, hcloses⟩ :=
    closesLines_lexer hstyle _ some reached (fun _ => rfl) hwalk
  obtain rfl := Option.some.inj hsome
  have htext : rest.take (reached'.index - index) = taken := by
    have hrest : rest = taken ++ reached'.rest := hrest
    have hindex : reached'.index = index + taken.length := hindex
    rw [hrest, hindex, Nat.add_sub_cancel_left, List.take_left]
  exact ⟨reached'.rest, by rw [htext]; exact hrest, by rw [htext]; exact hcloses⟩

/-! ### Where comments begin -/

/-- What a comment can take before its hash sign: nothing at the beginning of a line, or a space or a tab. -/
def OpensComment (prev : Option Char) (before : List Char) : Prop :=
  before = [] ∧ (prev = none ∨ prev = some '\n') ∨ ∃ c, before = [c] ∧ Class.spaceTab c = true

theorem takes_beforeHash {prev : Option Char} {before behind : List Char} {parts : Parts} :
    beforeHash.Takes prev before behind parts ↔ OpensComment prev before ∧ parts = [] := by
  constructor
  · rintro (⟨hstart, rfl, rfl⟩ | ⟨⟨c, hc, rfl⟩, rfl⟩)
    · exact ⟨Or.inl ⟨rfl, Anchor.holdsBetween_lineStart.mp hstart⟩, rfl⟩
    · exact ⟨Or.inr ⟨c, rfl, hc⟩, rfl⟩
  · rintro ⟨⟨rfl, hprev⟩ | ⟨c, rfl, hc⟩, rfl⟩
    · exact Or.inl ⟨Anchor.holdsBetween_lineStart.mpr hprev, rfl, rfl⟩
    · exact Or.inr ⟨⟨c, hc, rfl⟩, rfl⟩

variable {prev : Option Char} {before more : List Char}

/-- A hash sign and what a comment can take before it are taken by its beginning. -/
theorem takes_opening (h : OpensComment prev before) (behind : List Char) :
    (beforeHash ++ char '#').Takes prev (before ++ ['#']) behind [] :=
  ⟨before, ['#'], [], [], takes_beforeHash.mpr ⟨h, rfl⟩, (takes_char '#').mpr ⟨rfl, rfl⟩, rfl, rfl⟩

theorem exists_takes_hashComment (h : OpensComment prev before) (more : List Char) :
    ∃ taken behind, before ++ '#' :: more = taken ++ behind ∧ hashComment.Takes prev taken behind [] := by
  refine ⟨before ++ ['#'], more, by simp, before ++ ['#'], [], [], [], ?_, Or.inr ⟨rfl, rfl⟩, by simp, rfl⟩
  exact ⟨before ++ ['#'], [], [], [], takes_opening h _, ⟨by simp, rfl⟩, by simp, rfl⟩

theorem exists_takes_hashCommentNoBracket (h : OpensComment prev before) (hmore : more.head? ≠ some '[') :
    ∃ taken behind, before ++ '#' :: more = taken ++ behind ∧
      hashCommentNoBracket.Takes prev taken behind [] := by
  have hline : ∀ prev behind, (Pattern.optional (one (Class.except ['[', '\n']) ++ run Class.inLine)).Takes prev
      (more.takeWhile Class.inLine) behind [] := by
    intro prev behind
    cases more with
    | nil => exact Or.inr ⟨rfl, rfl⟩
    | cons c more =>
      by_cases hc : c = '\n'
      · rw [hc]
        exact Or.inr ⟨rfl, rfl⟩
      · have hopens : Class.except ['[', '\n'] c = true := by simpa [Class.except, hc] using hmore
        rw [List.takeWhile_cons_of_pos (by simpa [Class.inLine] using hc)]
        exact Or.inl ⟨[c], _, [], [], ⟨⟨c, hopens, rfl⟩, rfl⟩, ⟨List.all_eq_true.mp List.all_takeWhile, rfl⟩,
          rfl, rfl⟩
  have hopened : ∀ behind, (beforeHash ++ char '#' ++
      Pattern.optional (one (Class.except ['[', '\n']) ++ run Class.inLine)).Takes prev
      (before ++ ['#'] ++ more.takeWhile Class.inLine) behind [] := fun _ =>
    ⟨before ++ ['#'], _, [], [], takes_opening h _, hline _ _, rfl, rfl⟩
  have hsplit : before ++ '#' :: more =
      before ++ ['#'] ++ more.takeWhile Class.inLine ++ more.dropWhile Class.inLine := by
    rw [List.append_assoc, List.takeWhile_append_dropWhile, List.append_assoc, List.singleton_append]
  rcases dropWhile_inLine more with hend | ⟨rest, hbreak⟩
  · have hclose : ∀ prev, ((char '\n' ++ run Class.spaceTab) <|> textEnd).Takes prev [] [] [] := fun _ =>
      Or.inr ⟨Anchor.holdsBetween_textEnd.mpr rfl, rfl, rfl⟩
    rw [hend] at hsplit
    exact ⟨_, [], hsplit, _, [], [], [], hopened _, hclose _, (List.append_nil _).symm, rfl⟩
  · have hclose : ∀ prev, ((char '\n' ++ run Class.spaceTab) <|> textEnd).Takes prev ['\n'] rest [] :=
      fun _ => Or.inl ⟨['\n'], [], [], [], (takes_char '\n').mpr ⟨rfl, rfl⟩, ⟨by simp, rfl⟩, rfl, rfl⟩
    refine ⟨_ ++ ['\n'], rest, ?_, _, ['\n'], [], [], hopened _, hclose _, rfl, rfl⟩
    rw [hsplit, hbreak, List.append_assoc _ ['\n'], List.singleton_append]

/-- What a comment takes before its hash sign stands where its match begins. -/
theorem exists_of_takes_opening {body close : Pattern} {taken behind : List Char} {parts : Parts}
    (h : (beforeHash ++ char '#' ++ body ++ close).Takes prev taken behind parts) :
    ∃ before rest, OpensComment prev before ∧ taken = before ++ '#' :: rest := by
  obtain ⟨_, closed, _, _, hline, -, rfl, -⟩ := h
  obtain ⟨_, line, _, _, ⟨before, _, _, _, hbefore, hhash, rfl, -⟩, -, rfl, -⟩ := hline
  obtain ⟨rfl, -⟩ := (takes_char '#').mp hhash
  exact ⟨before, line ++ closed, (takes_beforeHash.mp hbefore).1, by simp⟩

theorem ne_hash_of_openings {taken : List Char} {c : Char} (hprev : prev = some c)
    (hc : Class.spaceTab c = true) (h : ∃ before rest, OpensComment prev before ∧ taken = before ++ '#' :: rest)
    (more : List Char) : taken ≠ '#' :: more := by
  rintro rfl
  obtain ⟨before, rest, ⟨rfl, hstart⟩ | ⟨d, rfl, hd⟩, htaken⟩ := h
  · rw [hprev] at hstart
    rcases hstart with hnone | hbreak
    · cases hnone
    · obtain rfl := Option.some.inj hbreak
      cases hc
  · obtain ⟨rfl, -⟩ := List.cons.inj htaken
    cases hd

variable {style : CommentStyle} {index : Nat}

/-- Every match of a lexer takes something. -/
theorem exceeds_lexer (hstyle : opensAtHash style = true) : (lexer style).pattern.exceeds [] = true := by
  cases style with
  | hash | php | powerShell => decide
  | cFamily | sql | matlab | markup | none => cases hstyle

/-- Where a comment can begin, there is a match. -/
theorem exists_matchAt_opening (hstyle : opensAtHash style = true) (h : OpensComment prev before)
    (hmore : style = .php → more.head? ≠ some '[') (index : Nat) :
    ∃ found, (lexer style).pattern.matchAt index prev (before ++ '#' :: more) = some found := by
  rw [← Option.isSome_iff_exists, matchAt_isSome_iff]
  cases style with
  | hash =>
    obtain ⟨taken, behind, hsplit, htakes⟩ := exists_takes_hashComment h more
    exact ⟨taken, behind, _, hsplit, Or.inl ⟨[], htakes, rfl⟩⟩
  | php =>
    obtain ⟨taken, behind, hsplit, htakes⟩ := exists_takes_hashCommentNoBracket h (hmore rfl)
    exact ⟨taken, behind, _, hsplit, Or.inl ⟨[], Or.inr (Or.inr htakes), rfl⟩⟩
  | powerShell =>
    obtain ⟨taken, behind, hsplit, htakes⟩ := exists_takes_hashComment h more
    exact ⟨taken, behind, _, hsplit, Or.inl ⟨[], Or.inr htakes, rfl⟩⟩
  | cFamily | sql | matlab | markup | none => cases hstyle

/-- Behind a space or a tab that another match took, a hash sign begins no match. -/
theorem matchAt_hash_eq_none (hstyle : opensAtHash style = true) {c : Char} (hc : Class.spaceTab c = true)
    (index : Nat) (more : List Char) :
    (lexer style).pattern.matchAt index (some c) ('#' :: more) = none := by
  rw [Option.eq_none_iff_forall_ne_some]
  intro found hfound
  obtain ⟨behind, parts, hrest, htakes, -⟩ := Match.exists_takes hfound
  obtain ⟨d, rest, htext⟩ := List.exists_cons_of_ne_nil (ne_nil_of_matchAt (exceeds_lexer hstyle) hfound)
  rw [htext, List.cons_append] at hrest
  obtain ⟨rfl, -⟩ := List.cons.inj hrest
  have hopens : ∀ {pattern : Pattern} {parts : Parts}, pattern.Takes (some c) found.text behind parts →
      pattern.opensOutside ['#'] = true → False := by
    intro pattern parts htakes hopens
    obtain ⟨d, rest', htext', hd⟩ := htakes.exists_head hopens
    obtain ⟨rfl, -⟩ := List.cons.inj (htext.symm.trans htext')
    exact hd (List.mem_singleton_self _)
  have hhash : ∀ {body close : Pattern} {parts : Parts},
      (beforeHash ++ char '#' ++ body ++ close).Takes (some c) found.text behind parts → False :=
    fun htakes => ne_hash_of_openings rfl hc (exists_of_takes_opening htakes) rest htext
  -- Everything else that a lexer finds opens with another character.
  cases style with
  | hash =>
    rcases htakes with ⟨inner, hcomment, -⟩ | hliteral
    · exact hhash hcomment
    · exact hopens hliteral (by decide)
  | php =>
    rcases htakes with ⟨inner, hblock | hslashes | hcomment, -⟩ | hliteral
    · exact hopens hblock (by decide)
    · exact hopens hslashes (by decide)
    · exact hhash hcomment
    · exact hopens hliteral (by decide)
  | powerShell =>
    rcases htakes with ⟨inner, hangle | hcomment, -⟩ | hliteral
    · exact hopens hangle (by decide)
    · exact hhash hcomment
    · exact hopens hliteral (by decide)
  | cFamily | sql | matlab | markup | none => cases hstyle

/-! ### Which hash signs stay -/

/-- A comment that took its line break and some of the next line. -/
def TookIndentation (found : Match) : Prop :=
  (found.label? .comment).isSome = true ∧ ∃ body indentation, found.text = body ++ '\n' :: indentation ∧
    indentation ≠ [] ∧ ∀ c ∈ indentation, Class.spaceTab c = true

/-- A match that ends with a space or a tab before the end of the text is a comment that took them. -/
theorem tookIndentation_of_matchAt (hstyle : opensAtHash style = true) {rest : List Char} {found : Match}
    (hfound : (lexer style).pattern.matchAt index prev (found.text ++ rest) = some found) (hrest : rest ≠ [])
    {c : Char} (hlast : found.text.getLast? = some c) (hc : Class.spaceTab c = true) :
    TookIndentation found := by
  have hin : c ∈ [' ', '\t'] := by simpa [Class.spaceTab] using hc
  have hends : ∀ {chars : List Char}, c ∈ chars → ¬ ∃ c, found.text.getLast? = some c ∧ c ∉ chars := by
    rintro chars hmem ⟨d, hd, hnot⟩
    rw [hlast] at hd
    obtain rfl := Option.some.inj hd
    exact hnot hmem
  constructor
  · obtain ⟨behind, parts, -, htakes, hlabels⟩ := Match.exists_takes hfound
    have hcomment : ∃ inner, parts = (.comment, found.text) :: inner := by
      cases style with
      | hash | php | powerShell =>
        rcases htakes with ⟨inner, -, hparts⟩ | hliteral
        · exact ⟨inner, hparts⟩
        · have houtside : literals.endsOutside [' ', '\t'] = true := by decide
          exact absurd (hliteral.exists_getLast? houtside) (hends hin)
      | cFamily | sql | matlab | markup | none => cases hstyle
    obtain ⟨inner, rfl⟩ := hcomment
    rw [← Option.isSome_map (f := Span.text), hlabels]
    rfl
  · obtain ⟨behind, hbehind, hcloses⟩ := closesLine_of_matchAt hstyle hfound
    obtain rfl := List.append_cancel_left hbehind
    rcases hcloses with hother | hend | ⟨body, indentation, htext, hindentation⟩
    · exact absurd hother (hends hin)
    · exact absurd hend hrest
    · refine ⟨body, indentation, htext, ?_, hindentation⟩
      rintro rfl
      rw [htext, List.getLast?_concat] at hlast
      obtain rfl := Option.some.inj hlast
      cases hc

/-- Where a comment can begin, the text goes on with a match. -/
theorem not_segmented_plain (hstyle : opensAtHash style = true) (hopens : OpensComment prev before)
    (hmore : style = .php → more.head? ≠ some '[') {text : List Char} (htext : text = before ++ '#' :: more)
    {c : Char} {segments : List Segment} :
    ¬ Segmented (lexer style).pattern index prev text (.plain c :: segments) := by
  intro h
  cases h with
  | plain hnone _ =>
    obtain ⟨found, hfound⟩ := exists_matchAt_opening hstyle hopens hmore index
    rw [← htext] at hfound
    exact ne_nil_of_matchAt (exceeds_lexer hstyle) hfound (hnone found hfound)

/-- A hash sign that stays where a comment could begin stands behind a comment that took its
indentation. The cases are what stands before it: nothing, a character that stays, or a match. -/
theorem tookIndentation_of_plain (hstyle : opensAtHash style = true) {text : List Char}
    {done todo : List Segment} (hsegments : (lexer style).pattern.segments text = done ++ .plain '#' :: todo)
    (hmore : style = .php → (todo.flatMap Segment.text).head? ≠ some '[')
    (hplace : ∀ c ∈ (done.flatMap Segment.text).getLast?, c = '\n' ∨ Class.spaceTab c = true) :
    ∃ before found, done = before ++ [.hit found] ∧ TookIndentation found := by
  have hsegmented := segments_segmented (lexer style).pattern text
  rw [hsegments] at hsegmented
  rcases List.eq_nil_or_concat' done with rfl | ⟨before, segment, rfl⟩
  · have htext : text = [] ++ '#' :: todo.flatMap Segment.text := hsegmented.flatMap_text.symm
    exact absurd hsegmented (not_segmented_plain hstyle (Or.inl ⟨rfl, Or.inl rfl⟩) hmore htext)
  · rw [List.append_assoc] at hsegmented
    obtain ⟨index, rest, -, hrest⟩ := hsegmented.exists_of_append
    cases segment with
    | plain c =>
      rcases hplace c (by simp [Segment.text]) with rfl | hc
      · cases hrest with
        | plain _ hnext =>
          exact absurd hnext
            (not_segmented_plain hstyle (Or.inl ⟨rfl, Or.inr rfl⟩) hmore hnext.flatMap_text.symm)
      · have htext : rest = [c] ++ '#' :: todo.flatMap Segment.text := hrest.flatMap_text.symm
        exact absurd hrest (not_segmented_plain hstyle (Or.inr ⟨c, rfl, hc⟩) hmore htext)
    | hit found =>
      cases hrest with
      | @hit _ _ _ behind _ _ hfound hsplit hnext =>
        have htext : behind = '#' :: todo.flatMap Segment.text := hnext.flatMap_text.symm
        obtain ⟨c, hlast⟩ := Option.ne_none_iff_exists'.mp
          (mt List.getLast?_eq_none_iff.mp (ne_nil_of_matchAt (exceeds_lexer hstyle) hfound))
        rcases hplace c (by simp [Segment.text, hlast]) with rfl | hc
        · rw [hlast, Option.some_or] at hnext
          exact absurd hnext (not_segmented_plain hstyle (Or.inl ⟨rfl, Or.inr rfl⟩) hmore htext)
        · rw [hsplit] at hfound
          exact ⟨before, found, rfl, tookIndentation_of_matchAt hstyle hfound (by simp [htext]) hlast hc⟩

/-- Behind such a comment a hash sign stays. -/
theorem plain_of_tookIndentation (hstyle : opensAtHash style = true) {text : List Char} {found : Match}
    {done todo : List Segment}
    (hsegments : (lexer style).pattern.segments text = done ++ [.hit found] ++ todo)
    (htodo : todo.flatMap Segment.text = '#' :: more) (hfound : TookIndentation found) :
    todo.head? = some (.plain '#') := by
  obtain ⟨-, body, indentation, htext, hne, hindentation⟩ := hfound
  have hsegmented := segments_segmented (lexer style).pattern text
  rw [hsegments] at hsegmented
  obtain ⟨index, rest, -, hrest⟩ := hsegmented.exists_of_append
  obtain ⟨c, hlast⟩ := Option.ne_none_iff_exists'.mp (mt List.getLast?_eq_none_iff.mp hne)
  have hc := hindentation c (List.mem_of_getLast? hlast)
  have hprev : ((done ++ [Segment.hit found]).flatMap Segment.text).getLast?.or none = some c := by
    simp [Segment.text, htext, hlast, List.getLast?_cons]
  have hrestText : rest = '#' :: more := hrest.flatMap_text.symm.trans htodo
  rw [hprev, hrestText] at hrest
  cases hrest with
  | plain => rfl
  | hit hfound =>
    rw [matchAt_hash_eq_none hstyle hc] at hfound
    cases hfound

/-- A hash sign that stands at the beginning of a line or after a space or a tab, outside what the
matches before it took, stays in the text exactly if the last of them is a comment that took its line
break and the indentation before the sign. -/
theorem plain_hash_iff (hstyle : opensAtHash style = true) {text : List Char} {done todo : List Segment}
    (hsegments : (lexer style).pattern.segments text = done ++ todo)
    (htodo : todo.flatMap Segment.text = '#' :: more) (hmore : style = .php → more.head? ≠ some '[')
    (hplace : ∀ c ∈ (done.flatMap Segment.text).getLast?, c = '\n' ∨ Class.spaceTab c = true) :
    todo.head? = some (.plain '#') ↔
      ∃ before found, done = before ++ [.hit found] ∧ TookIndentation found := by
  constructor
  · intro hplain
    obtain ⟨todo, rfl⟩ := List.head?_eq_some_iff.mp hplain
    have htext : todo.flatMap Segment.text = more := (List.cons.inj htodo).2
    exact tookIndentation_of_plain hstyle hsegments (by rw [htext]; exact hmore) hplace
  · rintro ⟨before, found, rfl, hfound⟩
    exact plain_of_tookIndentation hstyle hsegments htodo hfound

/-- Two comments on lines of the same indentation. -/
def twoComments : List Char := "if x:\n    # a\n    # b\n    y()\n".toList

/-- The first of them goes and takes the indentation of the second, which stays. -/
theorem plain_hash_twoComments :
    opensAtHash .hash = true ∧
      (((lexer .hash).pattern.segments twoComments).drop 10).flatMap Segment.text =
        '#' :: " b\n    y()\n".toList ∧
      (∀ c ∈ ((((lexer .hash).pattern.segments twoComments).take 10).flatMap Segment.text).getLast?,
        c = '\n' ∨ Class.spaceTab c = true) ∧
      ((((lexer .hash).pattern.segments twoComments).drop 10).head? = some (.plain '#') ↔
        ∃ before found, ((lexer .hash).pattern.segments twoComments).take 10 = before ++ [.hit found] ∧
          TookIndentation found) := by
  have htodo : (((lexer .hash).pattern.segments twoComments).drop 10).flatMap Segment.text =
      '#' :: " b\n    y()\n".toList := by decide +kernel
  have hlast : ((((lexer .hash).pattern.segments twoComments).take 10).flatMap Segment.text).getLast? =
      some ' ' := by decide +kernel
  have hplace : ∀ c ∈ ((((lexer .hash).pattern.segments twoComments).take 10).flatMap Segment.text).getLast?,
      c = '\n' ∨ Class.spaceTab c = true := by
    rintro c hc
    rw [hlast, Option.mem_some] at hc
    exact Or.inr (hc ▸ rfl)
  exact ⟨rfl, htodo, hplace, plain_hash_iff rfl (List.take_append_drop 10 _).symm htodo nofun hplace⟩

/-- So a comment stays in the masked text. -/
theorem mask_twoComments :
    (MaskedText.mask (lexer .hash) true twoComments).map MaskedText.text =
      .ok "if x:\n   \n    # b\n    y()\n".toList := by
  decide +kernel

/-! ### What takes the place of a match -/

theorem hash_not_mem_render (index : Nat) : '#' ∉ Placeholder.render index := by
  intro h
  rw [Placeholder.render, List.mem_cons, List.mem_append, List.mem_singleton] at h
  rcases h with hopening | hdigit | hclosing
  · exact absurd hopening (by decide)
  · exact absurd (Nat.isDigit_of_mem_toDigits (by decide) (by decide) hdigit) (by decide)
  · exact absurd hclosing (by decide)

theorem hash_not_mem_leaveBreak (comment : List Char) : '#' ∉ Lexer.leaveBreak comment :=
  fun h => absurd (Lexer.mem_leaveBreak h) (by decide)

/-- The line at the beginning of a file that names the program which runs it. -/
def IsShebang (found : Match) : Prop := found.start = 0 ∧ ['#', '!'] <+: found.text

/-- A match is a comment as a whole, or a literal as a whole. -/
theorem labels_of_matchAt (hstyle : opensAtHash style = true) {rest : List Char} {found : Match}
    (hfound : (lexer style).pattern.matchAt index prev rest = some found) :
    (∃ span, found.label? .comment = some span ∧ span.text = found.text ∧ span.start = found.start) ∨
      found.label? .comment = none ∧ found.label? .literal = none := by
  have hpattern : (lexer style).pattern = (.label .comment (choice (comments style)) <|> literals) := by
    cases style with
    | hash | php | powerShell => rfl
    | cFamily | sql | matlab | markup | none => cases hstyle
  have hlacks : (lexer style).pattern.lacks .literal = true := by
    cases style with
    | hash | php | powerShell => decide
    | cFamily | sql | matlab | markup | none => cases hstyle
  have hliteral := Match.label?_eq_none hlacks hfound
  rw [hpattern] at hfound
  rcases Match.comment_cases (by decide) hfound with hlabel | hcomment
  · obtain ⟨span, -, -, hspan, hstart, htext, -⟩ := Match.exists_label hlabel
    obtain ⟨-, -, -, hindex⟩ := exists_of_matchAt hfound
    exact Or.inl ⟨span, hspan, htext, hstart.trans hindex.symm⟩
  · exact Or.inr ⟨hcomment, hliteral⟩

/-- What takes the place of a match holds no hash sign, unless the match names the program. -/
theorem hash_not_mem_replaceMatch (hstyle : opensAtHash style = true) {rest : List Char} {found : Match}
    (hfound : (lexer style).pattern.matchAt index prev rest = some found) (hshebang : ¬ IsShebang found)
    (literals : Array (List Char)) :
    '#' ∉ (MaskedText.replaceMatch (lexer style) true literals found).1 := by
  rcases labels_of_matchAt hstyle hfound with ⟨span, hspan, htext, hstart⟩ | ⟨hcomment, hliteral⟩
  · have hstrip : (lexer style).strip span.text span.start = some (Lexer.leaveBreak span.text) := by
      refine if_neg fun hnamed => hshebang ?_
      rw [htext, hstart, List.isPrefixOf_iff_prefix] at hnamed
      exact hnamed
    rw [MaskedText.replaceMatch, hspan]
    simp only [if_true, hstrip]
    exact hash_not_mem_leaveBreak span.text
  · rw [MaskedText.replaceMatch, hcomment, MaskedText.setAsideMatch, hliteral]
    exact hash_not_mem_render literals.size

/-- A hash sign is written for a hash sign outside all matches, unless a match names the program. -/
theorem plain_hash_mem_of_replaceFrom (hstyle : opensAtHash style = true) {text : List Char}
    {segments : List Segment} (h : Segmented (lexer style).pattern index prev text segments)
    (hshebang : ∀ found, .hit found ∈ segments → ¬ IsShebang found) (literals : Array (List Char))
    (hhash : '#' ∈ (replaceFrom (MaskedText.replaceMatch (lexer style) true) segments literals).1) :
    .plain '#' ∈ segments := by
  induction h generalizing literals with
  | done => cases hhash
  | plain _ _ ih =>
    rcases List.mem_cons.mp hhash with rfl | hrest
    · exact List.mem_cons_self
    · exact List.mem_cons_of_mem _ (ih (fun found hfound => hshebang found (List.mem_cons_of_mem _ hfound))
        literals hrest)
  | hit hfound _ _ ih =>
    rcases List.mem_append.mp hhash with hnew | hrest
    · exact absurd hnew
        (hash_not_mem_replaceMatch hstyle hfound (hshebang _ List.mem_cons_self) literals)
    · exact List.mem_cons_of_mem _ (ih (fun found hfound => hshebang found (List.mem_cons_of_mem _ hfound))
        _ hrest)

/-- A hash sign that is left when comments go follows something else on its line, opens an attribute, or
stands behind an indentation that the comment above it took. -/
theorem exists_of_hash_mem_mask (hstyle : opensAtHash style = true) {text : List Char} {masked : MaskedText}
    (hmask : MaskedText.mask (lexer style) true text = .ok masked) (hhash : '#' ∈ masked.text)
    (hshebang : ∀ found, .hit found ∈ (lexer style).pattern.segments text → ¬ IsShebang found) :
    ∃ done todo, (lexer style).pattern.segments text = done ++ .plain '#' :: todo ∧
      ((∃ c, (done.flatMap Segment.text).getLast? = some c ∧ c ≠ '\n' ∧ Class.spaceTab c = false) ∨
        style = .php ∧ (todo.flatMap Segment.text).head? = some '[' ∨
        ∃ before found, done = before ++ [.hit found] ∧ TookIndentation found) := by
  have hplain : .plain '#' ∈ (lexer style).pattern.segments text := by
    rw [MaskedText.mask, if_neg (mt MaskedText.reserved_iff.mp (MaskedText.not_reserved_of_mask hmask))] at hmask
    obtain rfl := Except.ok.inj hmask
    rw [MaskedText.replaceSegments_eq] at hhash
    exact plain_hash_mem_of_replaceFrom hstyle (segments_segmented _ text) hshebang _ hhash
  obtain ⟨done, todo, hsegments⟩ := List.append_of_mem hplain
  refine ⟨done, todo, hsegments, ?_⟩
  by_cases hplace : ∀ c ∈ (done.flatMap Segment.text).getLast?, c = '\n' ∨ Class.spaceTab c = true
  · by_cases hattribute : style = .php ∧ (todo.flatMap Segment.text).head? = some '['
    · exact Or.inr (Or.inl hattribute)
    · exact Or.inr (Or.inr (tookIndentation_of_plain hstyle hsegments (not_and.mp hattribute) hplace))
  · left
    simp only [not_forall, not_or] at hplace
    obtain ⟨c, hc, hbreak, hblank⟩ := hplace
    exact ⟨c, hc, hbreak, Bool.eq_false_iff.mpr hblank⟩

end Minifier.Generic
