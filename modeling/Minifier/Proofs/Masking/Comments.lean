import Minifier.Proofs.Masking.SetAside
import Minifier.Proofs.Pattern.Enclosed
import Minifier.Proofs.Pattern.Shape
import Minifier.Proofs.Pattern.Taken

/-!
The comments that a lexer finds. A comment is all of its match, so what is left of it can be read off what the
match took; and if that is a space for every comment, then masking a text without its comments is masking it
with a space in the place of each.
-/

namespace Minifier

open Pattern

variable {lexer : Lexer} {body rest : Pattern} {index : Nat} {prev : Option Char} {text : List Char} {found : Match}

/-! ### Comments are whole matches -/

/-- No label of a match has a name that no label of the pattern has. -/
theorem Match.label?_eq_none {pattern : Pattern} {name : Label} (h : pattern.lacks name = true)
    (hfound : pattern.matchAt index prev text = some found) : found.label? name = none := by
  obtain ⟨behind, parts, -, htakes, hlabels⟩ := Match.exists_takes hfound
  exact Option.map_eq_none_iff.mp ((hlabels name).trans (htakes.lookup_eq_none h))

/-- A label that every match passes is one of the match's. -/
theorem Match.label?_isSome {pattern : Pattern} {name : Label} (h : pattern.passes name = true)
    (hfound : pattern.matchAt index prev text = some found) : (found.label? name).isSome = true := by
  obtain ⟨behind, parts, -, htakes, hlabels⟩ := Match.exists_takes hfound
  rw [← Option.isSome_map, hlabels name]
  exact htakes.lookup_isSome h

/-- A label around a pattern takes all of the match. -/
theorem Match.exists_label {name : Label} (hfound : (label name body).matchAt index prev text = some found) :
    ∃ span behind parts, found.label? name = some span ∧ span.start = index ∧ span.text = found.text ∧
      body.Takes prev found.text behind parts := by
  obtain ⟨behind, parts, -, ⟨inner, hbody, rfl⟩, hlabels⟩ := Match.exists_takes hfound
  have hlabel := hlabels name
  rw [List.lookup_cons_self] at hlabel
  obtain ⟨span, hspan, htext⟩ := Option.map_eq_some_iff.mp hlabel
  obtain ⟨before, after, hsplit, hstart, -⟩ := Match.span_within hfound hspan
  obtain ⟨-, -, -, hindex⟩ := exists_of_matchAt hfound
  have hbefore : before = [] := by
    have hlength := congrArg List.length hsplit
    rw [htext, List.length_append, List.length_append] at hlength
    exact List.eq_nil_of_length_eq_zero (by omega)
  refine ⟨span, behind, inner, hspan, ?_, htext, hbody⟩
  rw [hstart, hindex, hbefore]
  rfl

/-- A match is a comment as a whole, or it holds none. -/
theorem Match.comment_cases (hrest : rest.lacks .comment = true)
    (hfound : (label .comment body <|> rest).matchAt index prev text = some found) :
    (label .comment body).matchAt index prev text = some found ∨ found.label? .comment = none := by
  have hpattern : (label .comment body <|> rest) = alt (label .comment body) rest := rfl
  rw [hpattern, matchAt_alt, Option.or_eq_some_iff] at hfound
  rcases hfound with hcomment | ⟨-, hliteral⟩
  · exact Or.inl hcomment
  · exact Or.inr (label?_eq_none hrest hliteral)

/-! ### The rest of a line -/

section RestOfLine

variable {spot : Spot} {next : Spot → Option Spot}

/-- What is taken of a line break and the indentation behind it. -/
def IsBreak (taken behind : List Char) : Prop :=
  taken = [] ∧ behind = [] ∨ ∃ indentation, taken = '\n' :: indentation ∧ ∀ c ∈ indentation, Class.spaceTab c = true

/-- A line break is taken with all of the indentation behind it. -/
theorem Lexer.walk_break {rest : List Char} (hspot : spot.rest = '\n' :: rest)
    (hnext : ∀ stop, (next stop).isSome = true) :
    (char '\n' ++ run Class.spaceTab).walk spot next = next ((spot.after ['\n'] rest).behind Class.spaceTab) := by
  rw [walk_append, walk_char hspot]
  exact walk_run_of_isSome (hnext _)

theorem Lexer.walk_lineBreak_of_break {rest : List Char} (hspot : spot.rest = '\n' :: rest)
    (hnext : ∀ stop, (next stop).isSome = true) :
    lineBreak.walk spot next = next ((spot.after ['\n'] rest).behind Class.spaceTab) := by
  obtain ⟨found, hfound⟩ := Option.isSome_iff_exists.mp (hnext ((spot.after ['\n'] rest).behind Class.spaceTab))
  rw [lineBreak, Pattern.optional, walk, walk_break hspot hnext, hfound]

/-- At the end of the text there is none to take. -/
theorem Lexer.walk_lineBreak_of_end (hspot : spot.rest = []) : lineBreak.walk spot next = next spot := by
  have hnone : (char '\n' ++ run Class.spaceTab).walk spot next = none := by
    rw [walk_append, char, walk, hspot]
  rw [lineBreak, Pattern.optional, walk, hnone, walk]

/-- A line break is taken if it stands next. -/
theorem Lexer.exists_walk_lineBreak (hspot : spot.rest = [] ∨ ∃ rest, spot.rest = '\n' :: rest)
    (hnext : ∀ stop, (next stop).isSome = true) : ∃ taken reached, lineBreak.walk spot next = next reached ∧
      spot.rest = taken ++ reached.rest ∧ reached.index = spot.index + taken.length ∧ IsBreak taken reached.rest := by
  rcases hspot with hend | ⟨rest, hbreak⟩
  · exact ⟨[], spot, walk_lineBreak_of_end hend, rfl, rfl, Or.inl ⟨rfl, hend⟩⟩
  · refine ⟨'\n' :: rest.takeWhile Class.spaceTab, _, walk_lineBreak_of_break hbreak hnext, ?_, ?_,
      Or.inr ⟨_, rfl, List.all_eq_true.mp List.all_takeWhile⟩⟩
    · rw [hbreak]
      exact cons_takeWhile_append_dropWhile '\n' Class.spaceTab rest
    · simp only [Spot.behind, Spot.after_index, Spot.after_rest, List.length_cons, List.length_nil]
      omega

/-- A run to the end of a line takes the whole line, since what comes after it cannot fail. -/
theorem Lexer.exists_walk_restOfLine (hnext : ∀ stop, (next stop).isSome = true) (spot : Spot) :
    ∃ taken reached, ((run Class.inLine).walk spot fun stop => lineBreak.walk stop next) = next reached ∧
      spot.rest = spot.rest.takeWhile Class.inLine ++ taken ++ reached.rest ∧
      reached.index = spot.index + (spot.rest.takeWhile Class.inLine ++ taken).length ∧
      IsBreak taken reached.rest := by
  have hline : (spot.behind Class.inLine).rest = [] ∨ ∃ rest, (spot.behind Class.inLine).rest = '\n' :: rest :=
    dropWhile_inLine spot.rest
  obtain ⟨taken, reached, hwalk, hrest, hindex, hbreak⟩ := exists_walk_lineBreak hline hnext
  have hsome : (lineBreak.walk (spot.behind Class.inLine) next).isSome = true := by
    rw [hwalk]
    exact hnext reached
  have hbehind : spot.rest.dropWhile Class.inLine = taken ++ reached.rest := hrest
  refine ⟨taken, reached, (walk_run_of_isSome hsome).trans hwalk, ?_, ?_, hbreak⟩
  · rw [List.append_assoc, ← hbehind, List.takeWhile_append_dropWhile]
  · rw [hindex, Spot.behind, Spot.after_index, List.length_append, Nat.add_assoc]

end RestOfLine

/-! ### What is left of a comment -/

namespace Lexer

/-- What is left of a comment is a space, or a line break with an indentation. -/
theorem mem_leaveBreak {comment : List Char} {c : Char} (h : c ∈ leaveBreak comment) : c ∈ ['\n', ' ', '\t'] := by
  simp only [leaveBreak] at h
  split at h
  · rcases List.mem_cons.mp h with rfl | hmem
    · exact List.mem_cons_self
    · have hblank : Class.spaceTab c = true := List.all_eq_true.mp List.all_takeWhile c (List.mem_reverse.mp hmem)
      exact List.mem_cons_of_mem _ (by simpa [Class.spaceTab] using hblank)
  · exact List.mem_cons_of_mem _ (List.mem_singleton.mp h ▸ List.mem_cons_self)

theorem forall_mem_leaveBreak {accepts : Char → Bool} (h : ['\n', ' ', '\t'].all accepts = true) (comment : List Char) :
    ∀ c ∈ leaveBreak comment, accepts c = true := fun c hc => List.all_eq_true.mp h c (mem_leaveBreak hc)

theorem leaveBreak_ne_nil (comment : List Char) : leaveBreak comment ≠ [] := by
  simp only [leaveBreak]
  split <;> exact List.cons_ne_nil _ _

/-- A comment that takes no line break along leaves a space. -/
theorem leaveBreak_eq_space {comment : List Char}
    (h : '\n' ∉ comment ∨ ∃ c, comment.getLast? = some c ∧ c ∉ ['\n', ' ', '\t']) : leaveBreak comment = [' '] := by
  simp only [leaveBreak]
  split
  · rename_i more hdrop
    rcases h with hmem | ⟨c, hlast, hc⟩
    · have hin : '\n' ∈ comment.reverse := List.mem_of_mem_drop (hdrop ▸ List.mem_cons_self)
      exact absurd (List.mem_reverse.mp hin) hmem
    · obtain ⟨front, rfl⟩ := List.getLast?_eq_some_iff.mp hlast
      simp only [List.mem_cons, List.not_mem_nil, or_false, not_or] at hc
      have hblank : Class.spaceTab c = false := by simp [Class.spaceTab, hc]
      rw [List.reverse_concat, List.takeWhile_cons_of_neg (Bool.eq_false_iff.mp hblank), List.length_nil,
        List.drop_zero] at hdrop
      exact absurd (List.cons.inj hdrop).1 hc.1
  · rfl

/-- Every comment of a lexer leaves a space. -/
def LeavesSpaces (lexer : Lexer) : Prop :=
  ∀ index prev rest found span, lexer.pattern.matchAt index prev rest = some found →
    found.label? .comment = some span → lexer.strip span.text span.start = some [' ']

theorem LeavesSpaces.of_lacks (h : lexer.pattern.lacks .comment = true) : lexer.LeavesSpaces := by
  intro index prev rest found span hfound hspan
  rw [Match.label?_eq_none h hfound] at hspan
  cases hspan

theorem LeavesSpaces.of_takes (hpattern : lexer.pattern = (label .comment body <|> rest))
    (hstrip : lexer.strip = stripAll) (hrest : rest.lacks .comment = true)
    (h : ∀ prev taken behind parts, body.Takes prev taken behind parts →
      '\n' ∉ taken ∨ ∃ c, taken.getLast? = some c ∧ c ∉ ['\n', ' ', '\t']) : lexer.LeavesSpaces := by
  intro index prev text found span hfound hspan
  rw [hpattern] at hfound
  rcases Match.comment_cases hrest hfound with hcomment | hnone
  · obtain ⟨span', behind, parts, hspan', -, htext, htakes⟩ := Match.exists_label hcomment
    obtain rfl := Option.some.inj (hspan.symm.trans hspan')
    rw [hstrip, stripAll, htext, leaveBreak_eq_space (h _ _ _ _ htakes)]
  · rw [hspan] at hnone
    cases hnone

end Lexer

/-! ### Masking without comments -/

/-- A space in the place of a comment. -/
def Segment.withoutComment : Segment → Segment
  | .plain c => .plain c
  | .hit found => if (found.label? .comment).isSome then .plain ' ' else .hit found

/-- The segments of a text in which a space stands in the place of each comment, if comments go. -/
def Lexer.pieces (lexer : Lexer) (stripComments : Bool) (text : List Char) : List Segment :=
  if stripComments then (lexer.pattern.segments text).map Segment.withoutComment else lexer.pattern.segments text

/-- Where no comment is ever found, all of them are left. -/
theorem Lexer.pieces_of_lacks (h : lexer.pattern.lacks .comment = true) (stripComments : Bool) (text : List Char) :
    lexer.pieces stripComments text = lexer.pattern.segments text := by
  have hall {index prev text segments} (hsegments : lexer.pattern.Segmented index prev text segments) :
      segments.map Segment.withoutComment = segments := by
    induction hsegments with
    | done => rfl
    | plain _ _ ih => rw [List.map_cons, ih, Segment.withoutComment]
    | hit hfound _ _ ih =>
      rw [List.map_cons, ih, Segment.withoutComment, Match.label?_eq_none h hfound]
      rfl
  rw [pieces, hall (segments_segmented _ text), ite_self]

namespace MaskedText

private theorem replaceFrom_withoutComment (h : lexer.LeavesSpaces) {segments : List Segment}
    (hsegments : lexer.pattern.Segmented index prev text segments) (literals : Array (List Char)) :
    replaceFrom (replaceMatch lexer true) segments literals =
      replaceFrom (replaceMatch lexer false) (segments.map Segment.withoutComment) literals := by
  induction hsegments generalizing literals with
  | done => rfl
  | plain _ _ ih => simp only [List.map_cons, Segment.withoutComment, replaceFrom, ih]
  | @hit _ _ _ _ found _ hfound _ _ ih =>
    cases hspan : found.label? .comment with
    | none =>
      have hsame : replaceMatch lexer true literals found = replaceMatch lexer false literals found := by
        simp only [replaceMatch, hspan]
      simp [Segment.withoutComment, replaceFrom, hspan, hsame, ih]
    | some span =>
      have hspace : replaceMatch lexer true literals found = ([' '], literals) := by
        simp only [replaceMatch, hspan, if_true, h _ _ _ _ _ hfound hspan]
      simp [Segment.withoutComment, replaceFrom, hspan, hspace, ih]

/-- Whether comments go or stay, what is set aside is read off the same segments but for the comments. -/
theorem mask_eq (h : lexer.LeavesSpaces) (stripComments : Bool) (htext : reserved text = false) :
    mask lexer stripComments text =
      .ok (replaceSegments (replaceMatch lexer false) (lexer.pieces stripComments text) #[]) := by
  rw [mask, htext, Lexer.pieces]
  cases stripComments with
  | false => rfl
  | true =>
    simp only [replaceSegments_eq, replaceFrom_withoutComment h (segments_segmented _ text) #[]]
    rfl

end MaskedText

end Minifier

/-!
## Comments to the end of a line

Such a comment takes the rest of its line, the line break and all of the indentation
behind that, whatever opens it.
-/

namespace Minifier

open Pattern

/-- What a comment takes behind its line: nothing at the end of the text, or the line break with all of the indentation
behind that. -/
def EndsComment (taken behind : List Char) : Prop :=
  taken = [] ∧ behind = [] ∨ ∃ indentation, taken = '\n' :: indentation ∧
    indentation.all Class.spaceTab = true ∧ behind.head?.any Class.spaceTab = false

variable {body tail behind : List Char}

theorem EndsComment.head?_any_inLine (h : EndsComment tail behind) :
    (tail ++ behind).head?.any Class.inLine = false := by
  rcases h with ⟨rfl, rfl⟩ | ⟨indentation, rfl, -⟩ <;> rfl

namespace Lexer

variable {spot : Spot} {next : Spot → Option Spot}

/-- A line break and an indentation are taken, if what comes after these cannot fail. -/
theorem walk_break_append {indentation : List Char} (hspot : spot.rest = '\n' :: (indentation ++ behind))
    (hindentation : indentation.all Class.spaceTab = true) (hbehind : behind.head?.any Class.spaceTab = false)
    (hnext : ∀ stop, (next stop).isSome = true) :
    (char '\n' ++ run Class.spaceTab).walk spot next = next (spot.after ('\n' :: indentation) behind) := by
  obtain ⟨htake, hdrop⟩ := takeWhile_append_of_head (List.all_eq_true.mp hindentation) hbehind
  rw [walk_break hspot hnext, Spot.behind, Spot.after_rest, htake, hdrop, Spot.after_after, List.singleton_append]

/-- The end of the line is taken as a whole, whatever is tried where there is no line break. -/
theorem walk_alt_break {last : Pattern} (hspot : spot.rest = tail ++ behind) (htail : EndsComment tail behind)
    (hnext : ∀ stop, (next stop).isSome = true) (hlast : spot.rest = [] → last.walk spot next = next spot) :
    (alt (char '\n' ++ run Class.spaceTab) last).walk spot next = next (spot.after tail behind) := by
  rcases htail with ⟨rfl, rfl⟩ | ⟨indentation, rfl, hindentation, hbehind⟩
  · have hnone : (char '\n' ++ run Class.spaceTab).walk spot next = none :=
      ((opensWith_char '\n').append _).walk_eq_none (by simp [hspot])
    rw [walk, hnone, hlast hspot]
    obtain ⟨index, prev, rest, labels⟩ := spot
    obtain rfl : rest = [] := hspot
    rfl
  · obtain ⟨found, hfound⟩ := Option.isSome_iff_exists.mp (hnext (spot.after ('\n' :: indentation) behind))
    rw [walk, walk_break_append hspot hindentation hbehind hnext, hfound]

/-- A run takes the line, if what comes after it does not fail there. -/
theorem walk_line (hspot : spot.rest = body ++ (tail ++ behind)) (hbody : '\n' ∉ body)
    (htail : EndsComment tail behind) (hnext : (next (spot.after body (tail ++ behind))).isSome = true) :
    (run Class.inLine).walk spot next = next (spot.after body (tail ++ behind)) := by
  have hline : ∀ c ∈ body, Class.inLine c = true := fun c hc => bne_iff_ne.mpr fun heq => hbody (heq ▸ hc)
  obtain ⟨htake, hdrop⟩ := takeWhile_append_of_head hline htail.head?_any_inLine
  have hstop : spot.behind Class.inLine = spot.after body (tail ++ behind) := by
    rw [Spot.behind, hspot, htake, hdrop]
  rw [← hstop] at hnext ⊢
  exact walk_run_of_isSome hnext

/-- And with it the end of the line. -/
theorem walk_restOfLine (hspot : spot.rest = body ++ (tail ++ behind)) (hbody : '\n' ∉ body)
    (htail : EndsComment tail behind) (hnext : ∀ stop, (next stop).isSome = true) :
    ((run Class.inLine).walk spot fun stop => lineBreak.walk stop next) = next (spot.after (body ++ tail) behind) := by
  have hbreak : lineBreak.walk (spot.after body (tail ++ behind)) next = next (spot.after (body ++ tail) behind) := by
    rw [lineBreak, Pattern.optional, walk_alt_break rfl htail hnext fun _ => rfl, Spot.after_after]
  exact (walk_line hspot hbody htail ((congrArg Option.isSome hbreak).trans (hnext _))).trans hbreak

/-- A comment is found where its opening is taken. -/
theorem exists_matchAt_restOfLine {front : Pattern} {index : Nat} {prev : Option Char} {begun : List Char}
    (hfront : ∀ next : Spot → Option Spot, front.walk ⟨index, prev, begun ++ (body ++ (tail ++ behind)), []⟩ next =
      next (Spot.after ⟨index, prev, begun ++ (body ++ (tail ++ behind)), []⟩ begun (body ++ (tail ++ behind))))
    (hbody : '\n' ∉ body) (htail : EndsComment tail behind) :
    ∃ found, (label .comment (front ++ run Class.inLine ++ lineBreak)).matchAt index prev
        (begun ++ (body ++ tail) ++ behind) = some found ∧ found.text = begun ++ (body ++ tail) := by
  let start : Spot := ⟨index, prev, begun ++ (body ++ (tail ++ behind)), []⟩
  let next (stop : Spot) : Option Spot := some (Spot.remember .comment start stop)
  have hwalk : (label .comment (front ++ run Class.inLine ++ lineBreak)).walk start some =
      front.walk start fun stop => (run Class.inLine).walk stop fun reached => lineBreak.walk reached next := rfl
  rw [hfront, @walk_restOfLine _ _ _ _ next rfl hbody htail fun _ => rfl, Spot.after_after] at hwalk
  have htext : begun ++ (body ++ (tail ++ behind)) = begun ++ (body ++ tail) ++ behind := by simp
  rw [← htext]
  exact exists_matchAt_of_walk hwalk htext rfl

theorem exists_matchAt_lineComment (opening : String) (hbody : '\n' ∉ body) (htail : EndsComment tail behind)
    (index : Nat) (prev : Option Char) :
    ∃ found, (label .comment (lineComment opening)).matchAt index prev
        (opening.toList ++ (body ++ tail) ++ behind) = some found ∧ found.text = opening.toList ++ (body ++ tail) :=
  exists_matchAt_restOfLine (fun next => walk_word opening _ next rfl) hbody htail

end Lexer

end Minifier
