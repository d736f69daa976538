import Minifier.Proofs.Masking.Comments

/-!
Two lexers over one text. If wherever the one finds something the other finds the same, then they cut the
text alike and the same comments go. Where the one sets text aside for reasons that the other does not know, the
other has to pass over it: it must find no comment there, and nothing in it may go on behind it, since one literal
that is missed shifts where all later ones begin.
-/

namespace Minifier

open Pattern

/-! ### Comments that go -/

namespace Lexer

/-- A comment without a line break at its end and the indentation behind that. -/
def withoutBreak (comment : List Char) : List Char :=
  match comment.reverse.dropWhile Class.spaceTab with
  | '\n' :: more => more.reverse
  | _ => comment

/-- The comment that goes with a segment: where it begins, and its text up to a line break at its end. -/
def removed? (lexer : Lexer) : Segment → Option (Nat × List Char)
  | .plain _ => none
  | .hit found =>
    match found.label? .comment with
    | none => none
    | some span => (lexer.strip span.text span.start).map fun _ => (span.start, withoutBreak span.text)

/-- The comments that go from a text when comments go. -/
def removed (lexer : Lexer) (text : List Char) : List (Nat × List Char) :=
  (lexer.pattern.segments text).filterMap lexer.removed?

variable {lexer : Lexer} {found : Match}

theorem withoutBreak_append (comment : List Char) {indentation : List Char}
    (h : ∀ c ∈ indentation, Class.spaceTab c = true) : withoutBreak (comment ++ '\n' :: indentation) = comment := by
  have hindentation : ∀ c ∈ indentation.reverse, Class.spaceTab c = true := fun c hc => h c (List.mem_reverse.mp hc)
  rw [withoutBreak, List.reverse_append, List.reverse_cons, List.append_assoc,
    List.dropWhile_append_of_pos hindentation, List.singleton_append, List.dropWhile_cons_of_neg (by decide)]
  exact List.reverse_reverse comment

theorem withoutBreak_of_not_mem {comment : List Char} (h : '\n' ∉ comment) : withoutBreak comment = comment := by
  rw [withoutBreak]
  split
  · rename_i more hdrop
    have hin : '\n' ∈ comment.reverse := (List.dropWhile_sublist _).subset (hdrop ▸ List.mem_cons_self)
    exact absurd (List.mem_reverse.mp hin) h
  · rfl

theorem removed?_eq_none (h : found.label? .comment = none) : lexer.removed? (.hit found) = none := by
  rw [removed?, h]

/-- A match with which no comment goes is replaced as if all comments stayed. -/
theorem replaceMatch_of_removed? (h : lexer.removed? (.hit found) = none) (literals : Array (List Char)) :
    MaskedText.replaceMatch lexer true literals found = MaskedText.replaceMatch lexer false literals found := by
  rw [removed?] at h
  cases hspan : found.label? .comment with
  | none => simp only [MaskedText.replaceMatch, hspan]
  | some span =>
    have hstays : lexer.strip span.text span.start = none := by simpa [hspan] using h
    simp only [MaskedText.replaceMatch, hspan, hstays, if_true, Bool.false_eq_true, if_false]

/-- Where no comment goes, masking a text without its comments is masking it with them. -/
theorem mask_of_removed_eq_nil {text : List Char} (h : lexer.removed text = []) :
    MaskedText.mask lexer true text = MaskedText.mask lexer false text := by
  have hsame (segments : List Segment) (literals : Array (List Char))
      (hnone : ∀ segment ∈ segments, lexer.removed? segment = none) :
      replaceFrom (MaskedText.replaceMatch lexer true) segments literals =
        replaceFrom (MaskedText.replaceMatch lexer false) segments literals := by
    induction segments generalizing literals with
    | nil => rfl
    | cons segment todo ih =>
      obtain ⟨hsegment, htodo⟩ := List.forall_mem_cons.mp hnone
      cases segment with
      | plain c => simp only [replaceFrom, ih literals htodo]
      | hit found => simp only [replaceFrom, replaceMatch_of_removed? hsegment, ih _ htodo]
  have hnone := List.filterMap_eq_nil_iff.mp h
  simp only [MaskedText.mask, MaskedText.replaceSegments_eq, hsame _ _ hnone]

/-- All comments of a lexer go, and each of them is all of its match. -/
structure StripsWhole (lexer : Lexer) : Prop where
  exceeds : lexer.pattern.exceeds [] = true
  whole : ∀ index prev text found span, lexer.pattern.matchAt index prev text = some found →
    found.label? .comment = some span → span.start = index ∧ span.text = found.text
  strip : lexer.strip = stripAll

namespace StripsWhole

variable {index : Nat} {prev : Option Char} {text : List Char}

theorem of_label {body rest : Pattern} (hpattern : lexer.pattern = (label .comment body <|> rest))
    (hexceeds : lexer.pattern.exceeds [] = true) (hrest : rest.lacks .comment = true)
    (hstrip : lexer.strip = stripAll) : lexer.StripsWhole where
  exceeds := hexceeds
  whole := by
    intro index prev text found span hfound hspan
    rw [hpattern] at hfound
    rcases Match.comment_cases hrest hfound with hcomment | hnone
    · obtain ⟨span', -, -, hspan', hstart, htext, -⟩ := Match.exists_label hcomment
      obtain rfl := Option.some.inj (hspan.symm.trans hspan')
      exact ⟨hstart, htext⟩
    · rw [hspan] at hnone
      cases hnone
  strip := hstrip

theorem removed?_eq (h : lexer.StripsWhole) (hfound : lexer.pattern.matchAt index prev text = some found) :
    lexer.removed? (.hit found) =
      if (found.label? .comment).isSome then some (index, withoutBreak found.text) else none := by
  rw [removed?]
  cases hspan : found.label? .comment with
  | none => rfl
  | some span =>
    obtain ⟨rfl, htext⟩ := h.whole _ _ _ _ _ hfound hspan
    simp [h.strip, stripAll, htext]

end StripsWhole

end Lexer

/-! ### Passing over a text -/

/-- How a search goes through a text that it does not know to be set apart. -/
inductive Course where
  /-- It passes over the text. -/
  | past : Course
  /-- It finds a comment in the text. -/
  | comment : Course
  /-- A match in the text goes on behind it. -/
  | beyond : Course
  deriving DecidableEq, Repr

namespace Pattern

/-- How a search goes through a text that stands before another one. `busy` counts the characters that still
belong to the last match. -/
def passage (pattern : Pattern) :
    (index : Nat) → (prev : Option Char) → (busy : Nat) → (text behind : List Char) → Course
  | _, _, 0, [], _ => .past
  | _, _, _ + 1, [], _ => .beyond
  | index, _, busy + 1, c :: rest, behind => pattern.passage (index + 1) (some c) busy rest behind
  | index, prev, 0, c :: rest, behind =>
    match pattern.matchAt index prev (c :: (rest ++ behind)) with
    | none => pattern.passage (index + 1) (some c) 0 rest behind
    | some found =>
      if (found.label? .comment).isSome then .comment
      else pattern.passage (index + 1) (some c) (found.text.length - 1) rest behind

/-- How a search goes through the segments of another one that are set apart, up to the first that it does not pass
over. -/
def course (pattern : Pattern) (apart : Segment → Bool) :
    (index : Nat) → (prev : Option Char) → List Segment → Course
  | _, _, [] => .past
  | index, prev, segment :: todo =>
    match if apart segment then pattern.passage index prev 0 segment.text (todo.flatMap Segment.text) else .past with
    | .past => pattern.course apart (index + segment.text.length) (segment.text.getLast?.or prev) todo
    | other => other

variable {pattern : Pattern} {index busy : Nat} {prev : Option Char} {text behind rest : List Char}
  {segments : List Segment} {found : Match} {c : Char}

theorem le_of_passage (h : pattern.passage index prev busy text behind ≠ .beyond) : busy ≤ text.length := by
  induction text generalizing index prev busy with
  | nil =>
    cases busy with
    | zero => exact Nat.le_refl _
    | succ busy => exact absurd rfl h
  | cons c rest ih =>
    cases busy with
    | zero => exact Nat.zero_le _
    | succ busy => exact Nat.succ_le_succ (ih h)

/-- A match that does not go on behind a text ends in it, and the search goes on behind the match. -/
theorem segmented_hit (hexceeds : pattern.exceeds [] = true)
    (hmatch : pattern.matchAt index prev (c :: (rest ++ behind)) = some found)
    (hbusy : found.text.length - 1 ≤ rest.length)
    (h : pattern.Segmented (index + 1 + (found.text.length - 1))
      ((rest.take (found.text.length - 1)).getLast?.or (some c)) (rest.drop (found.text.length - 1) ++ behind)
      segments) :
    pattern.Segmented index prev (c :: (rest ++ behind)) (.hit found :: segments) := by
  obtain ⟨reached, hp, -, -⟩ := exists_of_matchAt hmatch
  have htext : c :: (rest ++ behind) = found.text ++ reached.rest := hp.rest
  obtain ⟨d, more, hmore⟩ := List.exists_cons_of_ne_nil (ne_nil_of_matchAt hexceeds hmatch)
  have hlength : found.text.length - 1 = more.length := by simp [hmore]
  rw [hlength] at hbusy h
  rw [hmore] at htext
  obtain ⟨rfl, hbehind⟩ := List.cons.inj htext
  obtain ⟨left, rfl⟩ : more <+: rest :=
    List.prefix_of_prefix_length_le ⟨reached.rest, hbehind.symm⟩ (List.prefix_append rest behind) hbusy
  rw [List.take_left, List.drop_left] at h
  have hsplit : c :: (more ++ left ++ behind) = found.text ++ (left ++ behind) := by simp [hmore]
  refine .hit hmatch hsplit ?_
  rw [hmore, List.length_cons, getLast?_cons_or, Nat.add_comm more.length, ← Nat.add_assoc]
  exact h

/-- A character that belongs to the last match is skipped. -/
theorem segmented_skip (h : pattern.Segmented (index + 1 + busy) ((rest.take busy).getLast?.or (some c))
      (rest.drop busy ++ behind) segments) :
    pattern.Segmented (index + (busy + 1)) (((c :: rest).take (busy + 1)).getLast?.or prev)
      ((c :: rest).drop (busy + 1) ++ behind) segments := by
  rw [List.take_succ_cons, getLast?_cons_or, List.drop_succ_cons, Nat.add_comm busy, ← Nat.add_assoc]
  exact h

/-- Behind a text that it passes over, a search goes on from segments of what follows. -/
theorem exists_segmented_of_past (hexceeds : pattern.exceeds [] = true)
    (h : pattern.passage index prev busy text behind = .past)
    (hsegments : pattern.Segmented (index + text.length) (text.getLast?.or prev) behind segments) :
    ∃ front, pattern.Segmented (index + busy) ((text.take busy).getLast?.or prev) (text.drop busy ++ behind)
        (front ++ segments) ∧ ∀ found, .hit found ∈ front → found.label? .comment = none := by
  induction text generalizing index prev busy with
  | nil =>
    cases busy with
    | zero => exact ⟨[], hsegments, by simp⟩
    | succ busy => cases h
  | cons c rest ih =>
    rw [getLast?_cons_or, List.length_cons, Nat.add_comm rest.length, ← Nat.add_assoc] at hsegments
    cases busy with
    | succ busy =>
      obtain ⟨front, hfront, hnone⟩ := ih h hsegments
      exact ⟨front, segmented_skip hfront, hnone⟩
    | zero =>
      rw [passage] at h
      split at h
      · rename_i hmatch
        obtain ⟨front, hfront, hnone⟩ := ih h hsegments
        refine ⟨.plain c :: front, .plain (by simp [hmatch]) hfront, fun found hfound => ?_⟩
        exact hnone found (by simpa using hfound)
      · rename_i found hmatch
        split at h
        · cases h
        · rename_i hcomment
          have hbusy := le_of_passage (h.trans_ne (by decide))
          obtain ⟨front, hfront, hnone⟩ := ih h hsegments
          refine ⟨.hit found :: front, segmented_hit hexceeds hmatch hbusy hfront, ?_⟩
          rintro other hother
          rcases List.mem_cons.mp hother with heq | hmem
          · obtain rfl := Segment.hit.inj heq
            exact Option.not_isSome_iff_eq_none.mp hcomment
          · exact hnone other hmem

end Pattern

namespace Lexer.StripsWhole

variable {lexer : Lexer} {index busy : Nat} {prev : Option Char} {text behind : List Char}

/-- A comment that goes with a segment begins where the segment does. -/
theorem start_eq (h : lexer.StripsWhole) {segment : Segment} {todo : List Segment}
    (hsegments : lexer.pattern.Segmented index prev text (segment :: todo)) {entry : Nat × List Char}
    (hentry : lexer.removed? segment = some entry) : entry.1 = index := by
  cases hsegments with
  | plain => cases hentry
  | hit hfound _ _ =>
    rw [h.removed?_eq hfound, Option.ite_none_right_eq_some] at hentry
    rw [← Option.some.inj hentry.2]

/-- Comments that go from a place on begin there or later. -/
theorem le_of_mem (h : lexer.StripsWhole) {segments : List Segment}
    (hsegments : lexer.pattern.Segmented index prev text segments) {entry : Nat × List Char}
    (hentry : entry ∈ segments.filterMap lexer.removed?) : index ≤ entry.1 := by
  induction segments generalizing index prev text with
  | nil => cases hentry
  | cons segment todo ih =>
    obtain ⟨segment', hmem, hremoved⟩ := List.mem_filterMap.mp hentry
    rcases List.mem_cons.mp hmem with rfl | htodo
    · exact Nat.le_of_eq (h.start_eq hsegments hremoved).symm
    · obtain ⟨rest, -, hrest⟩ := hsegments.exists_tail
      exact Nat.le_trans (Nat.le_add_right _ _) (ih hrest (List.mem_filterMap.mpr ⟨segment', htodo, hremoved⟩))

/-- A comment that a search finds in a text begins there and goes. -/
theorem exists_removed_of_comment (h : lexer.StripsWhole)
    (hpassage : lexer.pattern.passage index prev busy text behind = .comment) : ∃ segments entry,
      lexer.pattern.Segmented (index + busy) ((text.take busy).getLast?.or prev) (text.drop busy ++ behind)
        segments ∧
      entry ∈ segments.filterMap lexer.removed? ∧ index ≤ entry.1 ∧ entry.1 < index + text.length := by
  induction text generalizing index prev busy with
  | nil => cases busy <;> cases hpassage
  | cons c rest ih =>
    rw [List.length_cons]
    cases busy with
    | succ busy =>
      obtain ⟨segments, entry, hsegments, hentry, hfirst, hlast⟩ := ih hpassage
      exact ⟨segments, entry, segmented_skip hsegments, hentry, by omega, by omega⟩
    | zero =>
      rw [passage] at hpassage
      split at hpassage
      · rename_i hmatch
        obtain ⟨segments, entry, hsegments, hentry, hfirst, hlast⟩ := ih hpassage
        exact ⟨.plain c :: segments, entry, .plain (by simp [hmatch]) hsegments, hentry, by omega, by omega⟩
      · rename_i found hmatch
        split at hpassage
        · rename_i hcomment
          obtain ⟨left, parts, htext, -, -⟩ := Match.exists_takes hmatch
          obtain ⟨segments, hsegments⟩ := exists_segmented lexer.pattern (index + found.text.length)
            (found.text.getLast?.or prev) left
          refine ⟨.hit found :: segments, (index, withoutBreak found.text), .hit hmatch htext hsegments, ?_,
            Nat.le_refl _, by simp⟩
          rw [List.mem_filterMap]
          exact ⟨_, List.mem_cons_self, by rw [h.removed?_eq hmatch, if_pos hcomment]⟩
        · have hbusy := le_of_passage (hpassage.trans_ne (by decide))
          obtain ⟨segments, entry, hsegments, hentry, hfirst, hlast⟩ := ih hpassage
          obtain ⟨segment, hsegment, hremoved⟩ := List.mem_filterMap.mp hentry
          refine ⟨.hit found :: segments, entry, segmented_hit h.exceeds hmatch hbusy hsegments, ?_, by omega,
            by omega⟩
          exact List.mem_filterMap.mpr ⟨segment, List.mem_cons_of_mem _ hsegment, hremoved⟩

end Lexer.StripsWhole

/-! ### Lexers in step -/

/-- White space that a comment may take along at its end. -/
def breakBlank (c : Char) : Bool :=
  c == '\n' || Class.spaceTab c

/-- One match is another one, but it may leave a line break with the indentation behind it where the other takes
them along. -/
def Match.SparesBreak (found' found : Match) : Prop :=
  ∃ tail, found.text = found'.text ++ tail ∧ (∀ c ∈ tail, breakBlank c = true) ∧
    Lexer.withoutBreak found'.text = Lexer.withoutBreak found.text ∧
    (found'.label? .comment).isSome = (found.label? .comment).isSome

theorem Match.SparesBreak.refl (found : Match) : found.SparesBreak found :=
  ⟨[], (List.append_nil _).symm, by simp, rfl, rfl⟩

/-- A lexer finds what another one finds, but for the segments that it may read otherwise. -/
structure Lexer.Follows (lexer leader : Lexer) (apart : Segment → Bool) : Prop where
  stripsWhole : lexer.StripsWhole
  leader_stripsWhole : leader.StripsWhole
  /-- Nothing that the lexer finds begins with white space at the end of a line. -/
  opensOutside : lexer.pattern.opensOutside ['\n', ' ', '\t'] = true
  plain : ∀ index prev c rest, apart (.plain c) = false → leader.pattern.matchAt index prev (c :: rest) = none →
    lexer.pattern.matchAt index prev (c :: rest) = none
  hit : ∀ index prev text found, apart (.hit found) = false →
    leader.pattern.matchAt index prev text = some found →
    ∃ found', lexer.pattern.matchAt index prev text = some found' ∧ found'.SparesBreak found
  apart : ∀ index prev text found, apart (.hit found) = true →
    leader.pattern.matchAt index prev text = some found → found.label? .comment = none

namespace Lexer.Follows

variable {lexer leader : Lexer} {apart : Segment → Bool} {index : Nat} {prev : Option Char} {text rest : List Char}
  {segment : Segment} {segments todo : List Segment}

theorem matchAt_breakBlank (h : lexer.Follows leader apart) {c : Char} (hc : breakBlank c = true) :
    lexer.pattern.matchAt index prev (c :: rest) = none := by
  refine matchAt_eq_none_of_opensOutside h.opensOutside ?_
  simpa [breakBlank, Class.spaceTab] using hc

/-- No comment of the other lexer goes with a segment that may be read otherwise. -/
theorem removed?_eq_none_of_apart (h : lexer.Follows leader apart)
    (hsegments : leader.pattern.Segmented index prev text (segment :: todo)) (hapart : apart segment = true) :
    leader.removed? segment = none := by
  cases hsegments with
  | plain => rfl
  | hit hfound _ _ => exact removed?_eq_none (h.apart _ _ _ _ hapart hfound)

/-- The first segment of the one lexer, read by the other: the same comment goes, and the search goes on behind the
segment. -/
theorem exists_front (h : lexer.Follows leader apart)
    (hsegment : leader.pattern.Segmented index prev text (segment :: todo)) (htext : text = segment.text ++ rest)
    (hpast : apart segment = true → lexer.pattern.passage index prev 0 segment.text rest = .past)
    (hrest : lexer.pattern.Segmented (index + segment.text.length) (segment.text.getLast?.or prev) rest segments) :
    ∃ front, lexer.pattern.Segmented index prev text (front ++ segments) ∧
      front.filterMap lexer.removed? = (leader.removed? segment).toList := by
  cases hapart : apart segment with
  | true =>
    obtain ⟨front, hsegments, hplain⟩ := exists_segmented_of_past h.stripsWhole.exceeds (hpast hapart) hrest
    refine ⟨front, htext ▸ hsegments, ?_⟩
    rw [h.removed?_eq_none_of_apart hsegment hapart, Option.toList_none, List.filterMap_eq_nil_iff]
    rintro (c | found) hmem
    · rfl
    · exact removed?_eq_none (hplain found hmem)
  | false =>
    cases hsegment with
    | @plain _ _ c _ _ hempty _ =>
      obtain ⟨-, rfl⟩ := List.cons.inj htext
      have hnone := h.plain _ _ _ _ hapart (matchAt_eq_none_of_forall h.leader_stripsWhole.exceeds hempty)
      exact ⟨[.plain c], .plain (by simp [hnone]) hrest, rfl⟩
    | @hit _ _ _ _ found _ hfound _ _ =>
      obtain ⟨found', hfound', tail, hsplit, htail, hbreak, hlabel⟩ := h.hit _ _ _ _ hapart hfound
      have hremoved : lexer.removed? (.hit found') = leader.removed? (.hit found) := by
        rw [h.stripsWhole.removed?_eq hfound', h.leader_stripsWhole.removed?_eq hfound, hbreak, hlabel]
      have hplain : (tail.map Segment.plain).filterMap lexer.removed? = [] :=
        List.filterMap_eq_nil_iff.mpr fun segment hmem => by
          obtain ⟨c, -, rfl⟩ := List.mem_map.mp hmem
          rfl
      have hbehind : text = found'.text ++ (tail ++ rest) := by
        rw [htext, Segment.text, hsplit, List.append_assoc]
      refine ⟨.hit found' :: tail.map .plain, .hit hfound' hbehind (Segmented.plains ?_ ?_), ?_⟩
      · rw [Segment.text, hsplit, List.length_append, List.getLast?_append, Option.or_assoc,
          ← Nat.add_assoc] at hrest
        exact hrest
      · exact fun c hc index prev rest => h.matchAt_breakBlank (htail c hc)
      · rw [List.filterMap_cons, hremoved, hplain]
        cases leader.removed? (.hit found) <;> rfl

/-- Passing over all that is apart, one lexer finds the comments of the other. -/
theorem exists_removed_eq (h : lexer.Follows leader apart)
    (hsegments : leader.pattern.Segmented index prev text segments)
    (hcourse : lexer.pattern.course apart index prev segments = .past) : ∃ segments',
      lexer.pattern.Segmented index prev text segments' ∧
      segments'.filterMap lexer.removed? = segments.filterMap leader.removed? := by
  -- The induction is on the segments of the leader. The other search is put together from behind, so it need not be
  -- known where it stands when the leader is in the middle of a comment.
  induction segments generalizing index prev text with
  | nil =>
    obtain rfl : text = [] := hsegments.flatMap_text.symm
    exact ⟨[], .done, rfl⟩
  | cons segment todo ih =>
    obtain ⟨rest, rfl, hrest⟩ := hsegments.exists_tail
    rw [course, hrest.flatMap_text] at hcourse
    split at hcourse
    · rename_i hstretch
      obtain ⟨segments', hsegments', hremoved⟩ := ih hrest hcourse
      obtain ⟨front, hfront, hfirst⟩ :=
        h.exists_front hsegments rfl (fun hapart => by rwa [if_pos hapart] at hstretch) hsegments'
      refine ⟨front ++ segments', hfront, ?_⟩
      rw [List.filterMap_append, hfirst, hremoved, List.filterMap_cons]
      cases leader.removed? segment <;> rfl
    · rename_i hother
      exact absurd hcourse hother

/-- Where one lexer finds a comment in what is apart, none begins there for the other. -/
theorem exists_apart (h : lexer.Follows leader apart) (hsegments : leader.pattern.Segmented index prev text segments)
    (hcourse : lexer.pattern.course apart index prev segments = .comment) : ∃ segments' entry,
      lexer.pattern.Segmented index prev text segments' ∧ entry ∈ segments'.filterMap lexer.removed? ∧
      index ≤ entry.1 ∧ ∀ other ∈ segments.filterMap leader.removed?, other.1 ≠ entry.1 := by
  induction segments generalizing index prev text with
  | nil => cases hcourse
  | cons segment todo ih =>
    obtain ⟨rest, rfl, hrest⟩ := hsegments.exists_tail
    rw [course, hrest.flatMap_text] at hcourse
    split at hcourse
    · rename_i hstretch
      obtain ⟨segments', entry, hsegments', hentry, hfirst, hothers⟩ := ih hrest hcourse
      obtain ⟨front, hfront, -⟩ :=
        h.exists_front hsegments rfl (fun hapart => by rwa [if_pos hapart] at hstretch) hsegments'
      refine ⟨front ++ segments', entry, hfront, ?_, by omega, fun other hother => ?_⟩
      · rw [List.filterMap_append]
        exact List.mem_append_right _ hentry
      · obtain ⟨segment', hmem, hremoved⟩ := List.mem_filterMap.mp hother
        rcases List.mem_cons.mp hmem with rfl | htodo
        · have hstart := h.leader_stripsWhole.start_eq hsegments hremoved
          have hpos := List.length_pos_iff.mpr (hsegments.text_ne_nil h.leader_stripsWhole.exceeds)
          omega
        · exact hothers other (List.mem_filterMap.mpr ⟨segment', htodo, hremoved⟩)
    · obtain ⟨hapart, hpassage⟩ : apart segment = true ∧
          lexer.pattern.passage index prev 0 segment.text rest = .comment := by
        cases hapart : apart segment with
        | true => exact ⟨rfl, by rwa [if_pos hapart] at hcourse⟩
        | false => rw [hapart] at hcourse; cases hcourse
      obtain ⟨segments', entry, hsegments', hentry, hfirst, hlast⟩ :=
        h.stripsWhole.exists_removed_of_comment hpassage
      refine ⟨segments', entry, hsegments', hentry, hfirst, fun other hother => ?_⟩
      rw [List.filterMap_cons_none (h.removed?_eq_none_of_apart hsegments hapart)] at hother
      have hbehind := h.leader_stripsWhole.le_of_mem hrest hother
      omega

/-- Passing over all that is apart, a lexer removes the comments of the other. -/
theorem removed_eq (h : lexer.Follows leader apart)
    (hcourse : lexer.pattern.course apart 0 none (leader.pattern.segments text) = .past) :
    lexer.removed text = leader.removed text := by
  obtain ⟨segments, hsegments, hremoved⟩ := h.exists_removed_eq (segments_segmented _ text) hcourse
  rw [removed, (segments_segmented _ text).unique h.stripsWhole.exceeds hsegments, hremoved, removed]

/-- A lexer that finds a comment in what is apart removes what the other one keeps. -/
theorem exists_not_removed (h : lexer.Follows leader apart)
    (hcourse : lexer.pattern.course apart 0 none (leader.pattern.segments text) = .comment) :
    ∃ entry ∈ lexer.removed text, ∀ other ∈ leader.removed text, other.1 ≠ entry.1 := by
  obtain ⟨segments, entry, hsegments, hentry, -, hothers⟩ := h.exists_apart (segments_segmented _ text) hcourse
  rw [removed, (segments_segmented _ text).unique h.stripsWhole.exceeds hsegments]
  exact ⟨entry, hentry, hothers⟩

end Lexer.Follows

end Minifier
