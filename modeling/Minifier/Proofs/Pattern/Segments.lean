import Minifier.Proofs.Pattern.Shape

/-!
Searching a text from left to right. `Segmented` says what a search leaves, without saying how it
searches: segments that lie end to end, each match being the match at its own place, and a plain
character only where no match takes anything. A law about all the matches of a text is an
induction on it, in which the text still to come and the character before it are at hand.
-/

namespace Minifier

/-- What stands in the place of a segment where every match gives way to a text. -/
def Segment.replaced (replace : Match → List Char) : Segment → List Char
  | .plain c => [c]
  | .hit found => replace found

namespace Pattern

theorem replaceAll_eq (pattern : Pattern) (replace : Match → List Char) (text : List Char) :
    pattern.replaceAll replace text = (pattern.segments text).flatMap (Segment.replaced replace) := rfl

/-- Segments of a text from a place on, which has an index and may have a character before it. -/
inductive Segmented (pattern : Pattern) : Nat → Option Char → List Char → List Segment → Prop where
  /-- The text has ended. -/
  | done {index : Nat} {prev : Option Char} : Segmented pattern index prev [] []
  /-- No match takes the next character. -/
  | plain {index : Nat} {prev : Option Char} {c : Char} {rest : List Char} {segments : List Segment} :
      (∀ found, pattern.matchAt index prev (c :: rest) = some found → found.text = []) →
      Segmented pattern (index + 1) (some c) rest segments →
      Segmented pattern index prev (c :: rest) (.plain c :: segments)
  /-- The match at this place is taken. -/
  | hit {index : Nat} {prev : Option Char} {text rest : List Char} {found : Match}
      {segments : List Segment} :
      pattern.matchAt index prev text = some found → text = found.text ++ rest →
      Segmented pattern (index + found.text.length) (found.text.getLast?.or prev) rest segments →
      Segmented pattern index prev text (.hit found :: segments)

variable {pattern : Pattern} {index : Nat} {prev : Option Char} {text : List Char}
  {segments : List Segment}

/-- A match that takes the next character, with the segments behind it. -/
private theorem Segmented.hit_cons {c : Char} {rest more behind : List Char} {found : Match}
    (hfound : pattern.matchAt index prev (c :: rest) = some found) (hmore : found.text = c :: more)
    (hrest : rest = more ++ behind)
    (h : Segmented pattern (index + 1 + more.length) (more.getLast?.or (some c)) behind segments) :
    Segmented pattern index prev (c :: rest) (.hit found :: segments) := by
  refine .hit hfound (by rw [hmore, hrest]; rfl) ?_
  rwa [hmore, List.length_cons, getLast?_cons_or, show index + (more.length + 1) = index + 1 + more.length by omega]

/-- At the end of the text there may be one more match, which takes nothing. -/
private theorem exists_scan_nil (pattern : Pattern) (index : Nat) (prev : Option Char) (fresh : Bool)
    (done : List Segment) :
    ∃ segments, pattern.scan index prev 0 fresh [] done = segments.reverse ++ done ∧
      Segmented pattern index prev [] segments := by
  rw [scan]
  split
  · split
    · rename_i found hfound
      obtain ⟨reached, hp, -, -⟩ := exists_of_matchAt hfound
      obtain ⟨htext, -⟩ := List.append_eq_nil_iff.mp hp.rest.symm
      have hend : ([] : List Char) = found.text ++ [] := by rw [htext, List.append_nil]
      exact ⟨[.hit found], rfl, .hit hfound hend .done⟩
    · exact ⟨[], rfl, .done⟩
  · exact ⟨[], rfl, .done⟩

/-- A search that skips what the last match took goes on with segments of what is left. The
induction is on the text, one character at a time, as the search goes. -/
private theorem exists_scan (pattern : Pattern) (text : List Char) (index : Nat)
    (prev : Option Char) (busy : Nat) (fresh : Bool) (done : List Segment)
    (hbusy : busy ≤ text.length) :
    ∃ segments, pattern.scan index prev busy fresh text done = segments.reverse ++ done ∧
      Segmented pattern (index + busy) ((text.take busy).getLast?.or prev) (text.drop busy)
        segments := by
  induction text generalizing index prev busy fresh done with
  | nil =>
    obtain rfl : busy = 0 := by simpa using hbusy
    exact exists_scan_nil pattern index prev fresh done
  | cons c rest ih =>
    cases busy with
    | succ busy =>
      obtain ⟨segments, hscan, hrest⟩ := ih (index + 1) (some c) busy fresh done (by simpa using hbusy)
      refine ⟨segments, by rw [scan, hscan], ?_⟩
      rw [List.take_succ_cons, getLast?_cons_or, List.drop_succ_cons,
        show index + (busy + 1) = index + 1 + busy by omega]
      exact hrest
    | zero =>
      have hplain (hnone : ∀ found, pattern.matchAt index prev (c :: rest) = some found →
            found.text = []) (done : List Segment) :
          ∃ segments, pattern.scan (index + 1) (some c) 0 false rest (.plain c :: done) =
              segments.reverse ++ done ∧
            Segmented pattern index prev (c :: rest) segments := by
        obtain ⟨segments, hscan, hrest⟩ :=
          ih (index + 1) (some c) 0 false (.plain c :: done) (Nat.zero_le _)
        exact ⟨.plain c :: segments, by simp [hscan], .plain hnone hrest⟩
      rw [scan]
      split
      · rename_i hnone
        exact hplain (by simp [hnone]) done
      · rename_i found hfound
        obtain ⟨reached, hp, -, -⟩ := exists_of_matchAt hfound
        have htext : c :: rest = found.text ++ reached.rest := hp.rest
        split
        · rename_i d more hmore
          rw [hmore] at htext
          obtain ⟨rfl, hrest⟩ := List.cons.inj htext
          have hrest : rest = more ++ reached.rest := hrest
          obtain ⟨segments, hscan, hsegments⟩ :=
            ih (index + 1) (some c) more.length true (.hit found :: done) (by simp [hrest])
          rw [hrest, List.take_left, List.drop_left] at hsegments
          exact ⟨.hit found :: segments, by simp [hscan], .hit_cons hfound hmore hrest hsegments⟩
        · rename_i hempty
          have hnone : ∀ other, pattern.matchAt index prev (c :: rest) = some other →
              other.text = [] := by
            intro other hother
            obtain rfl := Option.some.inj (hfound.symm.trans hother)
            exact hempty
          split
          · exact hplain hnone done
          · obtain ⟨segments, hscan, hsegments⟩ := hplain hnone (.hit found :: done)
            have hhere : c :: rest = found.text ++ (c :: rest) := by rw [hempty, List.nil_append]
            refine ⟨.hit found :: segments, by simp [hscan], .hit hfound hhere ?_⟩
            simpa [hempty] using hsegments

/-- The segments of a text are segments of it from its beginning on. -/
theorem segments_segmented (pattern : Pattern) (text : List Char) :
    Segmented pattern 0 none text (pattern.segments text) := by
  obtain ⟨segments, hscan, h⟩ := exists_scan pattern text 0 none 0 false [] (Nat.zero_le _)
  have hsegments : pattern.segments text = segments := by simp [Pattern.segments, hscan]
  rw [hsegments]
  exact h

/-- A text can be searched from any place on. -/
theorem exists_segmented (pattern : Pattern) (index : Nat) (prev : Option Char) (text : List Char) :
    ∃ segments, Segmented pattern index prev text segments := by
  obtain ⟨segments, -, h⟩ := exists_scan pattern text index prev 0 false [] (Nat.zero_le _)
  exact ⟨segments, h⟩

/-- Behind its first segment a search goes on. -/
theorem Segmented.exists_tail {segment : Segment} {todo : List Segment}
    (h : Segmented pattern index prev text (segment :: todo)) : ∃ rest, text = segment.text ++ rest ∧
      Segmented pattern (index + segment.text.length) (segment.text.getLast?.or prev) rest todo := by
  cases h with
  | plain _ hrest => exact ⟨_, rfl, hrest⟩
  | hit _ htext hrest => exact ⟨_, htext, hrest⟩

/-- Where nothing is found, a search leaves the characters. -/
theorem Segmented.plains {behind : List Char}
    (h : Segmented pattern (index + text.length) (text.getLast?.or prev) behind segments)
    (hnone : ∀ c ∈ text, ∀ index prev rest, pattern.matchAt index prev (c :: rest) = none) :
    Segmented pattern index prev (text ++ behind) (text.map .plain ++ segments) := by
  induction text generalizing index prev with
  | nil => exact h
  | cons c rest ih =>
    obtain ⟨hc, hrest⟩ := List.forall_mem_cons.mp hnone
    rw [getLast?_cons_or, List.length_cons, Nat.add_comm rest.length, ← Nat.add_assoc] at h
    exact .plain (by simp [hc]) (ih h hrest)

/-- No match begins with a character with which nothing opens. -/
theorem matchAt_eq_none_of_opensOutside {chars rest : List Char} {c : Char}
    (hopens : pattern.opensOutside chars = true) (hc : c ∈ chars) : pattern.matchAt index prev (c :: rest) = none := by
  rw [Option.eq_none_iff_forall_ne_some]
  intro found hfound
  obtain ⟨behind, parts, htext, htakes, -⟩ := Match.exists_takes hfound
  obtain ⟨d, more, hmore, hd⟩ := htakes.exists_head hopens
  rw [hmore] at htext
  exact hd ((List.cons.inj htext).1 ▸ hc)

/-- Every match of a pattern that has to take something takes something. -/
theorem ne_nil_of_matchAt {found : Match} (hexceeds : pattern.exceeds [] = true)
    (h : pattern.matchAt index prev text = some found) : found.text ≠ [] := by
  obtain ⟨behind, parts, -, htakes, -⟩ := Match.exists_takes h
  obtain ⟨c, hc, -⟩ := htakes.exists_not_mem hexceeds
  exact List.ne_nil_of_mem hc

/-- Then there is no match where none takes anything. -/
theorem matchAt_eq_none_of_forall (hexceeds : pattern.exceeds [] = true)
    (h : ∀ found, pattern.matchAt index prev text = some found → found.text = []) :
    pattern.matchAt index prev text = none :=
  Option.eq_none_iff_forall_ne_some.mpr fun found hfound => ne_nil_of_matchAt hexceeds hfound (h found hfound)

/-- Every segment of a search with it then has a text. -/
theorem Segmented.text_ne_nil {segment : Segment} {todo : List Segment} (hexceeds : pattern.exceeds [] = true)
    (h : Segmented pattern index prev text (segment :: todo)) : segment.text ≠ [] := by
  cases h with
  | plain => exact List.cons_ne_nil _ _
  | hit hfound _ _ => exact ne_nil_of_matchAt hexceeds hfound

/-- If every match takes something, a text has one search from left to right. -/
theorem Segmented.unique {segments' : List Segment} (hexceeds : pattern.exceeds [] = true)
    (h : Segmented pattern index prev text segments) (h' : Segmented pattern index prev text segments') :
    segments = segments' := by
  induction h generalizing segments' with
  | done =>
    cases h' with
    | done => rfl
    | hit hfound htext _ =>
      exact absurd (List.append_eq_nil_iff.mp htext.symm).1 (ne_nil_of_matchAt hexceeds hfound)
  | plain hempty _ ih =>
    cases h' with
    | plain _ hrest => rw [ih hrest]
    | hit hfound _ _ =>
      rw [matchAt_eq_none_of_forall hexceeds hempty] at hfound
      cases hfound
  | hit hfound htext _ ih =>
    cases h' with
    | done => exact absurd (List.append_eq_nil_iff.mp htext.symm).1 (ne_nil_of_matchAt hexceeds hfound)
    | plain hempty _ =>
      rw [matchAt_eq_none_of_forall hexceeds hempty] at hfound
      cases hfound
    | hit hfound' htext' hrest =>
      obtain rfl := Option.some.inj (hfound.symm.trans hfound')
      obtain rfl := List.append_cancel_left (htext.symm.trans htext')
      rw [ih hrest]

/-- Segments lie end to end and cover the text. -/
theorem Segmented.flatMap_text (h : Segmented pattern index prev text segments) :
    segments.flatMap Segment.text = text := by
  induction h with
  | done => rfl
  | plain _ _ ih => simp [Segment.text, ih]
  | hit _ htext _ ih => simp [Segment.text, ih, htext]

/-- A search comes upon what is found at its place. -/
theorem Segmented.exists_todo_of_matchAt {found : Match} {taken rest : List Char} (hexceeds : pattern.exceeds [] = true)
    (h : Segmented pattern index prev (taken ++ rest) segments)
    (hfound : pattern.matchAt index prev (taken ++ rest) = some found) (htaken : found.text = taken) :
    ∃ todo, segments = .hit found :: todo ∧ todo.flatMap Segment.text = rest := by
  subst htaken
  obtain ⟨todo, htodo⟩ := exists_segmented pattern (index + found.text.length) (found.text.getLast?.or prev) rest
  exact ⟨todo, h.unique hexceeds (.hit hfound rfl htodo), htodo.flatMap_text⟩

/-- It passes over a character where nothing is found. -/
theorem Segmented.exists_todo_of_eq_none {c : Char} {rest : List Char} (hexceeds : pattern.exceeds [] = true)
    (h : Segmented pattern index prev (c :: rest) segments)
    (hnone : pattern.matchAt index prev (c :: rest) = none) :
    ∃ todo, segments = .plain c :: todo ∧ todo.flatMap Segment.text = rest := by
  obtain ⟨todo, htodo⟩ := exists_segmented pattern (index + 1) (some c) rest
  exact ⟨todo, h.unique hexceeds (.plain (by simp [hnone]) htodo), htodo.flatMap_text⟩

/-- Segments can be cut anywhere: what is left are segments of the rest of the text. -/
theorem Segmented.exists_of_append {done todo : List Segment}
    (h : Segmented pattern index prev text (done ++ todo)) :
    ∃ index rest, text = done.flatMap Segment.text ++ rest ∧
      Segmented pattern index ((done.flatMap Segment.text).getLast?.or prev) rest todo := by
  induction done generalizing index prev text with
  | nil => exact ⟨index, text, rfl, h⟩
  | cons segment done ih =>
    cases h with
    | @plain _ _ c _ _ _ hsegments =>
      obtain ⟨index, rest, rfl, hrest⟩ := ih hsegments
      rw [← getLast?_cons_or] at hrest
      exact ⟨index, rest, rfl, hrest⟩
    | hit _ htext hsegments =>
      obtain ⟨index, rest, rfl, hrest⟩ := ih hsegments
      rw [← Option.or_assoc, ← List.getLast?_append] at hrest
      exact ⟨index, rest, by simp [htext, Segment.text], hrest⟩

/-- What a search finds is the match at its place. -/
theorem Segmented.exists_matchAt {found : Match} {done todo : List Segment}
    (h : Segmented pattern index prev text (done ++ .hit found :: todo)) :
    ∃ index rest, text = done.flatMap Segment.text ++ (found.text ++ rest) ∧
      pattern.matchAt index ((done.flatMap Segment.text).getLast?.or prev) (found.text ++ rest) = some found := by
  obtain ⟨index, _, rfl, hrest⟩ := h.exists_of_append
  cases hrest with
  | hit hfound htext _ =>
    subst htext
    exact ⟨index, _, rfl, hfound⟩

/-- A place that has a match which takes something lies in a match that is found. The induction is on the search, which
reaches the place or goes past it with a match. -/
theorem Segmented.exists_over (h : Segmented pattern index prev text segments) {before behind : List Char}
    (htext : text = before ++ behind) {found : Match}
    (hfound : pattern.matchAt (index + before.length) (before.getLast?.or prev) behind = some found)
    (hne : found.text ≠ []) :
    ∃ done other todo, segments = done ++ .hit other :: todo ∧
      (done.flatMap Segment.text).length ≤ before.length ∧
      before.length < (done.flatMap Segment.text ++ other.text).length := by
  induction h generalizing before with
  | done =>
    obtain ⟨rest, _, hbehind, -⟩ := Match.exists_takes hfound
    obtain ⟨-, rfl⟩ := List.append_eq_nil_iff.mp htext.symm
    exact absurd (List.append_eq_nil_iff.mp hbehind.symm).1 hne
  | @plain index prev c rest segments hnone _ ih =>
    cases before with
    | nil =>
      obtain rfl : c :: rest = behind := htext
      exact absurd (hnone found hfound) hne
    | cons d before =>
      obtain ⟨rfl, rfl⟩ := List.cons.inj htext
      rw [getLast?_cons_or, List.length_cons, show index + (before.length + 1) = index + 1 + before.length by omega]
        at hfound
      obtain ⟨done, other, todo, rfl, hle, hlt⟩ := ih rfl hfound
      refine ⟨.plain c :: done, other, todo, rfl, ?_, ?_⟩
      · simpa [Segment.text] using hle
      · simpa [Segment.text] using hlt
  | @hit index prev text rest first segments hfirst hrest _ ih =>
    by_cases hinside : before.length < first.text.length
    · exact ⟨[], first, segments, rfl, Nat.zero_le _, hinside⟩
    · obtain ⟨before, rfl⟩ : first.text <+: before :=
        List.prefix_of_prefix_length_le ⟨rest, hrest.symm⟩ ⟨behind, htext.symm⟩ (Nat.not_lt.mp hinside)
      have hrest' : rest = before ++ behind := by
        rw [hrest, List.append_assoc] at htext
        exact List.append_cancel_left htext
      rw [List.getLast?_append, Option.or_assoc, List.length_append, ← Nat.add_assoc] at hfound
      obtain ⟨done, other, todo, rfl, hle, hlt⟩ := ih hrest' hfound
      refine ⟨.hit first :: done, other, todo, rfl, ?_, ?_⟩
      · simpa [Segment.text] using hle
      · simpa [Segment.text] using hlt

/-- Such a match is found if no match reaches over its first character. -/
theorem Segmented.exists_hit (h : Segmented pattern index prev text segments) {before behind : List Char} {c : Char}
    (htext : text = before ++ c :: behind) {found : Match}
    (hfound : pattern.matchAt (index + before.length) (before.getLast?.or prev) (c :: behind) = some found)
    (hne : found.text ≠ [])
    (htail : ∀ index prev text other, pattern.matchAt index prev text = some other → c ∉ other.text.tail) :
    ∃ done other todo, segments = done ++ .hit other :: todo ∧ done.flatMap Segment.text = before := by
  obtain ⟨done, other, todo, rfl, hle, hlt⟩ := h.exists_over htext hfound hne
  refine ⟨done, other, todo, rfl, ?_⟩
  obtain ⟨_, rest, hcut, hother⟩ := h.exists_matchAt
  obtain ⟨more, rfl⟩ : done.flatMap Segment.text <+: before :=
    List.prefix_of_prefix_length_le ⟨_, hcut.symm⟩ ⟨_, htext.symm⟩ hle
  have hover : other.text ++ rest = more ++ c :: behind := by
    rw [hcut, List.append_assoc] at htext
    exact List.append_cancel_left htext
  cases more with
  | nil => rw [List.append_nil]
  | cons d more =>
    -- The character would stand in the match behind the first one.
    exfalso
    rw [List.length_append, List.length_append, Nat.add_lt_add_iff_left] at hlt
    refine htail _ _ _ other hother ?_
    rcases List.append_eq_append_iff.mp hover with ⟨beyond, hmore, -⟩ | ⟨inside, hinside, hbehind⟩
    · rw [hmore, List.length_append] at hlt
      omega
    · cases inside with
      | nil => simp [hinside] at hlt
      | cons e inside =>
        obtain ⟨rfl, -⟩ := List.cons.inj hbehind
        simp [hinside]

/-- Where a search finds nothing, no place of the text has a match that takes something. -/
theorem Segmented.text_eq_nil_of_plain (h : Segmented pattern index prev text segments)
    (hplain : ∀ found, .hit found ∉ segments) {before behind : List Char}
    (htext : text = before ++ behind) (hbehind : behind ≠ []) {found : Match}
    (hfound : pattern.matchAt (index + before.length) (before.getLast?.or prev) behind = some found) :
    found.text = [] := by
  induction h generalizing before with
  | done => exact absurd (List.append_eq_nil_iff.mp htext.symm).2 hbehind
  | @plain index prev c rest segments hnone _ ih =>
    cases before with
    | nil =>
      obtain rfl : c :: rest = behind := htext
      exact hnone found hfound
    | cons d before =>
      obtain ⟨rfl, rfl⟩ := List.cons.inj htext
      refine ih (fun other hother => hplain other (List.mem_cons_of_mem _ hother)) rfl ?_
      rw [← hfound, List.length_cons, getLast?_cons_or,
        show index + (before.length + 1) = index + 1 + before.length by omega]
  | @hit _ _ _ _ found => exact absurd (List.mem_cons_self ..) (hplain found)

/-- Two segments of a text are one, or one of them ends before the other begins. -/
theorem eq_or_length_le_of_segments {done done' todo todo' : List Segment} {segment segment' : Segment}
    (h : done ++ segment :: todo = done' ++ segment' :: todo') :
    (done = done' ∧ segment = segment') ∨
      (done.flatMap Segment.text ++ segment.text).length ≤ (done'.flatMap Segment.text).length ∨
      (done'.flatMap Segment.text ++ segment'.text).length ≤ (done.flatMap Segment.text).length := by
  rcases List.append_eq_append_iff.mp h with ⟨more, rfl, hmore⟩ | ⟨more, rfl, hmore⟩
  · cases more with
    | nil => exact Or.inl ⟨(List.append_nil _).symm, (List.cons.inj hmore).1⟩
    | cons first more =>
      obtain ⟨rfl, -⟩ := List.cons.inj hmore
      exact Or.inr (Or.inl (by simp))
  · cases more with
    | nil => exact Or.inl ⟨List.append_nil _, (List.cons.inj hmore).1.symm⟩
    | cons first more =>
      obtain ⟨rfl, -⟩ := List.cons.inj hmore
      exact Or.inr (Or.inr (by simp))

end Pattern

/-!
## Edits of a list from left to right

Pieces give way to other pieces, and what stands between them is
kept. A state may be passed along, such as the literals that were set aside so far. Every
replacement of matches is such an edit of the text, so what an edit preserves is proved once, from
what each single swap does.
-/

/-- An edit of a list. A swap is given the state before it, the old piece and the new one, what stands
behind the old piece, and the state after it. -/
inductive Edits {σ α : Type} (swap : σ → List α → List α → List α → σ → Prop) :
    σ → List α → List α → σ → Prop where
  | keep {state : σ} (kept : List α) : Edits swap state kept kept state
  | swap {state next final : σ} (kept : List α) {old new rest out : List α} :
      swap state old new rest next → Edits swap next rest out final →
      Edits swap state (kept ++ (old ++ rest)) (kept ++ (new ++ out)) final

namespace Edits

variable {σ α : Type} {swap swap' : σ → List α → List α → List α → σ → Prop} {state final : σ}
  {text out : List α}

/-- Whatever stands before an edited text is kept. -/
theorem cons (a : α) (h : Edits swap state text out final) :
    Edits swap state (a :: text) (a :: out) final := by
  cases h with
  | keep => exact .keep _
  | swap kept hone hrest => exact .swap (a :: kept) hone hrest

/-- An edit stays one when more swaps are allowed. -/
theorem mono (hswap : ∀ state old new rest next, swap state old new rest next →
      swap' state old new rest next)
    (h : Edits swap state text out final) : Edits swap' state text out final := by
  induction h with
  | keep kept => exact .keep kept
  | swap kept hone _ ih => exact .swap kept (hswap _ _ _ _ _ hone) ih

end Edits

namespace Pattern

variable {pattern : Pattern} {index : Nat} {prev : Option Char} {text : List Char}
  {segments : List Segment}

/-- Replacing matches one after the other, with a state that each replacement may change. -/
def replaceFrom {σ : Type} (replace : σ → Match → List Char × σ) : List Segment → σ → List Char × σ
  | [], state => ([], state)
  | .plain c :: rest, state =>
    let (out, final) := replaceFrom replace rest state
    (c :: out, final)
  | .hit found :: rest, state =>
    let (new, next) := replace state found
    let (out, final) := replaceFrom replace rest next
    (new ++ out, final)

/-- Replacing the matches of a text is an edit, in which each swap is about a match at its place. -/
theorem Segmented.edits {σ : Type} (replace : σ → Match → List Char × σ) (state : σ)
    (h : pattern.Segmented index prev text segments) :
    Edits (fun state old new rest next => ∃ index prev found,
        pattern.matchAt index prev (old ++ rest) = some found ∧ found.text = old ∧
          replace state found = (new, next))
      state text (replaceFrom replace segments state).1 (replaceFrom replace segments state).2 := by
  induction h generalizing state with
  | done => exact .keep []
  | plain _ _ ih => exact (ih state).cons _
  | @hit index prev _ rest found _ hfound htext _ ih =>
    subst htext
    exact .swap [] ⟨index, prev, found, hfound, rfl, rfl⟩ (ih (replace state found).2)

/-- Replacing every match of a text is an edit of it. -/
theorem edits_replaceAll (pattern : Pattern) (replace : Match → List Char) (text : List Char) :
    Edits (fun (_ : Unit) old new rest _ => ∃ index prev found,
        pattern.matchAt index prev (old ++ rest) = some found ∧ found.text = old ∧
          replace found = new)
      () text (pattern.replaceAll replace text) () := by
  have hreplaced : (replaceFrom (fun (_ : Unit) found => (replace found, ()))
      (pattern.segments text) ()).1 = pattern.replaceAll replace text := by
    unfold replaceAll
    induction pattern.segments text with
    | nil => rfl
    | cons segment segments ih =>
      cases segment with
      | plain c => simp [replaceFrom, ih]
      | hit found => simp [replaceFrom, ih]
  have hedits := (segments_segmented pattern text).edits
    (fun (_ : Unit) found => (replace found, ())) ()
  rw [hreplaced] at hedits
  refine hedits.mono ?_
  rintro _ old new rest _ ⟨index, prev, found, hfound, htext, hreplace⟩
  exact ⟨index, prev, found, hfound, htext, (Prod.mk.inj hreplace).1⟩

end Pattern

end Minifier
