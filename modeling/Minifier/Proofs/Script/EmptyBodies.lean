import Minifier.Proofs.Minify.PreservedBreaks
import Minifier.Proofs.Rule.Rewriting
import Minifier.Proofs.Script.DebugStatements

/-!
Semicolons before a closing brace. A run of them goes with the blanks behind it wherever it stands, so it also goes
where it is the empty statement that forms the body of a loop or a condition. A header then stands before the brace
without a body, and in no other way does it come to stand there.
-/

namespace Minifier

open Pattern Text

namespace Script

variable {prev : Option Char} {c : Char} {text before behind rest taken old new first second : List Char}

/-! ### What the rule finds -/

/-- A run of semicolons, blanks and a closing brace. -/
inductive IsMarkedBrace : List Char → Prop where
  | mk {marks blanks : List Char} : marks ≠ [] → (∀ c ∈ marks, c = ';') → (∀ c ∈ blanks, isBlank c = true) →
      IsMarkedBrace (marks ++ (blanks ++ ['\x7d']))

theorem isMarkedBrace_of_takes {parts : Parts} (h : semicolonBrace.pattern.Takes prev taken behind parts) :
    IsMarkedBrace taken := by
  obtain ⟨marks, blanks, rfl, hne, hmarks, hblanks⟩ := exists_of_takes_semicolonBrace h
  exact .mk hne hmarks hblanks

namespace IsMarkedBrace

theorem takes (h : IsMarkedBrace taken) : semicolonBrace.pattern.Takes prev taken behind [] := by
  obtain ⟨hne, hmarks, hblanks⟩ := h
  rw [← List.append_assoc]
  exact ⟨_, _, [], [], ⟨_, _, [], [], (takes_run1 _).mpr ⟨hne, fun c hc => by simp [hmarks c hc], rfl⟩,
    ⟨hblanks, rfl⟩, rfl, rfl⟩, (takes_char '\x7d').mpr ⟨rfl, rfl⟩, rfl, rfl⟩

/-- The brace comes first among the braces. -/
theorem exists_front (h : IsMarkedBrace taken) : ∃ front, taken = front ++ ['\x7d'] ∧ '\x7d' ∉ front := by
  obtain ⟨-, hmarks, hblanks⟩ := h
  refine ⟨_, (List.append_assoc _ _ _).symm, fun hmem => ?_⟩
  rcases List.mem_append.mp hmem with hmark | hblank
  · exact absurd (hmarks _ hmark) (by decide)
  · exact absurd (hblanks _ hblank) (by decide)

theorem head?_eq (h : IsMarkedBrace taken) : taken.head? = some ';' := by
  obtain ⟨hne, hmarks, -⟩ := h
  obtain ⟨c, marks, rfl⟩ := List.exists_cons_of_ne_nil hne
  rw [hmarks c List.mem_cons_self]
  rfl

theorem ne_nil (h : IsMarkedBrace taken) : taken ≠ [] := by
  rintro rfl
  cases h.head?_eq

/-- Two of them at one place are the same. -/
theorem unique {taken' behind' : List Char} (h : IsMarkedBrace taken) (h' : IsMarkedBrace taken')
    (htext : taken ++ behind = taken' ++ behind') : taken = taken' ∧ behind = behind' := by
  obtain ⟨front, rfl, hfront⟩ := h.exists_front
  obtain ⟨front', rfl, hfront'⟩ := h'.exists_front
  simp only [List.append_assoc, List.singleton_append] at htext ⊢
  rcases List.append_eq_append_iff.mp htext with ⟨more, rfl, hmore⟩ | ⟨more, rfl, hmore⟩
  · cases more with
    | nil => simpa using hmore
    | cons c more =>
      obtain ⟨rfl, -⟩ := List.cons.inj hmore
      simp at hfront'
  · cases more with
    | nil => simpa using hmore.symm
    | cons c more =>
      obtain ⟨rfl, -⟩ := List.cons.inj hmore
      simp at hfront

end IsMarkedBrace

/-- The rule asks nothing of what stands before. -/
theorem taken?_semicolonBrace_iff : semicolonBrace.pattern.taken? prev text = some taken ↔
    IsMarkedBrace taken ∧ taken <+: text := by
  have hfirst : ∀ {taken}, semicolonBrace.pattern.taken? prev text = some taken →
      IsMarkedBrace taken ∧ taken <+: text := by
    intro taken h
    obtain ⟨behind, _, rfl, htakes⟩ := exists_takes_of_taken? h
    exact ⟨isMarkedBrace_of_takes htakes, List.prefix_append _ _⟩
  refine ⟨hfirst, ?_⟩
  rintro ⟨h, behind, rfl⟩
  have hsome : (semicolonBrace.pattern.taken? prev (taken ++ behind)).isSome = true := by
    rw [taken?, Option.isSome_map, matchAt_isSome_iff]
    exact ⟨taken, behind, [], rfl, h.takes⟩
  obtain ⟨other, hother⟩ := Option.isSome_iff_exists.mp hsome
  obtain ⟨h', behind', htext⟩ := hfirst hother
  obtain ⟨rfl, -⟩ := h'.unique h htext
  exact hother

theorem taken?_semicolonBrace_eq_none_iff :
    semicolonBrace.pattern.taken? prev text = none ↔ ∀ taken, IsMarkedBrace taken → ¬ taken <+: text := by
  rw [Option.eq_none_iff_forall_ne_some]
  exact forall_congr' fun taken => by rw [Ne, taken?_semicolonBrace_iff, not_and]

/-! ### What the rule does to a text -/

theorem puts_semicolonBrace : semicolonBrace.Puts fun _ => ['\x7d'] := .put '\x7d' (by decide)

/-- So a text is rewritten in the same way wherever it stands. -/
theorem rewrites_semicolonBrace (prev : Option Char) (text : List Char) :
    semicolonBrace.pattern.Rewrites (fun _ => ['\x7d']) prev text (semicolonBrace.apply text) := by
  have hstart := puts_semicolonBrace.rewrites_apply (c := 'x') (by decide) text
  generalize none = start at hstart
  generalize semicolonBrace.apply text = out at hstart
  induction hstart generalizing prev with
  | nil => exact .nil
  | plain hnone hrest _ =>
    exact .plain (taken?_semicolonBrace_eq_none_iff.mpr (taken?_semicolonBrace_eq_none_iff.mp hnone)) hrest
  | hit htaken htext hne _ ih =>
    exact .hit (taken?_semicolonBrace_iff.mpr (taken?_semicolonBrace_iff.mp htaken)) htext hne (ih _)

theorem semicolonBrace_apply_eq_of_rewrites
    (h : semicolonBrace.pattern.Rewrites (fun _ => ['\x7d']) none text new) : semicolonBrace.apply text = new :=
  (rewrites_semicolonBrace none text).unique h

theorem semicolonBrace_apply_nil : semicolonBrace.apply [] = [] := rfl

theorem semicolonBrace_apply_marked (h : IsMarkedBrace taken) (rest : List Char) :
    semicolonBrace.apply (taken ++ rest) = '\x7d' :: semicolonBrace.apply rest :=
  semicolonBrace_apply_eq_of_rewrites (.hit (taken?_semicolonBrace_iff.mpr ⟨h, List.prefix_append _ _⟩) rfl h.ne_nil
    (rewrites_semicolonBrace _ rest))

theorem semicolonBrace_apply_cons (h : ∀ taken, IsMarkedBrace taken → ¬ taken <+: c :: rest) :
    semicolonBrace.apply (c :: rest) = c :: semicolonBrace.apply rest :=
  semicolonBrace_apply_eq_of_rewrites (.plain (taken?_semicolonBrace_eq_none_iff.mpr h)
    (rewrites_semicolonBrace _ rest))

theorem semicolonBrace_apply_cons_of_ne (hc : c ≠ ';') (rest : List Char) :
    semicolonBrace.apply (c :: rest) = c :: semicolonBrace.apply rest := by
  refine semicolonBrace_apply_cons fun taken htaken hfront => hc ?_
  obtain ⟨d, more, rfl⟩ := List.exists_cons_of_ne_nil htaken.ne_nil
  exact (List.cons_prefix_cons.mp hfront).1.symm.trans (Option.some.inj htaken.head?_eq)

/-- A text begins with what the rule finds, or with a character that stays. -/
@[elab_as_elim]
theorem semicolonBrace_induction {motive : List Char → Prop} (nil : motive [])
    (marked : ∀ {taken} rest, IsMarkedBrace taken → motive rest → motive (taken ++ rest))
    (cons : ∀ c rest, (∀ taken, IsMarkedBrace taken → ¬ taken <+: c :: rest) → motive rest → motive (c :: rest))
    (text : List Char) : motive text := by
  have h := rewrites_semicolonBrace none text
  generalize none = prev at h
  generalize semicolonBrace.apply text = out at h
  induction h with
  | nil => exact nil
  | plain hnone _ ih => exact cons _ _ (taken?_semicolonBrace_eq_none_iff.mp hnone) ih
  | hit htaken htext _ _ ih =>
    rw [htext]
    exact marked _ (taken?_semicolonBrace_iff.mp htaken).1 ih

/-- What is found before a character that is in no match lies before it. -/
theorem prefix_of_prefix_append (hc : semicolonBrace.pattern.avoids c = true) (h : IsMarkedBrace taken)
    (hfront : taken <+: first ++ c :: rest) : taken <+: first := by
  have htakes : semicolonBrace.pattern.Takes none taken [] [] := h.takes
  obtain ⟨behind, hsplit⟩ := hfront
  rcases List.append_eq_append_iff.mp hsplit with ⟨more, hmore, -⟩ | ⟨more, htaken, hmore⟩
  · exact ⟨more, hmore.symm⟩
  · cases more with
    | nil => exact ⟨[], by simpa using htaken⟩
    | cons d more =>
      obtain ⟨rfl, -⟩ := List.cons.inj hmore
      exact absurd (htaken ▸ List.mem_append_right _ List.mem_cons_self) (htakes.not_mem hc)

/-- What stands on either side of such a character is rewritten by itself. -/
theorem semicolonBrace_apply_append (hc : semicolonBrace.pattern.avoids c = true) (first rest : List Char) :
    semicolonBrace.apply (first ++ c :: rest) = semicolonBrace.apply first ++ c :: semicolonBrace.apply rest := by
  induction first using semicolonBrace_induction with
  | nil =>
    refine semicolonBrace_apply_cons fun taken htaken hfront => htaken.ne_nil ?_
    exact List.prefix_nil.mp (prefix_of_prefix_append hc htaken hfront)
  | marked more hmarked ih =>
    rw [List.append_assoc, semicolonBrace_apply_marked hmarked, ih, semicolonBrace_apply_marked hmarked,
      List.cons_append]
  | cons d more hnone ih =>
    have hnone' : ∀ taken, IsMarkedBrace taken → ¬ taken <+: d :: (more ++ c :: rest) := fun taken htaken hfront =>
      hnone taken htaken (prefix_of_prefix_append hc htaken hfront)
    rw [List.cons_append, semicolonBrace_apply_cons hnone', ih, semicolonBrace_apply_cons hnone, List.cons_append]

/-- What holds no semicolon stays. -/
theorem semicolonBrace_apply_of_not_mem (h : ';' ∉ first) (rest : List Char) :
    semicolonBrace.apply (first ++ rest) = first ++ semicolonBrace.apply rest := by
  induction first with
  | nil => rfl
  | cons c first ih =>
    obtain ⟨hc, hfirst⟩ := not_or.mp (mt List.mem_cons.mpr h)
    rw [List.cons_append, semicolonBrace_apply_cons_of_ne (Ne.symm hc), ih hfirst, List.cons_append]

theorem getLast?_semicolonBrace_apply (text : List Char) : (semicolonBrace.apply text).getLast? = text.getLast? := by
  induction text using semicolonBrace_induction with
  | nil => rfl
  | marked rest hmarked ih =>
    obtain ⟨front, rfl, -⟩ := hmarked.exists_front
    rw [semicolonBrace_apply_marked hmarked, List.getLast?_cons, ih, List.getLast?_append, List.getLast?_concat]
    cases rest.getLast? <;> rfl
  | cons c rest hnone ih => rw [semicolonBrace_apply_cons hnone, List.getLast?_cons, List.getLast?_cons, ih]

theorem bracketsOf_semicolonBrace_apply (text : List Char) :
    bracketsOf (semicolonBrace.apply text) = bracketsOf text := by
  induction text using semicolonBrace_induction with
  | nil => rfl
  | @marked taken rest hmarked ih =>
    have htakes : semicolonBrace.pattern.Takes none taken [] [] := hmarked.takes
    have hnone : bracketsOf taken = [] := bracketsOf_eq_nil_iff.mpr fun c hc hbracket => by
      have hmem : ∀ c ∈ ['(', ')'], semicolonBrace.pattern.avoids c = true := List.all_eq_true.mp rfl
      exact htakes.not_mem (hmem c hbracket) hc
    rw [semicolonBrace_apply_marked hmarked, bracketsOf_append, hnone, ← ih]
    rfl
  | cons c rest hnone ih =>
    rw [semicolonBrace_apply_cons hnone, ← List.singleton_append, bracketsOf_append, ih, ← bracketsOf_append,
      List.singleton_append]

/-! ### Headers -/

/-- A text that ends with what a statement has to follow: the word of a loop or a condition with its brackets, however
deep others lie in them, or the word of the other case. The word is a name of its own, and it may also end a loop
that has its body in front. -/
inductive EndsInHeader : List Char → Prop where
  | condition {n : Nat} {before blanks inside : List Char} {word : String} : word ∈ ["for", "if", "while"] →
      before.getLast?.any Class.namePart = false → (∀ c ∈ blanks, isBlank c = true) → Nested n inside →
      EndsInHeader (before ++ (word.toList ++ (blanks ++ '(' :: (inside ++ [')']))))
  | other {before : List Char} : before.getLast?.any Class.namePart = false → EndsInHeader (before ++ "else".toList)

/-- A closing brace stands next, so there is no statement. -/
def LacksBody (text : List Char) : Prop := (text.dropWhile isBlank).head? = some '\x7d'

/-- An empty statement stands next, with a closing brace behind it. -/
def HasEmptyBody (text : List Char) : Prop :=
  ∃ blanks body rest, text = blanks ++ (body ++ rest) ∧ (∀ c ∈ blanks, isBlank c = true) ∧ IsMarkedBrace body

namespace EndsInHeader

/-- A header stays one. -/
theorem apply_semicolonBrace (h : EndsInHeader text) : EndsInHeader (semicolonBrace.apply text) := by
  cases h with
  | @condition n before blanks inside word hword hbefore hblanks hinside =>
    have hspelled : ∀ word ∈ ["for", "if", "while"], ∃ c rest, word.toList = c :: rest ∧
        semicolonBrace.pattern.avoids c = true ∧ ';' ∉ rest := by
      simp only [List.forall_mem_cons]
      exact ⟨⟨_, _, rfl, by decide⟩, ⟨_, _, rfl, by decide⟩, ⟨_, _, rfl, by decide⟩, by simp⟩
    obtain ⟨c, rest, hcons, hc, hrest⟩ := hspelled word hword
    have hblank : ';' ∉ blanks := fun hmem => absurd (hblanks _ hmem) (by decide)
    have happly : semicolonBrace.apply (before ++ (word.toList ++ (blanks ++ '(' :: (inside ++ [')'])))) =
        semicolonBrace.apply before ++ (word.toList ++ (blanks ++ '(' :: (semicolonBrace.apply inside ++ [')']))) := by
      rw [hcons, List.cons_append, semicolonBrace_apply_append hc, semicolonBrace_apply_of_not_mem hrest,
        semicolonBrace_apply_of_not_mem hblank, semicolonBrace_apply_cons_of_ne (by decide),
        semicolonBrace_apply_append (by decide)]
      rfl
    rw [happly]
    refine .condition hword (by rwa [getLast?_semicolonBrace_apply]) hblanks (n := n) ?_
    rw [← nested_bracketsOf_iff, bracketsOf_semicolonBrace_apply, nested_bracketsOf_iff]
    exact hinside
  | @other before hbefore =>
    have happly : semicolonBrace.apply (before ++ "else".toList) = semicolonBrace.apply before ++ "else".toList :=
      semicolonBrace_apply_append (c := 'e') (by decide) before "lse".toList
    rw [happly]
    exact .other (by rwa [getLast?_semicolonBrace_apply])

theorem exists_concat (h : EndsInHeader text) :
    ∃ front c, text = front ++ [c] ∧ semicolonBrace.pattern.avoids c = true := by
  cases h with
  | @condition _ before blanks inside word _ _ _ _ =>
    exact ⟨before ++ (word.toList ++ (blanks ++ '(' :: inside)), ')', by simp, by decide⟩
  | @other before _ => exact ⟨before ++ "els".toList, 'e', by simp, by decide⟩

/-- What follows a header is rewritten by itself. -/
theorem apply_append (h : EndsInHeader text) (rest : List Char) :
    semicolonBrace.apply (text ++ rest) = semicolonBrace.apply text ++ semicolonBrace.apply rest := by
  obtain ⟨front, c, rfl, hc⟩ := h.exists_concat
  rw [List.append_assoc, List.singleton_append, semicolonBrace_apply_append hc, semicolonBrace_apply_append hc,
    semicolonBrace_apply_nil, List.append_assoc, List.singleton_append]

end EndsInHeader

theorem lacksBody_cons_of_blank (hc : isBlank c = true) : LacksBody (c :: text) ↔ LacksBody text := by
  rw [LacksBody, LacksBody, List.dropWhile_cons_of_pos hc]

theorem lacksBody_cons_of_not_blank (hc : isBlank c = false) : LacksBody (c :: text) ↔ c = '\x7d' := by
  rw [LacksBody, List.dropWhile_cons_of_neg (by simp [hc]), List.head?_cons, Option.some_inj]

/-- Where the rule finds nothing, only behind a blank can an empty statement stand. -/
theorem hasEmptyBody_cons_iff (hnone : ∀ taken, IsMarkedBrace taken → ¬ taken <+: c :: rest) :
    HasEmptyBody (c :: rest) ↔ isBlank c = true ∧ HasEmptyBody rest := by
  constructor
  · rintro ⟨blanks, body, more, htext, hblanks, hbody⟩
    cases blanks with
    | nil => exact absurd ⟨more, htext.symm⟩ (hnone body hbody)
    | cons d blanks =>
      obtain ⟨rfl, rfl⟩ := List.cons.inj htext
      obtain ⟨hc, hrest⟩ := List.forall_mem_cons.mp hblanks
      exact ⟨hc, blanks, body, more, rfl, hrest, hbody⟩
  · rintro ⟨hc, blanks, body, more, rfl, hblanks, hbody⟩
    exact ⟨c :: blanks, body, more, rfl, List.forall_mem_cons.mpr ⟨hc, hblanks⟩, hbody⟩

theorem lacksBody_apply_iff : LacksBody (semicolonBrace.apply text) ↔ LacksBody text ∨ HasEmptyBody text := by
  induction text using semicolonBrace_induction with
  | nil =>
    rw [semicolonBrace_apply_nil]
    refine (or_iff_left ?_).symm
    rintro ⟨blanks, body, rest, htext, -, hbody⟩
    exact hbody.ne_nil (List.append_eq_nil_iff.mp (List.append_eq_nil_iff.mp htext.symm).2).1
  | @marked taken rest hmarked _ =>
    rw [semicolonBrace_apply_marked hmarked]
    exact iff_of_true rfl (Or.inr ⟨[], taken, rest, rfl, by simp, hmarked⟩)
  | cons c rest hnone ih =>
    rw [semicolonBrace_apply_cons hnone, hasEmptyBody_cons_iff hnone]
    by_cases hc : isBlank c = true
    · rw [lacksBody_cons_of_blank hc, lacksBody_cons_of_blank hc, ih]
      simp [hc]
    · have hc : isBlank c = false := Bool.eq_false_iff.mpr hc
      rw [lacksBody_cons_of_not_blank hc, lacksBody_cons_of_not_blank hc]
      simp [hc]

/-! ### Where the rule finds something -/

theorem isMarkedBrace_of_matchAt {index : Nat} {found : Match}
    (h : semicolonBrace.pattern.matchAt index prev text = some found) : IsMarkedBrace found.text := by
  obtain ⟨_, _, -, htakes, -⟩ := Match.exists_takes h
  exact isMarkedBrace_of_takes htakes

theorem IsMarkedBrace.exists_matchAt (h : IsMarkedBrace taken) (index : Nat) (prev : Option Char)
    (behind : List Char) : ∃ found, semicolonBrace.pattern.matchAt index prev (taken ++ behind) = some found :=
  Option.isSome_iff_exists.mp (matchAt_isSome_iff.mpr ⟨taken, behind, [], rfl, h.takes⟩)

theorem IsMarkedBrace.cons (h : IsMarkedBrace taken) : IsMarkedBrace (';' :: taken) := by
  obtain ⟨-, hmarks, hblanks⟩ := h
  exact .mk (List.cons_ne_nil _ _) (List.forall_mem_cons.mpr ⟨rfl, hmarks⟩) hblanks

/-- Only semicolons stand before one of its semicolons. -/
theorem IsMarkedBrace.forall_eq (h : IsMarkedBrace (first ++ ';' :: rest)) : ∀ c ∈ first, c = ';' := by
  generalize htext : first ++ ';' :: rest = text at h
  cases h with | @mk marks blanks _ hmarks hblanks => ?_
  rcases append_eq_append_cons htext.symm with ⟨more, rfl, -⟩ | ⟨more, rfl, hmore⟩
  · exact fun c hc => hmarks c (List.mem_append_left _ hc)
  · have hmem : ';' ∈ blanks ++ ['\x7d'] := hmore ▸ List.mem_append_right more List.mem_cons_self
    rcases List.mem_append.mp hmem with hblank | hbrace
    · exact absurd (hblanks _ hblank) (by decide)
    · exact absurd hbrace (by decide)

/-- A run is found as a whole: the place before it is no semicolon. -/
theorem getLast?_ne_of_segments {done todo : List Segment} {found : Match}
    (h : semicolonBrace.pattern.segments text = done ++ .hit found :: todo) :
    (done.flatMap Segment.text).getLast? ≠ some ';' := by
  intro hlast
  have hsearch := segments_segmented semicolonBrace.pattern text
  rw [h] at hsearch
  rcases List.eq_nil_or_concat' done with rfl | ⟨front, segment, rfl⟩
  · cases hlast
  rw [List.append_assoc] at hsearch
  obtain ⟨index, rest, -, hrest⟩ := hsearch.exists_of_append
  cases hrest with
  | plain hnone hbehind =>
    -- The match would begin at this semicolon.
    obtain rfl : _ = ';' := by simpa [Segment.text] using hlast
    cases hbehind with
    | hit hfound htext _ =>
      have hmarked := (isMarkedBrace_of_matchAt hfound).cons
      obtain ⟨other, hother⟩ := hmarked.exists_matchAt _ _ _
      rw [htext] at hnone
      exact (isMarkedBrace_of_matchAt hother).ne_nil (hnone other hother)
  | hit hfound _ _ =>
    obtain ⟨marked, hmarked, -⟩ := (isMarkedBrace_of_matchAt hfound).exists_front
    simp [Segment.text, hmarked] at hlast

/-- The rule finds every run of semicolons that has only blanks between itself and a closing brace, and nothing else. -/
theorem swaps_semicolonBrace_iff : semicolonBrace.Swaps text before old new behind ↔
    text = before ++ (old ++ behind) ∧ IsMarkedBrace old ∧ new = ['\x7d'] ∧ before.getLast? ≠ some ';' := by
  constructor
  · intro h
    obtain ⟨htext, index, found, hfound, rfl⟩ := h.exists_matchAt
    obtain ⟨done, found', todo, hsegments, hnew, rfl, -, -⟩ := h
    exact ⟨htext, isMarkedBrace_of_matchAt hfound, hnew.symm, getLast?_ne_of_segments hsegments⟩
  · rintro ⟨rfl, hold, rfl, hbefore⟩
    obtain ⟨found, hfound⟩ := hold.exists_matchAt (0 + before.length) (before.getLast?.or none) behind
    have hsearch := segments_segmented semicolonBrace.pattern (before ++ (old ++ behind))
    obtain ⟨done, other, todo, hsegments, hle, hlt⟩ :=
      hsearch.exists_over rfl hfound (isMarkedBrace_of_matchAt hfound).ne_nil
    rw [hsegments] at hsearch
    obtain ⟨_, rest, hplace, hother⟩ := hsearch.exists_matchAt
    have hmarked := isMarkedBrace_of_matchAt hother
    have htext := hsearch.flatMap_text
    obtain ⟨more, rfl⟩ : done.flatMap Segment.text <+: before :=
      List.prefix_of_prefix_length_le ⟨_, hplace.symm⟩ (List.prefix_append _ _) hle
    rw [List.append_assoc] at hplace
    have hover := List.append_cancel_left hplace
    simp only [List.length_append, Nat.add_lt_add_iff_left] at hlt
    obtain ⟨x, hx⟩ : more <+: other.text :=
      List.prefix_of_prefix_length_le ⟨_, hover⟩ (List.prefix_append _ _) hlt.le
    obtain ⟨c, x, rfl⟩ := List.exists_cons_of_ne_nil (l := x) (by rintro rfl; simp [← hx] at hlt)
    have hbehind : old ++ behind = c :: (x ++ rest) := by
      rw [← hx, List.append_assoc] at hover
      exact List.append_cancel_left hover
    have hhead := congrArg List.head? hbehind
    rw [List.head?_append, hold.head?_eq] at hhead
    obtain rfl : ';' = c := Option.some.inj hhead
    -- Everything before the run in the match that is found would be a semicolon.
    rw [← hx] at hmarked
    obtain rfl : more = [] := List.eq_nil_iff_forall_not_mem.mpr fun d hd => hbefore <| by
      have hne := List.ne_nil_of_mem hd
      rw [List.getLast?_append_of_ne_nil _ hne, List.getLast?_eq_some_getLast hne,
        hmarked.forall_eq _ (List.getLast_mem hne)]
    rw [hx] at hmarked
    obtain ⟨rfl, -⟩ := hold.unique hmarked hover
    refine ⟨done, other, todo, hsegments, rfl, by rw [List.append_nil], rfl, ?_⟩
    simpa [Segment.text] using htext

/-- The rule takes every run of semicolons before a closing brace, whatever stands in front. So a loop or a condition
whose body is an empty statement before a closing brace loses that body: behind the header the text is rewritten by
itself, and the header comes to lack a body there, or it lacked one already. No other header loses its body. -/
theorem semicolonBrace_bodies (text : List Char) :
    (∀ before old new behind, semicolonBrace.Swaps text before old new behind ↔
        text = before ++ (old ++ behind) ∧ IsMarkedBrace old ∧ new = ['\x7d'] ∧ before.getLast? ≠ some ';') ∧
      ∀ header rest, text = header ++ rest → EndsInHeader header →
        semicolonBrace.apply text = semicolonBrace.apply header ++ semicolonBrace.apply rest ∧
          EndsInHeader (semicolonBrace.apply header) ∧
          (LacksBody (semicolonBrace.apply rest) ↔ LacksBody rest ∨ HasEmptyBody rest) := by
  refine ⟨fun _ _ _ _ => swaps_semicolonBrace_iff, ?_⟩
  rintro header rest rfl hheader
  exact ⟨hheader.apply_append rest, hheader.apply_semicolonBrace, lacksBody_apply_iff⟩

theorem semicolonBrace_bodies_whileLoop :
    EndsInHeader "\x7bwhile(f())".toList ∧ ¬ LacksBody ";\x7d".toList ∧ HasEmptyBody ";\x7d".toList ∧
      semicolonBrace.Swaps "\x7bwhile(f());\x7d".toList "\x7bwhile(f())".toList ";\x7d".toList "\x7d".toList [] ∧
      EndsInHeader (semicolonBrace.apply "\x7bwhile(f())".toList) ∧
      LacksBody (semicolonBrace.apply ";\x7d".toList) := by
  have hinside : Nested 1 "f()".toList := .plain (by decide) (.brackets .nil .nil)
  have hheader : EndsInHeader "\x7bwhile(f())".toList :=
    @EndsInHeader.condition 1 ['\x7b'] [] _ "while" (by decide) rfl (by simp) hinside
  have hmarked : IsMarkedBrace ";\x7d".toList := @IsMarkedBrace.mk [';'] [] (by decide) (by simp) (by simp)
  have hempty : HasEmptyBody ";\x7d".toList := ⟨[], _, [], rfl, by simp, hmarked⟩
  obtain ⟨hswaps, hheaders⟩ := semicolonBrace_bodies "\x7bwhile(f());\x7d".toList
  obtain ⟨-, hstays, hlacks⟩ := hheaders "\x7bwhile(f())".toList ";\x7d".toList rfl hheader
  exact ⟨hheader, by simp [LacksBody, isBlank], hempty, (hswaps _ _ _ _).mpr ⟨rfl, hmarked, rfl, by decide⟩, hstays,
    hlacks.mpr (Or.inr hempty)⟩

/-- The options under which semicolons before closing braces go. -/
def withoutMarks : Options where
  level := .aggressive

/-- The loop and the condition lose their empty statements, so what is left does not parse. -/
theorem semicolonBrace_bodies_loops :
    (minifyScript "\x7bwhile(f());\x7d" withoutMarks).minified = "\x7bwhile(f())\x7d" ∧
      (minifyScript "if (x) \x7b for (;;); \x7d\nelse \x7b y(); \x7d" withoutMarks).minified =
        "if(x)\x7bfor(;;)\x7delse\x7by()\x7d" := by
  decide +kernel

end Script

end Minifier
