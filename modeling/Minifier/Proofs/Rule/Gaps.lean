import Minifier.Proofs.Rule.Breaks
import Minifier.Proofs.Rule.Marks

/-!
Blanks between two characters that are no blanks. Every rule for blanks cuts at such characters, so it can be said of
one gap what becomes of it. Spaces, tabs and form feeds become a space, or nothing next to a mark around which blanks
go. A gap with any other blank lasts, unless every blank becomes a space.
-/

namespace Minifier

open Pattern

variable {edit : List Char → List Char} {rule : Rule} {new : List Char → List Char} {name : String}
  {accepts : Char → Bool} {marks : List Char} {c d : Char} {gap gap' gap'' : List Char}

theorem Bridges.unique (h : Bridges edit c d gap gap') (h' : Bridges edit c d gap gap'') : gap' = gap'' := by
  have heq := (h [] []).1.symm.trans (h' [] []).1
  exact List.append_cancel_left (List.append_cancel_right heq)

/-! ### Gaps without line feeds -/

/-- A space, if there was anything. -/
def spaceFor : List Char → List Char
  | [] => []
  | _ :: _ => [' ']

theorem eq_space_of_mem_spaceFor {x : Char} (h : x ∈ spaceFor gap) : x = ' ' := by
  cases gap with
  | nil => cases h
  | cons y gap => exact List.mem_singleton.mp h

theorem spaceFor_eq_nil_iff : spaceFor gap = [] ↔ gap = [] := by
  cases gap with
  | nil => exact Iff.rfl
  | cons y gap => exact iff_of_false (List.cons_ne_nil _ _) (List.cons_ne_nil _ _)

/-- Blanks that a rule makes a space of. -/
theorem bridges_put_run1 (hc : accepts c = false) (hd : accepts d = false) (hgap : ∀ x ∈ gap, accepts x = true) :
    Bridges (Rule.put name (run1 accepts) ' ').apply c d gap (spaceFor gap) := by
  have hputs : (Rule.put name (run1 accepts) ' ').Puts fun _ => [' '] := .put ' ' rfl
  refine hputs.bridges (Spacing.avoids_run1 hc) (Spacing.avoids_run1 hd) ?_
  have hend : (run1 accepts).Rewrites (fun _ => [' ']) (some d) [] [] := .nil
  cases gap with
  | nil => exact .plain (taken?_run1_of_neg hd) hend
  | cons x gap =>
    obtain ⟨hx, hgap⟩ := List.forall_mem_cons.mp hgap
    have hstop : [d].head?.any accepts = false := hd
    have hrun := takeWhile_append_of_head hgap hstop
    have htaken : (run1 accepts).taken? (some c) (x :: (gap ++ [d])) = some (x :: gap) := by
      rw [taken?_run1_of_pos hx, hrun.1]
    exact .hit htaken rfl (List.cons_ne_nil _ _) (.plain (taken?_run1_of_neg hd) hend)

namespace Spacing

theorem avoids_trimLines_of_not_blank (h : Text.isBlank c = false) : trimLines.pattern.avoids c = true :=
  avoids_trimLines (spaceTab_eq_false h) (among_eq_false h (by decide))

theorem avoids_collapseHorizontal (h : Text.isBlank c = false) : collapseHorizontal.pattern.avoids c = true :=
  avoids_run1 (among_eq_false h (by decide))

theorem bridges_trimLines (hc : Text.isBlank c = false) (hd : Text.isBlank d = false) (hgap : '\n' ∉ gap) :
    Bridges trimLines.apply c d gap gap := by
  have hline : '\n' ∉ gap ++ [d] := by
    rw [List.mem_append, List.mem_singleton, not_or]
    exact ⟨hgap, (ne_break_of_not_blank hd).symm⟩
  refine puts_trimLines.bridges (avoids_trimLines_of_not_blank hc) (avoids_trimLines_of_not_blank hd)
    (.of_forall_ne fun before behind taken hsplit htaken => ?_)
  obtain ⟨rest, parts, rfl, htakes⟩ := exists_takes_of_taken? htaken
  have hd' : d ∉ taken := htakes.not_mem (avoids_trimLines_of_not_blank hd)
  have hne : taken ≠ [] := ne_nil_of_taken? puts_trimLines.exceeds htaken
  rw [hsplit] at hline
  -- The line begins before the gap and ends behind it.
  rcases htakes with ⟨_, _, _, _, ⟨hstart, -⟩, -⟩ | ⟨_, _, _, _, -, ⟨hend, -⟩, -⟩
  · rcases Option.or_eq_some_iff.mp ((Anchor.holdsBetween_lineStart.mp hstart).resolve_left (by simp)) with
      hlast | ⟨-, hfirst⟩
    · exact hline (List.mem_append_left _ (List.mem_of_getLast? hlast))
    · exact ne_break_of_not_blank hc (Option.some.inj hfirst)
  · obtain ⟨more, -, hmore⟩ := exists_before_last hne hd' hsplit
    rcases Anchor.holdsBetween_lineEnd.mp hend with hnil | hbreak
    · simp [show rest = [] from hnil] at hmore
    · have hmem : '\n' ∈ rest := List.mem_of_mem_head? hbreak
      exact hline (List.mem_append_right _ (List.mem_append_right _ hmem))

theorem bridges_emptyLines (hc : Text.isBlank c = false) (hd : Text.isBlank d = false) (hgap : '\n' ∉ gap) :
    Bridges emptyLines.apply c d gap gap := by
  refine puts_emptyLines.bridges (avoids_emptyLines hc) (avoids_emptyLines hd)
    (.of_forall_ne fun before behind taken hsplit htaken => ?_)
  obtain ⟨-, line, rest, -, -, rfl⟩ := taken?_emptyLines_iff.mp htaken
  have hmem : '\n' ∈ gap ++ [d] := hsplit ▸ by simp
  rcases List.mem_append.mp hmem with hbreak | hbreak
  · exact hgap hbreak
  · exact ne_break_of_not_blank hd (List.mem_singleton.mp hbreak).symm

theorem bridges_trimEnds (hc : Text.isBlank c = false) (hd : Text.isBlank d = false) :
    Bridges trimEnds.apply c d gap gap :=
  puts_trimEnds.bridges (avoids_trimEnds hc) (avoids_trimEnds hd) (rewrites_trimEnds hd _)

end Spacing

/-! ### Marks next to a gap -/

theorem tighten_blanks (hgap : ∀ x ∈ gap, accepts x = true) (held rest : List Char) :
    tighten accepts marks false held (gap ++ rest) = tighten accepts marks false (held ++ gap) rest := by
  induction gap generalizing held with
  | nil => simp
  | cons x gap ih =>
    obtain ⟨hx, hgap⟩ := List.forall_mem_cons.mp hgap
    rw [List.cons_append, tighten_blank hx, ih hgap, List.append_assoc, List.singleton_append]

theorem tighten_blanks_after (hgap : ∀ x ∈ gap, accepts x = true) (rest : List Char) :
    tighten accepts marks true [] (gap ++ rest) = tighten accepts marks true [] rest := by
  induction gap with
  | nil => rfl
  | cons x gap ih =>
    obtain ⟨hx, hgap⟩ := List.forall_mem_cons.mp hgap
    rw [List.cons_append, tighten_blank_after hx, ih hgap]

/-- A gap goes if there is a mark on either side of it, and stays otherwise. -/
theorem tighten_gap (hc : accepts c = false) (hd : accepts d = false) (hgap : ∀ x ∈ gap, accepts x = true) :
    tighten accepts marks false [] (c :: (gap ++ [d])) =
      c :: ((if c ∈ marks ∨ d ∈ marks then [] else gap) ++ [d]) := by
  by_cases hcmark : c ∈ marks
  · rw [tighten_mark hc hcmark, tighten_blanks_after hgap, if_pos (Or.inl hcmark)]
    by_cases hdmark : d ∈ marks
    · rw [tighten_mark hd hdmark]
      rfl
    · rw [tighten_other hd hdmark]
      rfl
  · rw [tighten_other hc hcmark, tighten_blanks hgap, List.nil_append]
    by_cases hdmark : d ∈ marks
    · rw [tighten_mark hd hdmark, if_pos (Or.inr hdmark)]
      rfl
    · rw [tighten_other hd hdmark, if_neg (by simp [hcmark, hdmark])]
      rfl

/-- Next to marks some blanks of a gap may go, but no others. -/
theorem exists_tighten_gap (hd : accepts d = false) (hgap : ∀ x ∈ gap, x ∉ marks) (afterMark : Bool)
    {held : List Char} (hheld : ∀ x ∈ held, accepts x = true) :
    ∃ gap', tighten accepts marks afterMark held (gap ++ [d]) = gap' ++ [d] ∧ gap'.Sublist (held ++ gap) ∧
      gap'.filter (fun x => !accepts x) = gap.filter (fun x => !accepts x) := by
  have hnil : ∀ x ∈ ([] : List Char), accepts x = true := List.forall_mem_nil _
  have hnone : ∀ {held : List Char}, (∀ x ∈ held, accepts x = true) → held.filter (fun x => !accepts x) = [] :=
    fun hheld => List.filter_eq_nil_iff.mpr fun x hx => by simp [hheld x hx]
  induction gap generalizing afterMark held with
  | nil =>
    by_cases hmark : d ∈ marks
    · exact ⟨[], tighten_mark hd hmark, List.nil_sublist _, rfl⟩
    · exact ⟨held, tighten_other hd hmark, List.sublist_append_left _ _, hnone hheld⟩
  | cons y gap ih =>
    obtain ⟨hy, hgap⟩ := List.forall_mem_cons.mp hgap
    by_cases haccepts : accepts y = true
    · have hheld' : ∀ x ∈ (if afterMark then [] else held ++ [y]), accepts x = true := by
        cases afterMark with
        | true => exact hnil
        | false => exact List.forall_mem_append.mpr ⟨hheld, List.forall_mem_singleton.mpr haccepts⟩
      obtain ⟨gap', hgap', hsublist, hfilter⟩ := ih hgap afterMark hheld'
      refine ⟨gap', ?_, hsublist.trans ?_, by simpa [haccepts] using hfilter⟩
      · rw [List.cons_append, tighten, if_pos haccepts, hgap']
      · cases afterMark with
        | true => exact ((List.sublist_cons_self y gap).trans (List.sublist_append_right held _))
        | false => simp
    · have hy' : accepts y = false := Bool.eq_false_iff.mpr haccepts
      obtain ⟨gap', hgap', hsublist, hfilter⟩ := ih hgap false hnil
      refine ⟨held ++ y :: gap', ?_, (hsublist.cons_cons y).append_left held, ?_⟩
      · rw [List.cons_append, tighten_other hy' hy, hgap', List.append_assoc, List.cons_append]
      · rw [List.filter_append, hnone hheld, List.nil_append, List.filter_cons_of_pos (by simp [hy']), hfilter,
          List.filter_cons_of_pos (by simp [hy'])]

/-! ### Gaps that last -/

/-- The blanks within a line that become one space. -/
def Spacing.horizontal : Char → Bool := Class.among [' ', '\t', '\x0c']

/-- A gap with a blank that is no such one. A rule for lines may take some of it, but not all. -/
def Lasting (gap : List Char) : Prop := ∃ x ∈ gap, Spacing.horizontal x = false

theorem Lasting.of_break (h : '\n' ∈ gap) : Lasting gap := ⟨'\n', h, rfl⟩

theorem Lasting.ne_nil (h : Lasting gap) : gap ≠ [] := by
  obtain ⟨x, hx, -⟩ := h
  exact List.ne_nil_of_mem hx

theorem horizontal_of_not_lasting (h : ¬ Lasting gap) : ∀ x ∈ gap, Spacing.horizontal x = true := by
  intro x hx
  by_contra hlasting
  exact h ⟨x, hx, Bool.eq_false_iff.mpr hlasting⟩

theorem spaceTab_eq_false_of_horizontal {x : Char} (h : Spacing.horizontal x = false) : Class.spaceTab x = false := by
  simp only [Spacing.horizontal, Class.among, List.contains_cons, Bool.or_eq_false_iff] at h
  rw [Class.spaceTab, h.1, h.2.1]
  rfl

/-- What is left of a gap under such a rule: of its characters and of spaces. -/
structure SparesGap (gap gap' : List Char) : Prop where
  mem : ∀ x ∈ gap', x ∈ gap ∨ x = ' '
  lasting : Lasting gap → Lasting gap'

/-- An edit does so with the blanks between any two characters that are no blanks. -/
def SparesGaps (edit : List Char → List Char) : Prop :=
  ∀ c d, Text.isBlank c = false → Text.isBlank d = false → ∀ gap, (∀ x ∈ gap, Text.isBlank x = true) →
    ∃ gap', Bridges edit c d gap gap' ∧ SparesGap gap gap'

theorem SparesGap.refl (gap : List Char) : SparesGap gap gap := ⟨fun _ => Or.inl, id⟩

theorem SparesGap.trans (h : SparesGap gap gap') (h' : SparesGap gap' gap'') : SparesGap gap gap'' where
  mem x hx := (h'.mem x hx).elim (h.mem x) Or.inr
  lasting := h'.lasting ∘ h.lasting

theorem SparesGap.isBlank (h : SparesGap gap gap') (hgap : ∀ x ∈ gap, Text.isBlank x = true) :
    ∀ x ∈ gap', Text.isBlank x = true := by
  intro x hx
  rcases h.mem x hx with hmem | rfl
  · exact hgap x hmem
  · rfl

theorem Pipeline.sparesGaps_run {pipeline : Pipeline} (h : pipeline.Each fun rule => SparesGaps rule.apply) :
    SparesGaps pipeline.run := by
  induction pipeline with
  | nil => exact fun c d _ _ gap _ => ⟨gap, .pipeline_nil c d gap, .refl gap⟩
  | cons rule pipeline ih =>
    obtain ⟨hrule, hrest⟩ := List.forall_mem_cons.mp h
    intro c d hc hd gap hgap
    obtain ⟨gap', hbridges, hspares⟩ := hrule c d hc hd gap hgap
    obtain ⟨gap'', hbridges', hspares'⟩ := ih hrest c d hc hd gap' (hspares.isBlank hgap)
    exact ⟨gap'', hbridges.pipeline_cons hbridges', hspares.trans hspares'⟩

namespace Spacing

/-- A rule that accepts blanks only, puts spaces only, and leaves a gap without line feeds as it is. -/
theorem sparesGaps_of_breaks (h : rule.Puts new) (havoids : ∀ x, Text.isBlank x = false → rule.pattern.avoids x = true)
    (hspares : SparesBreaks rule.apply) (hnew : ∀ taken, new taken = [])
    (hbreakless : ∀ {c d gap}, Text.isBlank c = false → Text.isBlank d = false → '\n' ∉ gap →
      Bridges rule.apply c d gap gap) : SparesGaps rule.apply := by
  intro c d hc hd gap _
  by_cases hbreak : '\n' ∈ gap
  · obtain ⟨gap', hbridges, -, hmem⟩ := h.exists_bridges (havoids c hc) (havoids d hd) gap
    obtain ⟨gap'', hbridges', hbreaks⟩ := hspares c d hc hd gap
    obtain rfl := hbridges.unique hbridges'
    refine ⟨gap', hbridges, fun x hx => Or.inl ?_, fun _ => .of_break (hbreaks.mpr hbreak)⟩
    exact (hmem x hx).resolve_right fun ⟨taken, hx⟩ => List.not_mem_nil (hnew taken ▸ hx)
  · exact ⟨gap, hbreakless hc hd hbreak, .refl gap⟩

theorem sparesGaps_collapseHorizontal : SparesGaps collapseHorizontal.apply := by
  intro c d hc hd gap hgap
  obtain ⟨gap', hbridges, hrewrites, hmem⟩ :=
    puts_collapseHorizontal.exists_bridges (avoids_collapseHorizontal hc) (avoids_collapseHorizontal hd) gap
  refine ⟨gap', hbridges, fun x hx => (hmem x hx).imp_right fun ⟨_, hx⟩ => List.mem_singleton.mp hx, ?_⟩
  rintro ⟨x, hx, hlasting⟩
  have hspace : ∀ taken : List Char, x ∉ [' '] := by
    rintro - hx
    rw [List.mem_singleton.mp hx] at hlasting
    cases hlasting
  have hstays := (hrewrites.mem_iff (avoids_run1 hlasting) hspace).mpr (List.mem_append_left _ hx)
  rcases List.mem_append.mp hstays with hstays | hstays
  · exact ⟨x, hstays, hlasting⟩
  · rw [← List.mem_singleton.mp hstays, hgap x hx] at hd
    cases hd

theorem sparesGaps_trimLines : SparesGaps trimLines.apply :=
  sparesGaps_of_breaks puts_trimLines (fun _ => avoids_trimLines_of_not_blank) sparesBreaks_trimLines (fun _ => rfl)
    bridges_trimLines

theorem sparesGaps_emptyLines : SparesGaps emptyLines.apply :=
  sparesGaps_of_breaks puts_emptyLines (fun _ => avoids_emptyLines) sparesBreaks_emptyLines (fun _ => rfl)
    bridges_emptyLines

theorem sparesGaps_trimEnds : SparesGaps trimEnds.apply := fun _ _ hc hd gap _ =>
  ⟨gap, bridges_trimEnds hc hd, .refl gap⟩

end Spacing

/-- An edit leaves something of every gap. -/
def LeavesGaps (edit : List Char → List Char) : Prop :=
  ∀ c d, Text.isBlank c = false → Text.isBlank d = false → ∀ gap, (∀ x ∈ gap, Text.isBlank x = true) →
    ∃ gap', Bridges edit c d gap gap' ∧ (∀ x ∈ gap', x ∈ gap ∨ x = ' ') ∧ (gap' = [] ↔ gap = [])

theorem Pipeline.leavesGaps_run {pipeline : Pipeline} (h : pipeline.Each fun rule => LeavesGaps rule.apply) :
    LeavesGaps pipeline.run := by
  induction pipeline with
  | nil => exact fun c d _ _ gap _ => ⟨gap, .pipeline_nil c d gap, fun _ => Or.inl, Iff.rfl⟩
  | cons rule pipeline ih =>
    obtain ⟨hrule, hrest⟩ := List.forall_mem_cons.mp h
    intro c d hc hd gap hgap
    obtain ⟨gap', hbridges, hmem, hnil⟩ := hrule c d hc hd gap hgap
    have hgap' : ∀ x ∈ gap', Text.isBlank x = true := fun x hx => (hmem x hx).elim (hgap x) fun hspace => hspace ▸ rfl
    obtain ⟨gap'', hbridges', hmem', hnil'⟩ := ih hrest c d hc hd gap' hgap'
    exact ⟨gap'', hbridges.pipeline_cons hbridges', fun x hx => (hmem' x hx).elim (hmem x) Or.inr, hnil'.trans hnil⟩

/-- A rule for lines that makes nothing but a space of what is within one. -/
theorem SparesGaps.leavesGaps (h : SparesGaps edit)
    (hwithin : ∀ {c d gap}, Text.isBlank c = false → Text.isBlank d = false → ¬ Lasting gap →
      Bridges edit c d gap gap ∨ Bridges edit c d gap (spaceFor gap)) : LeavesGaps edit := by
  intro c d hc hd gap hgap
  by_cases hlasting : Lasting gap
  · obtain ⟨gap', hbridges, hspares⟩ := h c d hc hd gap hgap
    exact ⟨gap', hbridges, hspares.mem, iff_of_false (hspares.lasting hlasting).ne_nil hlasting.ne_nil⟩
  · rcases hwithin hc hd hlasting with hbridges | hbridges
    · exact ⟨gap, hbridges, fun _ => Or.inl, Iff.rfl⟩
    · exact ⟨spaceFor gap, hbridges, fun x hx => Or.inr (eq_space_of_mem_spaceFor hx), spaceFor_eq_nil_iff⟩

namespace Spacing

theorem leavesGaps_collapseHorizontal : LeavesGaps collapseHorizontal.apply :=
  sparesGaps_collapseHorizontal.leavesGaps fun hc hd hgap => Or.inr <|
    bridges_put_run1 (among_eq_false hc (by decide)) (among_eq_false hd (by decide)) (horizontal_of_not_lasting hgap)

theorem leavesGaps_trimLines : LeavesGaps trimLines.apply :=
  sparesGaps_trimLines.leavesGaps fun hc hd hgap => Or.inl (bridges_trimLines hc hd (mt Lasting.of_break hgap))

theorem leavesGaps_emptyLines : LeavesGaps emptyLines.apply :=
  sparesGaps_emptyLines.leavesGaps fun hc hd hgap => Or.inl (bridges_emptyLines hc hd (mt Lasting.of_break hgap))

theorem leavesGaps_trimEnds : LeavesGaps trimEnds.apply :=
  sparesGaps_trimEnds.leavesGaps fun hc hd _ => Or.inl (bridges_trimEnds hc hd)

end Spacing

/-- A rule that drops spaces and tabs around marks. -/
theorem sparesGaps_aroundMarks (hmarks : ∀ x ∈ marks, Text.isBlank x = false) (other : Char)
    (hother : Text.isBlank other = false) (hother' : other ∉ marks) :
    SparesGaps (Rule.aroundMarks name Class.spaceTab marks).apply := by
  intro c d hc hd gap hgap
  have hdisjoint : ∀ x ∈ marks, Class.spaceTab x = false := fun x hx => Spacing.spaceTab_eq_false (hmarks x hx)
  have hmem : ∀ x ∈ gap, x ∉ marks := fun x hx hmark =>
    absurd (hgap x hx) (Bool.eq_false_iff.mp (hmarks x hmark))
  have hcut : ∀ {x}, Text.isBlank x = false → CutsAt (Rule.aroundMarks name Class.spaceTab marks).apply x := fun hx =>
    cutsAt_aroundMarks hdisjoint (Spacing.spaceTab_eq_false hother) hother' (Spacing.spaceTab_eq_false hx)
  obtain ⟨gap', hgap', hsublist, hfilter⟩ :=
    exists_tighten_gap (Spacing.spaceTab_eq_false hd) hmem (marks.contains c) (List.forall_mem_nil _)
  refine ⟨gap', (hcut hc).bridges (hcut hd) ?_, fun x hx => Or.inl (hsublist.subset hx), ?_⟩
  · rw [apply_aroundMarks hdisjoint (Spacing.spaceTab_eq_false hother) hother',
      tighten_cons (Spacing.spaceTab_eq_false hc), hgap']
  · rintro ⟨x, hx, hlasting⟩
    have hstays : x ∈ gap.filter fun x => !Class.spaceTab x :=
      List.mem_filter.mpr ⟨hx, by rw [spaceTab_eq_false_of_horizontal hlasting]; rfl⟩
    rw [← hfilter] at hstays
    exact ⟨x, (List.mem_filter.mp hstays).1, hlasting⟩

/-- Blanks that a rule drops around marks go where a mark stands next to them. -/
theorem bridges_aroundMarks (hdisjoint : ∀ x ∈ marks, accepts x = false) (other : Char)
    (hother : accepts other = false) (hother' : other ∉ marks) (hc : accepts c = false) (hd : accepts d = false)
    (hgap : ∀ x ∈ gap, accepts x = true) :
    Bridges (Rule.aroundMarks name accepts marks).apply c d gap (if c ∈ marks ∨ d ∈ marks then [] else gap) := by
  have hcut : ∀ {x}, accepts x = false → CutsAt (Rule.aroundMarks name accepts marks).apply x := fun hx =>
    cutsAt_aroundMarks hdisjoint hother hother' hx
  refine (hcut hc).bridges (hcut hd) ?_
  rw [apply_aroundMarks hdisjoint hother hother', tighten_gap hc hd hgap]

/-! ### Words between gaps -/

/-- What can be decided of each character of a list. All characters there are would be too many to go through. -/
theorem Text.forall_mem_of_all {property : Char → Prop} [DecidablePred property] {chars : List Char}
    (h : chars.all (fun c => decide (property c)) = true) : ∀ c ∈ chars, property c :=
  fun c hc => of_decide_eq_true (List.all_eq_true.mp h c hc)

/-- An edit of blanks only: it cuts at every character that is none, and leaves a text of such characters. -/
structure EditsBlanks (edit : List Char → List Char) : Prop where
  cutsAt : ∀ {c}, Text.isBlank c = false → CutsAt edit c
  word : ∀ {word}, (∀ c ∈ word, Text.isBlank c = false) → edit word = word

theorem Pipeline.editsBlanks_run {pipeline : Pipeline} (h : pipeline.Each fun rule => EditsBlanks rule.apply) :
    EditsBlanks pipeline.run where
  cutsAt hc := cutsAt_run (h.mono fun _ hrule => hrule.cutsAt hc)
  word hword := by
    induction pipeline with
    | nil => rfl
    | cons rule pipeline ih =>
      obtain ⟨hrule, hrest⟩ := List.forall_mem_cons.mp h
      rw [run_cons, hrule.word hword, ih hrest]

/-- A rule that accepts blanks only. -/
theorem Rule.Puts.editsBlanks (h : rule.Puts new)
    (havoids : ∀ {c}, Text.isBlank c = false → rule.pattern.avoids c = true) : EditsBlanks rule.apply where
  cutsAt hc := h.cutsAt (havoids hc)
  word {word} hword := by
    refine (h.rewrites_apply (havoids (c := 'a') (by decide)) word).unique (.of_forall_none fun before behind hsplit => ?_)
    cases behind with
    | nil =>
      rw [Option.eq_none_iff_forall_ne_some]
      intro taken htaken
      obtain ⟨rest, parts, hnil, -⟩ := exists_takes_of_taken? htaken
      exact ne_nil_of_taken? h.exceeds htaken (List.append_eq_nil_iff.mp hnil.symm).1
    | cons c behind => exact taken?_stop (havoids (hword c (hsplit ▸ by simp))) h.exceeds _ _

namespace Spacing

theorem editsBlanks_collapseWhitespace : EditsBlanks collapseWhitespace.apply :=
  puts_collapseWhitespace.editsBlanks avoids_run1

theorem editsBlanks_collapseHorizontal : EditsBlanks collapseHorizontal.apply :=
  puts_collapseHorizontal.editsBlanks avoids_collapseHorizontal

theorem editsBlanks_trimLines : EditsBlanks trimLines.apply := puts_trimLines.editsBlanks avoids_trimLines_of_not_blank

theorem editsBlanks_emptyLines : EditsBlanks emptyLines.apply := puts_emptyLines.editsBlanks avoids_emptyLines

theorem editsBlanks_trimEnds : EditsBlanks trimEnds.apply := puts_trimEnds.editsBlanks avoids_trimEnds

end Spacing

theorem Rule.editsBlanks_aroundMarks (haccepts : ∀ {c}, Text.isBlank c = false → accepts c = false)
    (hmarks : ∀ x ∈ marks, Text.isBlank x = false) (other : Char) (hother : Text.isBlank other = false)
    (hother' : other ∉ marks) : EditsBlanks (Rule.aroundMarks name accepts marks).apply where
  cutsAt hc := cutsAt_aroundMarks (fun x hx => haccepts (hmarks x hx)) (haccepts hother) hother' (haccepts hc)
  word {word} hword := by
    rw [apply_aroundMarks (fun x hx => haccepts (hmarks x hx)) (haccepts hother) hother']
    generalize false = afterMark
    induction word generalizing afterMark with
    | nil => rfl
    | cons c word ih =>
      obtain ⟨hc, hword⟩ := List.forall_mem_cons.mp hword
      rw [tighten_cons (haccepts hc), ih hword]

namespace EditsBlanks

variable {word before before' behind behind' : List Char}

/-- A word stays whole, whatever stands before it. -/
theorem exists_before (h : EditsBlanks edit) (hword : ∀ c ∈ word, Text.isBlank c = false) (hne : word ≠ [])
    (left : List Char) :
    ∃ before, edit (left ++ word) = before ++ word := by
  obtain ⟨c, word, rfl⟩ := List.exists_cons_of_ne_nil hne
  obtain ⟨before, behind, -, hbehind, hwhole⟩ := h.cutsAt (hword c List.mem_cons_self) left word
  rw [h.word hword] at hbehind
  exact ⟨before, by rw [hwhole, hbehind]⟩

/-- A word stays whole, whatever stands behind it. -/
theorem exists_behind (h : EditsBlanks edit) (hword : ∀ c ∈ word, Text.isBlank c = false) (hne : word ≠ [])
    (right : List Char) :
    ∃ behind, edit (word ++ right) = word ++ behind := by
  obtain ⟨word, c, rfl⟩ := (List.eq_nil_or_concat' word).resolve_left hne
  obtain ⟨before, behind, hbefore, -, hwhole⟩ := h.cutsAt (hword c (by simp)) word right
  rw [h.word hword] at hbefore
  refine ⟨behind, ?_⟩
  rw [List.append_assoc, List.singleton_append, hwhole, hbefore, List.append_assoc, List.singleton_append]

/-- Two words with anything between them stay whole, and what stands around both is edited by itself. -/
theorem exists_around (h : EditsBlanks edit) {first second : List Char}
    (hfirst : ∀ x ∈ first ++ [c], Text.isBlank x = false) (hsecond : ∀ x ∈ d :: second, Text.isBlank x = false)
    (left right : List Char) : ∃ before behind, edit (left ++ (first ++ [c])) = before ++ (first ++ [c]) ∧
      edit (d :: (second ++ right)) = d :: (second ++ behind) ∧ ∀ mid mid', Bridges edit c d mid mid' →
        edit (left ++ (first ++ c :: (mid ++ d :: (second ++ right)))) =
          before ++ (first ++ c :: (mid' ++ d :: (second ++ behind))) := by
  obtain ⟨before, hbefore⟩ := h.exists_before hfirst (by simp) left
  obtain ⟨behind, hbehind⟩ := h.exists_behind hsecond (by simp) right
  rw [List.cons_append, List.cons_append] at hbehind
  refine ⟨before, behind, hbefore, hbehind, fun mid mid' hbridges => ?_⟩
  obtain ⟨hwhole, -⟩ := hbridges (left ++ first) (second ++ right)
  have hleft : left ++ first ++ [c] = left ++ (first ++ [c]) := List.append_assoc _ _ _
  rw [hleft, hbefore, hbehind] at hwhole
  simpa using hwhole

theorem bridges_nil (h : EditsBlanks edit) (hc : Text.isBlank c = false) (hd : Text.isBlank d = false) :
    Bridges edit c d [] [] :=
  (h.cutsAt hc).bridges (h.cutsAt hd) (h.word (List.forall_mem_cons.mpr ⟨hc, List.forall_mem_singleton.mpr hd⟩))

/-- A word stays whole, and what stands on either side of it is edited by itself. -/
theorem bridges_word (h : EditsBlanks edit) {first last : Char} {more most : List Char} (hfirst : word = first :: more)
    (hlast : word = most ++ [last]) (hword : ∀ c ∈ word, Text.isBlank c = false)
    (hbefore : Bridges edit c first before before') (hbehind : Bridges edit last d behind behind') :
    Bridges edit c d (before ++ (word ++ behind)) (before' ++ (word ++ behind')) := by
  intro left right
  obtain ⟨hwhole, hbegin, -⟩ := hbefore left (more ++ (behind ++ d :: right))
  obtain ⟨hwhole', -, hend⟩ := hbehind most right
  refine ⟨?_, hbegin, hend⟩
  have hleft : left ++ c :: (before ++ (word ++ behind) ++ d :: right) =
      left ++ c :: (before ++ first :: (more ++ (behind ++ d :: right))) := by simp [hfirst]
  have hright : first :: (more ++ (behind ++ d :: right)) = most ++ last :: (behind ++ d :: right) := by
    rw [← List.cons_append, ← hfirst, hlast, List.append_assoc, List.singleton_append]
  rw [hleft, hwhole, hright, hwhole', ← hlast, h.word hword]
  simp

end EditsBlanks

end Minifier
