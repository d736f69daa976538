import Minifier.Proofs.Rule.Lines

/-!
The blanks at the beginning of a line where they carry meaning. The rules for such a language take blanks from the end
of a line, or between two characters of it, and so leave its indentation alone; only trimming the text takes that of the
first line.
-/

namespace Minifier

open Pattern Text Spacing

variable {c : Char} {line line' rest out old new text : List Char}

/-- The spaces and tabs at the beginning of a line. -/
def indentation (line : List Char) : List Char := line.takeWhile Class.spaceTab

/-- The indentation of every line with code on it. -/
def indents (text : List Char) : List (List Char) := (nonBlankLines text).map indentation

/-! ### Lines one by one -/

theorem indentation_cons_of_neg (h : Class.spaceTab c = false) (rest : List Char) : indentation (c :: rest) = [] :=
  List.takeWhile_cons_of_neg (Bool.eq_false_iff.mp h)

/-- Two lines hold the same code, behind the same indentation if there is any. -/
structure SameFront (line line' : List Char) : Prop where
  nonBlank : nonBlank line = nonBlank line'
  indentation : Text.nonBlank line ≠ [] → indentation line = indentation line'

namespace SameFront

theorem refl (line : List Char) : SameFront line line := ⟨rfl, fun _ => rfl⟩

theorem cons (c : Char) (h : SameFront line line') : SameFront (c :: line) (c :: line') where
  nonBlank := by rw [← List.singleton_append, nonBlank_append, h.nonBlank, ← nonBlank_append, List.singleton_append]
  indentation hcode := by
    by_cases hc : Class.spaceTab c = true
    · have hline : Text.nonBlank line ≠ [] := by simpa [Text.nonBlank, Class.isBlank_of_spaceTab hc] using hcode
      rw [Minifier.indentation, List.takeWhile_cons_of_pos hc, Minifier.indentation, List.takeWhile_cons_of_pos hc]
      exact congrArg _ (h.indentation hline)
    · rw [indentation_cons_of_neg (Bool.eq_false_iff.mpr hc), indentation_cons_of_neg (Bool.eq_false_iff.mpr hc)]

/-- A line without code is like any other one. -/
theorem of_blank (h : ∀ c ∈ line, isBlank c = true) (h' : SameFront [] line') : SameFront line line' where
  nonBlank := (nonBlank_eq_nil_iff.mpr h).trans h'.nonBlank
  indentation hcode := absurd (nonBlank_eq_nil_iff.mpr h) hcode

end SameFront

/-- Two texts have as many lines as each other, and these are alike one by one. -/
def LikeLines (old new : List Char) : Prop := List.Forall₂ SameFront (cutLines old) (cutLines new)

namespace LikeLines

theorem refl (text : List Char) : LikeLines text text := List.forall₂_same.mpr fun line _ => .refl line

/-- The first lines may begin differently as long as they stay alike. -/
theorem of_front (h : LikeLines old new) (hline : '\n' ∉ line) (hline' : '\n' ∉ line')
    (hfront : ∀ {first first'}, SameFront first first' → SameFront (line ++ first) (line' ++ first')) :
    LikeLines (line ++ old) (line' ++ new) := by
  obtain ⟨first, more, hold, happend⟩ := exists_cutLines_append old
  obtain ⟨first', more', hnew, happend'⟩ := exists_cutLines_append new
  rw [LikeLines, hold, hnew, List.forall₂_cons] at h
  rw [LikeLines, happend line hline, happend' line' hline', List.forall₂_cons]
  exact ⟨hfront h.1, h.2⟩

theorem append (kept : List Char) (h : LikeLines old new) : LikeLines (kept ++ old) (kept ++ new) := by
  induction kept with
  | nil => exact h
  | cons c kept ih =>
    by_cases hc : c = '\n'
    · subst hc
      have hbreak (text : List Char) : cutLines ('\n' :: text) = [] :: cutLines text := cutLines_append_break [] text
      rw [List.cons_append, List.cons_append, LikeLines, hbreak, hbreak, List.forall₂_cons]
      exact ⟨.refl [], ih⟩
    · have hnot : '\n' ∉ [c] := by simpa using Ne.symm hc
      exact ih.of_front hnot hnot (SameFront.cons c)

/-- At the end of a line all blanks may go. -/
theorem of_endsLine (h : LikeLines old new) (hends : EndsLine old) (hline : '\n' ∉ line)
    (hblank : ∀ c ∈ line, isBlank c = true) : LikeLines (line ++ old) new := by
  have hfirst : ∃ more, cutLines old = [] :: more := by
    rcases hends with rfl | hhead
    · exact ⟨[], rfl⟩
    · obtain ⟨rest, rfl⟩ := List.head?_eq_some_iff.mp hhead
      exact ⟨cutLines rest, cutLines_append_break [] rest⟩
  obtain ⟨first, more, hold, happend⟩ := exists_cutLines_append old
  obtain ⟨more', hnil⟩ := hfirst
  obtain ⟨rfl, rfl⟩ := List.cons.inj (hold.symm.trans hnil)
  obtain ⟨first', more', hnew, -⟩ := exists_cutLines_append new
  rw [LikeLines, hold, hnew, List.forall₂_cons] at h
  rw [LikeLines, happend line hline, hnew, List.append_nil, List.forall₂_cons]
  exact ⟨.of_blank hblank h.1, h.2⟩

theorem forall₂ (h : LikeLines old new) : List.Forall₂
    (fun line line' => nonBlank line = nonBlank line' ∧ indentation line = indentation line')
    (nonBlankLines old) (nonBlankLines new) := by
  rw [LikeLines] at h
  rw [nonBlankLines, nonBlankLines]
  generalize cutLines old = lines, cutLines new = lines' at h ⊢
  induction h with
  | nil => exact .nil
  | @cons line line' _ _ hline _ ih =>
    by_cases hcode : nonBlank line = []
    · rw [List.filter_cons_of_neg (by simpa using hcode),
        List.filter_cons_of_neg (by simpa [← hline.nonBlank] using hcode)]
      exact ih
    · rw [List.filter_cons_of_pos (by simpa using hcode),
        List.filter_cons_of_pos (by simpa [← hline.nonBlank] using hcode)]
      exact .cons ⟨hline.nonBlank, hline.indentation hcode⟩ ih

theorem codeLines_eq (h : LikeLines old new) : codeLines new = codeLines old :=
  (codeLines_eq_iff.mpr (h.forall₂.imp fun _ _ hline => hline.1)).symm

theorem indents_eq (h : LikeLines old new) : indents new = indents old := by
  rw [indents, indents, eq_comm, ← List.forall₂_eq_eq_eq, List.forall₂_map_left_iff, List.forall₂_map_right_iff]
  exact h.forall₂.imp fun _ _ hline => hline.2

end LikeLines

/-- Swaps that leave lines alike, whatever becomes of the text behind, make an edit that does. -/
theorem Edits.likeLines {σ : Type} {state final : σ}
    (h : Edits (fun _ old new rest _ => ∀ out, LikeLines rest out → LikeLines (old ++ rest) (new ++ out))
      state text out final) : LikeLines text out := by
  induction h with
  | keep kept => exact .refl kept
  | swap kept hswap _ ih => exact (hswap _ ih).append kept

/-- So does a rule that runs once, if its swaps do. -/
theorem Rule.likeLines_apply {rule : Rule} (hpasses : rule.passes = 1)
    (h : ∀ {index prev found rest}, rule.pattern.matchAt index prev (found.text ++ rest) = some found →
      ∀ out, LikeLines rest out → LikeLines (found.text ++ rest) (rule.replace found ++ out)) (text : List Char) :
    LikeLines text (rule.apply text) := by
  rw [apply_eq_once hpasses]
  refine ((edits_replaceAll rule.pattern rule.replace text).mono ?_).likeLines
  rintro _ old new rest _ ⟨index, prev, found, hfound, rfl, rfl⟩
  exact h hfound

namespace Spacing

theorem likeLines_trailingSpace (text : List Char) : LikeLines text (trailingSpace.apply text) := by
  refine Rule.likeLines_apply rfl (fun hfound out hout => ?_) text
  obtain ⟨rest, parts, hrest, htakes, -⟩ := Match.exists_takes hfound
  obtain rfl := List.append_cancel_left hrest
  have hmem := mem_of_takes_lineTail htakes
  obtain ⟨_, _, _, _, -, ⟨hends, -⟩, -⟩ := htakes
  refine hout.of_endsLine (Anchor.holdsBetween_lineEnd.mp hends) (fun hbreak => ?_) fun c hc => ?_
  · exact (withinLine_tailBlank '\n' (hmem '\n' hbreak)).2 rfl
  · exact (withinLine_tailBlank c (hmem c hc)).1

/-- Something else than a space or tab comes before the blanks, and stays before the one that is left. -/
theorem exists_of_matchAt_innerSpaces {index : Nat} {prev : Option Char} {found : Match}
    (h : innerSpaces.pattern.matchAt index prev (found.text ++ rest) = some found) :
    ∃ c blanks, found.text = c :: blanks ∧ innerSpaces.replace found = [c, ' '] ∧ Class.spaceTab c = false ∧
      c ≠ '\n' ∧ ∀ d ∈ blanks, Class.spaceTab d = true := by
  obtain ⟨behind, parts, -, htakes, hlabels⟩ := Match.exists_takes h
  obtain ⟨c, d, e, more, htext, rfl, hwide, hblanks⟩ := exists_of_takes_innerSpaces htakes
  obtain ⟨⟨hc, hbreak⟩, -⟩ := wideGap_iff.mp hwide
  have hpart : found.part 1 = [c] := found.part_eq_getD hlabels 1
  have hreplace : innerSpaces.replace found = [c, ' '] := congrArg (· ++ [' ']) hpart
  exact ⟨c, d :: e :: more, htext, hreplace, hc, hbreak, hblanks⟩

theorem likeLines_innerSpaces (text : List Char) : LikeLines text (innerSpaces.apply text) := by
  refine Rule.likeLines_apply rfl (fun hfound out hout => ?_) text
  obtain ⟨c, blanks, htext, hreplace, hc, hbreak, hblanks⟩ := exists_of_matchAt_innerSpaces hfound
  have hline : '\n' ∉ c :: blanks :=
    List.not_mem_cons_of_ne_of_not_mem (Ne.symm hbreak) fun hmem => (withinLine_spaceTab '\n' (hblanks _ hmem)).2 rfl
  have hnone : nonBlank blanks = [] := nonBlank_eq_nil_iff.mpr fun d hd => Class.isBlank_of_spaceTab (hblanks d hd)
  have hcode : nonBlank (c :: blanks) = nonBlank [c, ' '] := by
    rw [← List.singleton_append, nonBlank_append, hnone, ← List.singleton_append (l := [' ']), nonBlank_append]
    rfl
  rw [htext, hreplace]
  refine hout.of_front hline (by simpa using Ne.symm hbreak) fun hfirst => ⟨?_, fun _ => ?_⟩
  · rw [nonBlank_append, nonBlank_append, hcode, hfirst.nonBlank]
  · rw [List.cons_append, List.cons_append, indentation_cons_of_neg hc, indentation_cons_of_neg hc]

/-! ### Trimming -/

private theorem indents_append_break (first second : List Char) :
    indents (first ++ '\n' :: second) = indents first ++ indents second := by
  rw [indents, nonBlankLines_append_break, List.map_append, indents, indents]

private theorem tail_indents_cons (hc : isBlank c = true) (text : List Char) :
    (indents (c :: text)).tail = (indents text).tail := by
  by_cases hbreak : c = '\n'
  · rw [hbreak]
    exact congrArg List.tail (indents_append_break [] text)
  · obtain ⟨first, more, hlines, happend⟩ := exists_cutLines_append text
    have hsame : nonBlank (c :: first) = nonBlank first := by simp [nonBlank, hc]
    have hcons : cutLines (c :: text) = (c :: first) :: more := happend [c] (by simpa using Ne.symm hbreak)
    rw [indents, indents, nonBlankLines, hcons, nonBlankLines, hlines, List.filter_cons, List.filter_cons, hsame]
    split
    · rfl
    · rfl

private theorem indents_concat (hc : isBlank c = true) (text : List Char) : indents (text ++ [c]) = indents text := by
  by_cases hbreak : c = '\n'
  · rw [hbreak, indents_append_break]
    exact List.append_nil _
  · have hline : cutLines [c] = [[c]] := cutLines_of_not_mem (by simpa using Ne.symm hbreak)
    have hlast : LikeLines [] [c] := by
      rw [LikeLines, hline]
      exact .cons ⟨by simp [nonBlank, hc], fun hcode => absurd rfl hcode⟩ .nil
    have hlike := hlast.append text
    rw [List.append_nil] at hlike
    exact hlike.indents_eq

/-- Only the first line with code on it may lose its indentation. -/
theorem tail_indents_trimEnds (text : List Char) : (indents (trimEnds.apply text)).tail = (indents text).tail := by
  rw [trimEnds_apply]
  obtain ⟨before, behind, hbefore, hbehind, htext⟩ := padded_trim text
  generalize trim text = core at htext ⊢
  subst htext
  have hend : indents (core ++ behind) = indents core := by
    induction behind generalizing core with
    | nil => rw [List.append_nil]
    | cons c behind ih =>
      rw [List.forall_mem_cons] at hbehind
      rw [List.append_cons, ih hbehind.2, indents_concat hbehind.1]
  rw [← hend]
  induction before with
  | nil => rfl
  | cons c before ih =>
    rw [List.forall_mem_cons] at hbefore
    rw [List.cons_append, tail_indents_cons hbefore.1, ih hbefore.2]

end Spacing

end Minifier
