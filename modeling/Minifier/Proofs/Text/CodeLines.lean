import Minifier.Proofs.Text.Narrow
import Minifier.Proofs.Text.Words

/-!
The lines of a text that hold more than blanks. What such lines hold apart from blanks is read off the characters
of the text that are no blanks, and its line feeds; so an edit that leaves these as they are leaves the code of every
line where it was.
-/

namespace Minifier.Text

variable {c : Char} {first second line rest last old new core blanks : List Char} {ended : List (List Char)}

/-! ### Cutting -/

/-- The lines of a text without the line feeds between them. -/
def cutLines (text : List Char) : List (List Char) := cutAt (· == '\n') text

theorem cutLines_eq_splitOn (text : List Char) : cutLines text = text.splitOn '\n' :=
  cutAt_eq_splitOnP _ text

theorem cutLines_append_break (first second : List Char) :
    cutLines (first ++ '\n' :: second) = cutLines first ++ cutLines second := by
  simp only [cutLines_eq_splitOn, List.splitOn_append_cons_self]

theorem cutLines_of_not_mem (h : '\n' ∉ line) : cutLines line = [line] := by
  rw [cutLines_eq_splitOn, List.splitOn_eq_singleton h]

theorem cutLines_joinLines (h : AreLines ended last) : cutLines (joinLines ended last) = ended ++ [last] := by
  induction ended with
  | nil => exact cutLines_of_not_mem h.2
  | cons line ended ih =>
    rw [areLines_cons] at h
    rw [joinLines_cons, cutLines_append_break, cutLines_of_not_mem h.1, ih h.2]
    rfl

/-- What stands before a text without a line feed belongs to its first line. -/
theorem exists_cutLines_append (text : List Char) : ∃ first more, cutLines text = first :: more ∧
    ∀ line, '\n' ∉ line → cutLines (line ++ text) = (line ++ first) :: more := by
  obtain ⟨first, more, hlines⟩ := List.exists_cons_of_ne_nil (List.splitOn_ne_nil '\n' text)
  rw [← cutLines_eq_splitOn] at hlines
  refine ⟨first, more, hlines, fun line hline => ?_⟩
  induction line with
  | nil => exact hlines
  | cons c line ih =>
    obtain ⟨hc, hline⟩ := not_or.mp (mt List.mem_cons.mpr hline)
    rw [List.cons_append, cutLines_eq_splitOn, List.splitOn_cons_eq_if_modifyHead, if_neg (by simpa using Ne.symm hc),
      ← cutLines_eq_splitOn, ih hline]
    rfl

theorem mem_of_mem_cutLines {text : List Char} (hline : line ∈ cutLines text) (hc : c ∈ line) :
    c ∈ text := by
  obtain ⟨ended, last, rfl, hlines⟩ := exists_joinLines text
  rw [cutLines_joinLines hlines] at hline
  clear hlines
  induction ended with
  | nil =>
    obtain rfl := List.mem_singleton.mp hline
    exact hc
  | cons first ended ih =>
    rw [joinLines_cons, List.mem_append, List.mem_cons]
    rcases List.mem_cons.mp hline with rfl | hline
    · exact .inl hc
    · exact .inr (.inr (ih hline))

theorem mem_of_mem_lines {text : List Char} (hline : line ∈ lines text) (hc : c ∈ line) :
    c ∈ text := by
  have hreturn {line : List Char} (hc : c ∈ dropReturn line) : c ∈ line := by
    rw [dropReturn] at hc
    split at hc
    · exact (List.dropLast_sublist line).subset hc
    · exact hc
  have hcut : ∃ line ∈ (cutLines text).reverse, c ∈ line := by
    rw [lines, ← cutLines] at hline
    generalize (cutLines text).reverse = pieces at hline ⊢
    cases pieces with
    | nil => exact absurd hline List.not_mem_nil
    | cons last ended =>
      have hmem : line ∈ (ended.map dropReturn).reverse ∨ line = last := by
        dsimp only at hline
        split at hline
        · exact .inl hline
        · simpa using hline
      rcases hmem with hmem | rfl
      · obtain ⟨whole, hwhole, rfl⟩ := List.mem_map.mp (List.mem_reverse.mp hmem)
        exact ⟨whole, List.mem_cons_of_mem _ hwhole, hreturn hc⟩
      · exact ⟨line, List.mem_cons_self, hc⟩
  obtain ⟨whole, hwhole, hc⟩ := hcut
  exact mem_of_mem_cutLines (List.mem_reverse.mp hwhole) hc

/-! ### Lines with code on them -/

/-- The lines of a text that hold more than blanks. -/
def nonBlankLines (text : List Char) : List (List Char) := (cutLines text).filter fun line => nonBlank line ≠ []

/-- What those lines hold apart from blanks. -/
def codeLines (text : List Char) : List (List Char) := (nonBlankLines text).map nonBlank

theorem nonBlank_append (first second : List Char) : nonBlank (first ++ second) = nonBlank first ++ nonBlank second :=
  List.filter_append _ _

theorem nonBlank_eq_nil_iff : nonBlank line = [] ↔ ∀ c ∈ line, isBlank c = true := by
  simp [nonBlank]

theorem nonBlankLines_append_break (first second : List Char) :
    nonBlankLines (first ++ '\n' :: second) = nonBlankLines first ++ nonBlankLines second := by
  rw [nonBlankLines, cutLines_append_break, List.filter_append, nonBlankLines, nonBlankLines]

theorem codeLines_append_break (first second : List Char) :
    codeLines (first ++ '\n' :: second) = codeLines first ++ codeLines second := by
  rw [codeLines, nonBlankLines_append_break, List.map_append, codeLines, codeLines]

theorem codeLines_eq (text : List Char) : codeLines text = ((cutLines text).map nonBlank).filter (· ≠ []) := by
  rw [codeLines, nonBlankLines, List.filter_map]
  rfl

theorem codeLines_eq_iff : codeLines old = codeLines new ↔
    List.Forall₂ (fun line line' => nonBlank line = nonBlank line') (nonBlankLines old) (nonBlankLines new) := by
  rw [← List.forall₂_eq_eq_eq, codeLines, codeLines, List.forall₂_map_left_iff, List.forall₂_map_right_iff]

/-- All the lines together hold what the text holds. -/
theorem flatten_codeLines (text : List Char) : (codeLines text).flatten = nonBlank text := by
  obtain ⟨ended, last, rfl, hlines⟩ := exists_joinLines text
  rw [codeLines_eq, cutLines_joinLines hlines, List.flatten_filter_ne_nil]
  clear hlines
  induction ended with
  | nil => simp
  | cons line ended ih =>
    rw [joinLines_cons, nonBlank_append, List.cons_append, List.map_cons, List.flatten_cons, ih]
    rfl

theorem joinLines_append (upper : List (List Char)) (line : List Char) (lower : List (List Char)) (last : List Char) :
    joinLines (upper ++ line :: lower) last = joinLines upper line ++ '\n' :: joinLines lower last := by
  induction upper with
  | nil => rfl
  | cons first upper ih => simp [ih]

theorem areLines_append {upper lower : List (List Char)} :
    AreLines (upper ++ line :: lower) last ↔ AreLines upper line ∧ AreLines lower last := by
  simp only [AreLines, List.forall_mem_append, List.forall_mem_cons]
  tauto

/-- Where the code of a text is cut between two of its lines, the text has a line feed there. -/
theorem exists_of_codeLines_eq_append {text : List Char} {before behind : List (List Char)}
    (h : codeLines text = before ++ behind) (hbefore : before ≠ []) (hbehind : behind ≠ []) :
    ∃ first second, text = first ++ '\n' :: second ∧ codeLines first = before ∧ codeLines second = behind := by
  obtain ⟨ended, last, rfl, hlines⟩ := exists_joinLines text
  rw [codeLines_eq, cutLines_joinLines hlines, List.filter_eq_append_iff] at h
  obtain ⟨codes, codes', hcodes, rfl, rfl⟩ := h
  obtain ⟨upper, lower, hlower, rfl, rfl⟩ := List.map_eq_append_iff.mp hcodes
  obtain ⟨upper, middle, rfl⟩ := (List.eq_nil_or_concat' upper).resolve_left (by rintro rfl; exact hbefore rfl)
  obtain ⟨lower, bottom, rfl⟩ := (List.eq_nil_or_concat' lower).resolve_left (by rintro rfl; exact hbehind rfl)
  rw [← List.append_assoc, List.append_assoc upper, List.singleton_append] at hlower
  obtain ⟨rfl, hlast⟩ := List.append_inj' hlower rfl
  obtain rfl := (List.cons.inj hlast).1
  obtain ⟨hupper, hlower⟩ := areLines_append.mp hlines
  refine ⟨joinLines upper middle, joinLines lower last, joinLines_append _ _ _ _, ?_, ?_⟩
  · rw [codeLines_eq, cutLines_joinLines hupper]
  · rw [codeLines_eq, cutLines_joinLines hlower]

/-! ### Skeletons -/

/-- The characters of a text that are no blanks, and its line feeds. -/
def skeleton (text : List Char) : List Char := text.filter fun c => !isBlank c || c == '\n'

theorem skeleton_append (first second : List Char) : skeleton (first ++ second) = skeleton first ++ skeleton second :=
  List.filter_append _ _

theorem skeleton_of_not_mem (h : '\n' ∉ line) : skeleton line = nonBlank line := by
  refine List.filter_congr fun c hc => ?_
  have hne : c ≠ '\n' := fun heq => h (heq ▸ hc)
  simp [hne]

theorem skeleton_joinLines (h : AreLines ended last) :
    skeleton (joinLines ended last) = joinLines (ended.map nonBlank) (nonBlank last) := by
  induction ended with
  | nil => exact skeleton_of_not_mem h.2
  | cons line ended ih =>
    rw [areLines_cons] at h
    have hbreak : skeleton ('\n' :: joinLines ended last) = '\n' :: skeleton (joinLines ended last) := rfl
    rw [joinLines_cons, skeleton_append, skeleton_of_not_mem h.1, hbreak, ih h.2]
    rfl

theorem codeLines_skeleton (text : List Char) : codeLines (skeleton text) = codeLines text := by
  obtain ⟨ended, last, rfl, hlines⟩ := exists_joinLines text
  have hnot {line : List Char} (h : '\n' ∉ line) : '\n' ∉ nonBlank line := fun hmem => h (List.mem_of_mem_filter hmem)
  have hcode : AreLines (ended.map nonBlank) (nonBlank last) :=
    ⟨List.forall_mem_map.mpr fun line hline => hnot (hlines.1 line hline), hnot hlines.2⟩
  have htwice : nonBlank ∘ nonBlank = nonBlank := by
    funext line
    simp [nonBlank]
  rw [skeleton_joinLines hlines, codeLines_eq, cutLines_joinLines hcode, codeLines_eq, cutLines_joinLines hlines,
    ← List.map_singleton, ← List.map_append, List.map_map, htwice]

theorem codeLines_eq_of_skeleton (h : skeleton old = skeleton new) : codeLines old = codeLines new := by
  rw [← codeLines_skeleton old, h, codeLines_skeleton]

/-! ### Blanks at both ends -/

theorem codeLines_nil : codeLines [] = [] := rfl

private theorem codeLines_cons_of_blank (hc : isBlank c = true) (text : List Char) :
    codeLines (c :: text) = codeLines text := by
  by_cases hbreak : c = '\n'
  · rw [hbreak]
    exact codeLines_append_break [] text
  · refine codeLines_eq_of_skeleton ?_
    simp [skeleton, hc, hbreak]

private theorem codeLines_concat_of_blank (hc : isBlank c = true) (text : List Char) :
    codeLines (text ++ [c]) = codeLines text := by
  by_cases hbreak : c = '\n'
  · rw [hbreak, codeLines_append_break, codeLines_nil, List.append_nil]
  · refine codeLines_eq_of_skeleton ?_
    simp [skeleton, hc, hbreak]

theorem codeLines_eq_of_padded (h : Padded core old) : codeLines old = codeLines core := by
  obtain ⟨before, behind, hbefore, hbehind, rfl⟩ := h
  have hbehind : codeLines (core ++ behind) = codeLines core := by
    induction behind generalizing core with
    | nil => rw [List.append_nil]
    | cons c behind ih =>
      rw [List.forall_mem_cons] at hbehind
      rw [List.append_cons, ih hbehind.2, codeLines_concat_of_blank hbehind.1]
  rw [← hbehind]
  clear hbehind
  induction before with
  | nil => rfl
  | cons c before ih =>
    rw [List.forall_mem_cons] at hbefore
    rw [List.cons_append, codeLines_cons_of_blank hbefore.1, ih hbefore.2]

end Minifier.Text
