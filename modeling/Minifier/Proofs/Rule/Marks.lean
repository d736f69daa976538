import Minifier.Proofs.Pattern.Taken
import Minifier.Proofs.Rule.Cuts

/-!
Rules that drop blanks around marks. Such a rule takes a mark with all blanks on both sides, so after it no blank
stands next to a mark, and everything else is as it was.
-/

namespace Minifier

open Pattern

/-- What is left of a text where blanks next to marks go. Blanks that have been read are held until it is known what
stands behind them; behind a mark none are held. -/
def tighten (accepts : Char → Bool) (marks : List Char) : (afterMark : Bool) → (held : List Char) →
    List Char → List Char
  | _, held, [] => held
  | afterMark, held, c :: rest =>
    if accepts c then tighten accepts marks afterMark (if afterMark then [] else held ++ [c]) rest
    else if marks.contains c then c :: tighten accepts marks true [] rest
    else held ++ c :: tighten accepts marks false [] rest

/-- What is left of a match: the marks. -/
def marksOf (marks taken : List Char) : List Char := taken.filter marks.contains

/-- A rule that keeps a mark and drops the blanks around it. -/
def Rule.aroundMarks (name : String) (accepts : Char → Bool) (marks : List Char) : Rule :=
  .keepPart name (run accepts ++ part 1 (oneOf marks) ++ run accepts)

section Marks

variable {name : String} {accepts : Char → Bool} {marks : List Char} {c : Char} {held rest : List Char}
  {prev : Option Char}

theorem tighten_blank (hc : accepts c = true) :
    tighten accepts marks false held (c :: rest) = tighten accepts marks false (held ++ [c]) rest := by
  rw [tighten, if_pos hc]
  rfl

theorem tighten_blank_after (hc : accepts c = true) :
    tighten accepts marks true [] (c :: rest) = tighten accepts marks true [] rest := by
  rw [tighten, if_pos hc]
  rfl

theorem tighten_mark {afterMark : Bool} (hc : accepts c = false) (hmark : c ∈ marks) :
    tighten accepts marks afterMark held (c :: rest) = c :: tighten accepts marks true [] rest := by
  rw [tighten, if_neg (Bool.eq_false_iff.mp hc), if_pos (List.contains_iff_mem.mpr hmark)]

theorem tighten_other {afterMark : Bool} (hc : accepts c = false) (hmark : c ∉ marks) :
    tighten accepts marks afterMark held (c :: rest) = held ++ c :: tighten accepts marks false [] rest := by
  rw [tighten, if_neg (Bool.eq_false_iff.mp hc), if_neg (mt List.contains_iff_mem.mp hmark)]

/-- A text begins with a blank that may go, with a mark or with something else, if it is not empty. -/
theorem tighten_induction {motive : List Char → Prop} (accepts : Char → Bool) (marks : List Char) (nil : motive [])
    (blank : ∀ c rest, accepts c = true → motive rest → motive (c :: rest))
    (mark : ∀ c rest, accepts c = false → c ∈ marks → motive rest → motive (c :: rest))
    (other : ∀ c rest, accepts c = false → c ∉ marks → motive rest → motive (c :: rest)) (text : List Char) :
    motive text := by
  induction text with
  | nil => exact nil
  | cons c rest ih =>
    cases hc : accepts c with
    | true => exact blank c rest hc ih
    | false =>
      by_cases hmark : c ∈ marks
      · exact mark c rest hc hmark ih
      · exact other c rest hc hmark ih

variable (hdisjoint : ∀ c ∈ marks, accepts c = false)

include hdisjoint

theorem not_mem_marks (hc : accepts c = true) : marks.contains c = false := by
  rw [Bool.eq_false_iff, ne_eq, List.contains_iff_mem]
  intro hmem
  rw [hdisjoint c hmem] at hc
  cases hc

theorem taken?_aroundMarks (prev : Option Char) (text : List Char) :
    (Rule.aroundMarks name accepts marks).pattern.taken? prev text = around accepts marks.contains accepts text :=
  map_text_matchAt_around (fun _ hc => not_mem_marks hdisjoint hc) (fun _ _ => rfl) (fun _ _ _ => rfl)
    (fun _ _ _ => rfl) 0 prev text

theorem marksOf_eq_singleton {before after : List Char} (hbefore : ∀ d ∈ before, accepts d = true) (hc : c ∈ marks)
    (hafter : ∀ d ∈ after, accepts d = true) : marksOf marks (before ++ c :: after) = [c] := by
  have hnone : ∀ {text : List Char}, (∀ d ∈ text, accepts d = true) → text.filter marks.contains = [] := fun htext =>
    List.filter_eq_nil_iff.mpr fun d hd => Bool.eq_false_iff.mp (not_mem_marks hdisjoint (htext d hd))
  rw [marksOf, List.filter_append, hnone hbefore, List.filter_cons_of_pos (List.contains_iff_mem.mpr hc),
    hnone hafter, List.nil_append]

theorem puts_aroundMarks : (Rule.aroundMarks name accepts marks).Puts (marksOf marks) where
  exceeds := rfl
  passes := rfl
  replace := by
    intro index prev rest found hfound
    obtain ⟨behind, _, -, ⟨_, after, _, _, ⟨before, _, _, _, ⟨hbefore, rfl⟩, ⟨_, hmark, rfl⟩, rfl, rfl⟩,
      ⟨hafter, rfl⟩, htext, rfl⟩, hlabels⟩ := Match.exists_takes hfound
    obtain ⟨⟨mark, hmem, rfl⟩, rfl⟩ := (takes_oneOf marks).mp hmark
    have hpart : found.part 1 = [mark] := found.part_eq_getD hlabels 1
    rw [htext, List.append_assoc, List.singleton_append, marksOf_eq_singleton hdisjoint hbefore hmem hafter, ← hpart]
    rfl

/-- Nothing is taken from blanks with something else behind them. -/
theorem rewrites_held {new : List Char → List Char} {out : List Char} (hheld : ∀ d ∈ held, accepts d = true)
    (hc : accepts c = false) (hmark : c ∉ marks)
    (h : (Rule.aroundMarks name accepts marks).pattern.Rewrites new (some c) rest out) (prev : Option Char) :
    (Rule.aroundMarks name accepts marks).pattern.Rewrites new prev (held ++ c :: rest) (held ++ c :: out) := by
  have hnone : ∀ {held : List Char} {prev : Option Char}, (∀ d ∈ held, accepts d = true) →
      (Rule.aroundMarks name accepts marks).pattern.taken? prev (held ++ c :: rest) = none := fun hheld => by
    rw [taken?_aroundMarks hdisjoint, around_of_forall hheld hc, if_neg (mt List.contains_iff_mem.mp hmark)]
  induction held generalizing prev with
  | nil => exact .plain (hnone hheld) h
  | cons d held ih =>
    exact .plain (hnone hheld) (ih (List.forall_mem_cons.mp hheld).2 _)

theorem rewrites_aroundMarks (hheld : ∀ d ∈ held, accepts d = true) (text : List Char) :
    (∀ prev, (Rule.aroundMarks name accepts marks).pattern.Rewrites (marksOf marks) prev (held ++ text)
        (tighten accepts marks false held text)) ∧
      ∀ prev, (Rule.aroundMarks name accepts marks).pattern.Rewrites (marksOf marks) prev (text.dropWhile accepts)
        (tighten accepts marks true [] text) := by
  have hnil : ∀ d ∈ ([] : List Char), accepts d = true := List.forall_mem_nil _
  induction text using tighten_induction accepts marks generalizing held with
  | nil =>
    refine ⟨fun prev => ?_, fun prev => .nil⟩
    rw [List.append_nil, tighten]
    refine .of_forall_none fun before behind hsplit => ?_
    have hbehind : ∀ d ∈ behind, accepts d = true := fun d hd => hheld d (hsplit ▸ List.mem_append_right _ hd)
    rw [taken?_aroundMarks hdisjoint, around, List.dropWhile_eq_nil_iff.mpr hbehind]
  | blank c text hc ih =>
    have hheld' : ∀ d ∈ held ++ [c], accepts d = true :=
      List.forall_mem_append.mpr ⟨hheld, List.forall_mem_singleton.mpr hc⟩
    rw [tighten_blank hc, tighten_blank_after hc, List.dropWhile_cons_of_pos hc]
    exact ⟨by simpa using (ih hheld').1, (ih hheld).2⟩
  | mark c text hc hmark ih =>
    rw [List.dropWhile_cons_of_neg (Bool.eq_false_iff.mp hc), tighten_mark hc hmark, tighten_mark hc hmark]
    have hhit : ∀ {held : List Char} (prev : Option Char), (∀ d ∈ held, accepts d = true) →
        (Rule.aroundMarks name accepts marks).pattern.Rewrites (marksOf marks) prev (held ++ c :: text)
          (c :: tighten accepts marks true [] text) := by
      intro held prev hheld
      have htaken : (Rule.aroundMarks name accepts marks).pattern.taken? prev (held ++ c :: text) =
          some (held ++ c :: text.takeWhile accepts) := by
        rw [taken?_aroundMarks hdisjoint, around_of_forall hheld hc, if_pos (List.contains_iff_mem.mpr hmark)]
      have hafter : ∀ d ∈ text.takeWhile accepts, accepts d = true := List.all_eq_true.mp List.all_takeWhile
      have htext : held ++ c :: text = held ++ c :: text.takeWhile accepts ++ text.dropWhile accepts := by
        rw [List.append_assoc, List.cons_append, List.takeWhile_append_dropWhile]
      have hhit := Rewrites.hit htaken htext (by simp) ((ih hnil).2 _)
      rwa [marksOf_eq_singleton hdisjoint hheld hmark hafter] at hhit
    exact ⟨fun prev => hhit prev hheld, fun prev => hhit prev hnil⟩
  | other c text hc hmark ih =>
    rw [List.dropWhile_cons_of_neg (Bool.eq_false_iff.mp hc), tighten_other hc hmark, tighten_other hc hmark]
    have hrest := (ih hnil).1 (some c)
    exact ⟨rewrites_held hdisjoint hheld hc hmark hrest, rewrites_held hdisjoint hnil hc hmark hrest⟩

/-- No blank is left next to a mark. -/
theorem apply_aroundMarks {other : Char} (hother : accepts other = false) (hother' : other ∉ marks)
    (text : List Char) : (Rule.aroundMarks name accepts marks).apply text = tighten accepts marks false [] text := by
  have havoids : (Rule.aroundMarks name accepts marks).pattern.avoids other = true := by
    have hunfold : (Rule.aroundMarks name accepts marks).pattern.avoids other =
        (!accepts other && !marks.contains other && !accepts other) := rfl
    rw [hunfold, hother, Bool.eq_false_iff.mpr (mt List.contains_iff_mem.mp hother')]
    rfl
  exact ((puts_aroundMarks hdisjoint).rewrites_apply havoids text).unique
    ((rewrites_aroundMarks hdisjoint (List.forall_mem_nil _) text).1 none)

omit hdisjoint in
/-- Of a character that is no blank only one thing counts: whether it is a mark. -/
theorem tighten_cons (hc : accepts c = false) (afterMark : Bool) (rest : List Char) :
    tighten accepts marks afterMark [] (c :: rest) = c :: tighten accepts marks (marks.contains c) [] rest := by
  by_cases hmark : c ∈ marks
  · rw [tighten_mark hc hmark, List.contains_iff_mem.mpr hmark]
  · rw [tighten_other hc hmark, Bool.eq_false_iff.mpr (mt List.contains_iff_mem.mp hmark)]
    rfl

omit hdisjoint in
/-- Behind such a character the text is gone through anew. -/
theorem exists_tighten_append (marks : List Char) (hc : accepts c = false) (afterMark : Bool) (held left right : List Char) :
    ∃ before, tighten accepts marks afterMark held (left ++ [c]) = before ++ [c] ∧
      tighten accepts marks afterMark held (left ++ c :: right) =
        before ++ c :: tighten accepts marks (marks.contains c) [] right := by
  induction left generalizing afterMark held with
  | nil =>
    by_cases hmark : c ∈ marks
    · refine ⟨[], tighten_mark hc hmark, ?_⟩
      rw [List.contains_iff_mem.mpr hmark]
      exact tighten_mark hc hmark
    · refine ⟨held, tighten_other hc hmark, ?_⟩
      rw [Bool.eq_false_iff.mpr (mt List.contains_iff_mem.mp hmark)]
      exact tighten_other hc hmark
  | cons d left ih =>
    simp only [List.cons_append, tighten]
    split
    · exact ih _ _
    · split
      · obtain ⟨before, hbefore, hwhole⟩ := ih true []
        exact ⟨d :: before, by rw [hbefore, List.cons_append], by rw [hwhole, List.cons_append]⟩
      · obtain ⟨before, hbefore, hwhole⟩ := ih false []
        exact ⟨held ++ d :: before, by simp [hbefore], by simp [hwhole]⟩

/-- The rule cuts at everything that is not one of its blanks. -/
theorem cutsAt_aroundMarks {other : Char} (hother : accepts other = false) (hother' : other ∉ marks)
    (hc : accepts c = false) : CutsAt (Rule.aroundMarks name accepts marks).apply c := by
  intro left right
  obtain ⟨before, hbefore, hwhole⟩ := exists_tighten_append marks hc false [] left right
  refine ⟨before, tighten accepts marks (marks.contains c) [] right, ?_, ?_, ?_⟩
  · rw [apply_aroundMarks hdisjoint hother hother', hbefore]
  · rw [apply_aroundMarks hdisjoint hother hother', tighten_cons hc]
  · rw [apply_aroundMarks hdisjoint hother hother', hwhole]

end Marks

end Minifier
