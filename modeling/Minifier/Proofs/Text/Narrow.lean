import Mathlib.Data.List.Forall2
import Minifier.Proofs.Text.Basic

/-!
Two ways in which one text may be what is left of another: some characters of a class were dropped, or
characters were dropped and others gave way to characters that take no more bytes, blank for blank. The first
is kept by edits that look at the characters of the class only, the second by trimming. An edit that drops other
characters than line feeds leaves as many lines as there were.
-/

namespace Minifier

/-- The second text is the first one without some characters of a class. -/
inductive Drops (accepts : Char → Bool) : List Char → List Char → Prop where
  | nil : Drops accepts [] []
  | drop {c : Char} {old new : List Char} : accepts c = true → Drops accepts old new →
      Drops accepts (c :: old) new
  | keep {old new : List Char} (c : Char) : Drops accepts old new → Drops accepts (c :: old) (c :: new)

namespace Drops

variable {accepts wider : Char → Bool} {first second third old new old' new' : List Char} {c : Char}

theorem refl (text : List Char) : Drops accepts text text := by
  induction text with
  | nil => exact .nil
  | cons c text ih => exact .keep c ih

theorem trans (h : Drops accepts first second) (h' : Drops accepts second third) : Drops accepts first third := by
  induction h generalizing third with
  | nil => exact h'
  | drop hc _ ih => exact .drop hc (ih h')
  | keep c _ ih =>
    cases h' with
    | drop hc hrest => exact .drop hc (ih hrest)
    | keep _ hrest => exact .keep c (ih hrest)

theorem append (h : Drops accepts old new) (h' : Drops accepts old' new') :
    Drops accepts (old ++ old') (new ++ new') := by
  induction h with
  | nil => exact h'
  | drop hc _ ih => exact .drop hc ih
  | keep c _ ih => exact .keep c ih

/-- Characters of the class may all go. -/
theorem of_forall (h : ∀ c ∈ old, accepts c = true) : Drops accepts old [] := by
  induction old with
  | nil => exact .nil
  | cons c old ih =>
    rw [List.forall_mem_cons] at h
    exact .drop h.1 (ih h.2)

theorem reverse (h : Drops accepts old new) : Drops accepts old.reverse new.reverse := by
  induction h with
  | nil => exact .nil
  | drop hc _ ih =>
    have hlast := ih.append (.drop hc .nil)
    rwa [List.append_nil, ← List.reverse_cons] at hlast
  | keep c _ ih =>
    rw [List.reverse_cons, List.reverse_cons]
    exact ih.append (.keep c .nil)

theorem sublist (h : Drops accepts old new) : new.Sublist old := by
  induction h with
  | nil => exact .refl _
  | drop _ _ ih => exact ih.cons _
  | keep c _ ih => exact ih.cons_cons c

theorem eq_of_forall_not (h : Drops accepts old new) (hnot : ∀ c ∈ old, accepts c = false) : new = old := by
  induction h with
  | nil => rfl
  | drop hc _ _ =>
    rw [hnot _ List.mem_cons_self] at hc
    cases hc
  | keep c _ ih => rw [ih (List.forall_mem_cons.mp hnot).2]

/-- Dropping the characters of a wider class from the front leaves this as it is. -/
theorem dropWhile (h : Drops accepts old new) (hwider : ∀ c, accepts c = true → wider c = true) :
    Drops accepts (old.dropWhile wider) (new.dropWhile wider) := by
  induction h with
  | nil => exact .nil
  | drop hc _ ih =>
    rw [List.dropWhile_cons_of_pos (hwider _ hc)]
    exact ih
  | keep c hrest ih =>
    by_cases hc : wider c = true
    · rw [List.dropWhile_cons_of_pos hc, List.dropWhile_cons_of_pos hc]
      exact ih
    · rw [List.dropWhile_cons_of_neg hc, List.dropWhile_cons_of_neg hc]
      exact .keep c hrest

theorem dropTail (h : Drops accepts old new) (hwider : ∀ c, accepts c = true → wider c = true) :
    Drops accepts (Text.dropTail wider old) (Text.dropTail wider new) :=
  (h.reverse.dropWhile hwider).reverse

end Drops

/-- Swaps that drop characters of a class make an edit that does. -/
theorem Edits.drops {σ : Type} {accepts : Char → Bool} {state final : σ} {text out : List Char}
    (h : Edits (fun _ old new _ _ => Drops accepts old new) state text out final) : Drops accepts text out := by
  induction h with
  | keep kept => exact .refl kept
  | swap kept hswap _ ih => exact (Drops.refl kept).append (hswap.append ih)

/-! ### Narrower texts -/

/-- A character takes no more bytes than another one, and both are blank or none is. -/
structure NoWider (new old : Char) : Prop where
  isBlank : Text.isBlank new = Text.isBlank old
  size : new.utf8Size ≤ old.utf8Size

instance : Std.Refl NoWider := ⟨fun _ => ⟨rfl, Nat.le_refl _⟩⟩

instance : IsTrans Char NoWider :=
  ⟨fun _ _ _ h h' => ⟨h.isBlank.trans h'.isBlank, h.size.trans h'.size⟩⟩

/-- Some characters of the first text are gone, and in the place of any other stands one that is no wider. -/
def Narrows (old new : List Char) : Prop := List.SublistForall₂ NoWider new old

namespace Narrows

variable {first second third old new old' new' : List Char}

theorem of_sublist (h : new.Sublist old) : Narrows old new := h.sublistForall₂

theorem refl (text : List Char) : Narrows text text := of_sublist (.refl text)

theorem trans (h : Narrows first second) (h' : Narrows second third) : Narrows first third :=
  (inferInstance : IsTrans (List Char) (List.SublistForall₂ NoWider)).trans _ _ _ h' h

theorem append (h : Narrows old new) (h' : Narrows old' new') : Narrows (old ++ old') (new ++ new') := by
  obtain ⟨kept, hnew, hkept⟩ := List.sublistForall₂_iff.mp h
  obtain ⟨kept', hnew', hkept'⟩ := List.sublistForall₂_iff.mp h'
  exact List.sublistForall₂_iff.mpr ⟨kept ++ kept', List.rel_append hnew hnew', hkept.append hkept'⟩

theorem reverse (h : Narrows old new) : Narrows old.reverse new.reverse := by
  obtain ⟨kept, hnew, hkept⟩ := List.sublistForall₂_iff.mp h
  exact List.sublistForall₂_iff.mpr ⟨kept.reverse, List.forall₂_reverse_iff.mpr hnew, hkept.reverse⟩

theorem byteSize_le (h : Narrows old new) : Text.byteSize new ≤ Text.byteSize old := by
  induction h with
  | nil => exact Nat.zero_le _
  | cons hc _ ih =>
    rw [Text.byteSize_cons, Text.byteSize_cons]
    exact Nat.add_le_add hc.size ih
  | cons_right _ ih =>
    rw [Text.byteSize_cons]
    omega

/-- Characters of one byte each are no wider than any others. -/
theorem of_length_le (hlength : new.length ≤ old.length) (hold : ∀ c ∈ old, Text.isBlank c = false)
    (hnew : ∀ c ∈ new, Text.isBlank c = false ∧ c.utf8Size = 1) : Narrows old new := by
  induction new generalizing old with
  | nil => exact .nil
  | cons d new ih =>
    cases old with
    | nil => cases hlength
    | cons c old =>
      rw [List.forall_mem_cons] at hold hnew
      have hsize : d.utf8Size ≤ c.utf8Size := hnew.1.2 ▸ c.utf8Size_pos
      exact .cons ⟨hnew.1.1.trans hold.1.symm, hsize⟩ (ih (Nat.le_of_succ_le_succ hlength) hold.2 hnew.2)

theorem dropWhile_isBlank (h : Narrows old new) :
    Narrows (old.dropWhile Text.isBlank) (new.dropWhile Text.isBlank) := by
  induction h with
  | nil => exact .nil
  | @cons new old _ _ hc hrest ih =>
    by_cases hold : Text.isBlank old = true
    · rw [List.dropWhile_cons_of_pos hold, List.dropWhile_cons_of_pos (hc.isBlank.trans hold)]
      exact ih
    · have hnew : ¬ Text.isBlank new = true := by rwa [hc.isBlank]
      rw [List.dropWhile_cons_of_neg hold, List.dropWhile_cons_of_neg hnew]
      exact .cons hc hrest
  | @cons_right old _ _ hrest ih =>
    by_cases hold : Text.isBlank old = true
    · rw [List.dropWhile_cons_of_pos hold]
      exact ih
    · rw [List.dropWhile_cons_of_neg hold]
      exact .trans (.cons_right hrest) (.of_sublist (List.dropWhile_sublist _))

/-- Blanks that go from the ends of a text go from what is left of it as well. -/
theorem trim (h : Narrows old new) : Narrows (Text.trim old) (Text.trim new) :=
  h.dropWhile_isBlank.reverse.dropWhile_isBlank.reverse

end Narrows

/-- Swaps that narrow make an edit that does. -/
theorem Edits.narrows {σ : Type} {state final : σ} {text out : List Char}
    (h : Edits (fun _ old new _ _ => Narrows old new) state text out final) : Narrows text out := by
  induction h with
  | keep kept => exact .refl kept
  | swap kept hswap _ ih => exact (Narrows.refl kept).append (hswap.append ih)

/-! ### Lines -/

namespace Text

/-- Lines, each with a line feed behind it, and the last one without. -/
def joinLines (ended : List (List Char)) (last : List Char) : List Char :=
  ended.foldr (fun line rest => line ++ '\n' :: rest) last

variable {ended : List (List Char)} {line last : List Char}

@[simp] theorem joinLines_nil : joinLines [] last = last := rfl

@[simp] theorem joinLines_cons : joinLines (line :: ended) last = line ++ '\n' :: joinLines ended last := rfl

/-- No line holds a line feed. -/
def AreLines (ended : List (List Char)) (last : List Char) : Prop :=
  (∀ line ∈ ended, '\n' ∉ line) ∧ '\n' ∉ last

theorem areLines_cons : AreLines (line :: ended) last ↔ '\n' ∉ line ∧ AreLines ended last := by
  rw [AreLines, AreLines, List.forall_mem_cons, and_assoc]

/-- A line ends at the first line feed. -/
theorem eq_of_append_break {line' rest rest' : List Char} (hline : '\n' ∉ line) (hline' : '\n' ∉ line')
    (h : line ++ '\n' :: rest = line' ++ '\n' :: rest') : line = line' ∧ rest = rest' := by
  induction line generalizing line' with
  | nil =>
    cases line' with
    | nil => exact ⟨rfl, (List.cons.inj h).2⟩
    | cons c line' =>
      obtain ⟨rfl, -⟩ := List.cons.inj h
      exact absurd List.mem_cons_self hline'
  | cons c line ih =>
    cases line' with
    | nil =>
      obtain ⟨rfl, -⟩ := List.cons.inj h
      exact absurd List.mem_cons_self hline
    | cons d line' =>
      obtain ⟨rfl, hrest⟩ := List.cons.inj h
      obtain ⟨rfl, rfl⟩ := ih (mt (List.mem_cons_of_mem _) hline) (mt (List.mem_cons_of_mem _) hline') hrest
      exact ⟨rfl, rfl⟩

theorem exists_joinLines (text : List Char) : ∃ ended last, text = joinLines ended last ∧ AreLines ended last := by
  induction text with
  | nil => exact ⟨[], [], rfl, by simp, by simp⟩
  | cons c text ih =>
    obtain ⟨ended, last, rfl, hlines⟩ := ih
    by_cases hc : c = '\n'
    · subst hc
      exact ⟨[] :: ended, last, rfl, areLines_cons.mpr ⟨List.not_mem_nil, hlines⟩⟩
    · have hcons {line : List Char} (hline : '\n' ∉ line) : '\n' ∉ c :: line :=
        List.not_mem_cons_of_ne_of_not_mem (Ne.symm hc) hline
      cases ended with
      | nil => exact ⟨[], c :: last, rfl, by simp, hcons hlines.2⟩
      | cons line ended =>
        rw [areLines_cons] at hlines
        exact ⟨(c :: line) :: ended, last, rfl, areLines_cons.mpr ⟨hcons hlines.1, hlines.2⟩⟩

end Text

namespace Drops

open Text

variable {accepts : Char → Bool} {old old' new last : List Char} {c : Char} {ended : List (List Char)}

theorem exists_of_append (h : Drops accepts (old ++ old') new) :
    ∃ first second, new = first ++ second ∧ Drops accepts old first ∧ Drops accepts old' second := by
  induction old generalizing new with
  | nil => exact ⟨[], new, rfl, .nil, h⟩
  | cons c old ih =>
    cases h with
    | drop hc hrest =>
      obtain ⟨first, second, rfl, hfirst, hsecond⟩ := ih hrest
      exact ⟨first, second, rfl, .drop hc hfirst, hsecond⟩
    | keep _ hrest =>
      obtain ⟨first, second, rfl, hfirst, hsecond⟩ := ih hrest
      exact ⟨c :: first, second, rfl, .keep c hfirst, hsecond⟩

theorem exists_of_cons (hc : accepts c = false) (h : Drops accepts (c :: old) new) :
    ∃ rest, new = c :: rest ∧ Drops accepts old rest := by
  cases h with
  | drop haccepts _ =>
    rw [hc] at haccepts
    cases haccepts
  | keep _ hrest => exact ⟨_, rfl, hrest⟩

/-- Line feeds that stay keep what is left of each line apart. -/
theorem exists_joinLines (hbreak : accepts '\n' = false) (h : Drops accepts (joinLines ended last) new) :
    ∃ ended' last', new = joinLines ended' last' ∧ List.Forall₂ (Drops accepts) ended ended' ∧
      Drops accepts last last' := by
  induction ended generalizing new with
  | nil => exact ⟨[], new, rfl, .nil, h⟩
  | cons line ended ih =>
    obtain ⟨line', _, rfl, hline, hbehind⟩ := exists_of_append h
    obtain ⟨rest, rfl, hrest⟩ := exists_of_cons hbreak hbehind
    obtain ⟨ended', last', rfl, hended, hlast⟩ := ih hrest
    exact ⟨line' :: ended', last', rfl, .cons hline hended, hlast⟩

theorem joinLines {ended' : List (List Char)} {last' : List Char} (h : List.Forall₂ (Drops accepts) ended ended')
    (hlast : Drops accepts last last') : Drops accepts (joinLines ended last) (Text.joinLines ended' last') := by
  induction h with
  | nil => exact hlast
  | cons hline _ ih => exact hline.append (.keep '\n' ih)

theorem areLines {ended' : List (List Char)} {last' : List Char} (h : List.Forall₂ (Drops accepts) ended ended')
    (hlast : Drops accepts last last') (hlines : AreLines ended last) : AreLines ended' last' := by
  refine ⟨?_, fun hmem => hlines.2 (hlast.sublist.subset hmem)⟩
  have hended := hlines.1
  clear hlines
  induction h with
  | nil => simp
  | cons hline _ ih =>
    rw [List.forall_mem_cons] at hended ⊢
    exact ⟨fun hmem => hended.1 (hline.sublist.subset hmem), ih hended.2⟩

end Drops

end Minifier
