import Mathlib.Data.List.Nodup
import Mathlib.Data.Nat.Init
import Mathlib.Order.Nat

/-!
Entries that are looked up under keys, and entries that are in the order of time.
-/

namespace Minifier.Entries

/-! ### Keys -/

theorem nodup_eraseDups {α : Type} [BEq α] [LawfulBEq α] (entries : List α) : entries.eraseDups.Nodup := by
  induction hlength : entries.length using Nat.strong_induction_on generalizing entries with
  | h length ih =>
    cases entries with
    | nil => simp
    | cons entry entries =>
      rw [List.eraseDups_cons, List.nodup_cons, List.mem_eraseDups]
      refine ⟨by simp, ih _ ?_ _ rfl⟩
      have hle := List.length_filter_le (fun other => !other == entry) entries
      simp only [List.length_cons] at hlength
      omega

theorem lookup_eq_head? {α : Type} (entries : List (String × α)) (id : String) :
    entries.lookup id = ((entries.filter fun entry => entry.1 == id).head?).map Prod.snd := by
  induction entries with
  | nil => rfl
  | cons entry entries ih =>
    rw [List.lookup_cons]
    by_cases h : entry.1 = id
    · simp [h]
    · have hne : (id == entry.1) = false := by simpa using Ne.symm h
      rw [hne, List.filter_cons_of_neg (by simpa using h)]
      exact ih

/-- Where no key is there twice, every entry is found. -/
theorem lookup_eq_some_iff_mem {α β : Type} [BEq α] [LawfulBEq α] {entries : List (α × β)}
    (h : (entries.map Prod.fst).Nodup) {key : α} {value : β} :
    entries.lookup key = some value ↔ (key, value) ∈ entries := by
  induction entries with
  | nil => simp
  | cons entry entries ih =>
    obtain ⟨first, found⟩ := entry
    rw [List.map_cons, List.nodup_cons] at h
    rw [List.lookup_cons, List.mem_cons, Prod.mk.injEq]
    by_cases hkey : key = first
    · subst hkey
      have hnot : (key, value) ∉ entries := fun hmem => h.1 (List.mem_map.mpr ⟨_, hmem, rfl⟩)
      simp [hnot, eq_comm]
    · rw [beq_false_of_ne hkey]
      simp [hkey, ih h.2]

/-! ### Time -/

/-- What comes up to an instant is what comes before it and what comes at it. -/
theorem filter_lt_succ {α : Type} (time : α → Nat) {entries : List α}
    (h : entries.Pairwise fun a b => time a ≤ time b) (now : Nat) :
    (entries.filter fun entry => time entry < now + 1) =
      (entries.filter fun entry => time entry < now) ++ entries.filter fun entry => time entry == now := by
  induction entries with
  | nil => rfl
  | cons entry entries ih =>
    rw [List.pairwise_cons] at h
    rcases Nat.lt_trichotomy (time entry) now with hlt | heq | hgt
    · have hsucc : time entry < now + 1 := Nat.lt_succ_of_lt hlt
      have hne : (time entry == now) = false := beq_false_of_ne hlt.ne
      simp only [List.filter_cons, hlt, hsucc, hne, ih h.2, decide_true, if_true, Bool.false_eq_true, if_false,
        List.cons_append]
    · have hnone : entries.filter (fun entry => decide (time entry < now)) = [] := by
        refine List.filter_eq_nil_iff.mpr fun other hother => ?_
        have hle := h.1 other hother
        simp only [decide_eq_true_eq]
        omega
      have hsucc : time entry < now + 1 := Nat.lt_succ_of_le heq.le
      have hnot : ¬ time entry < now := heq.not_lt
      have hbeq : (time entry == now) = true := beq_iff_eq.mpr heq
      simp only [List.filter_cons, hsucc, hnot, hbeq, ih h.2, hnone, decide_true, decide_false, if_true,
        Bool.false_eq_true, if_false, List.nil_append]
    · have hnone : ∀ p : α → Bool, (∀ other, now < time other → p other = false) →
          (entry :: entries).filter p = [] := by
        intro p hp
        refine List.filter_eq_nil_iff.mpr fun other hother => ?_
        have hlater : now < time other := by
          rcases List.mem_cons.mp hother with rfl | hother
          · exact hgt
          · exact hgt.trans_le (h.1 other hother)
        rw [hp other hlater]
        exact Bool.false_ne_true
      rw [hnone _ fun other hother => decide_eq_false (by omega),
        hnone _ fun other hother => decide_eq_false (by omega),
        hnone _ fun other hother => beq_false_of_ne hother.ne']
      rfl

/-- What comes before an instant is found where it was. -/
theorem getElem?_filter_lt {α : Type} (time : α → Nat) {entries : List α}
    (h : entries.Pairwise fun a b => time a ≤ time b) (now number : Nat) :
    (entries.filter fun entry => time entry < now)[number]? =
      entries[number]?.filter fun entry => time entry < now := by
  induction entries generalizing number with
  | nil => rfl
  | cons entry entries ih =>
    rw [List.pairwise_cons] at h
    by_cases hlt : time entry < now
    · rw [List.filter_cons_of_pos (by simpa using hlt)]
      cases number with
      | zero => simp [Option.filter_some, hlt]
      | succ number => simpa using ih h.2 number
    · have hnone : (entry :: entries).filter (fun entry => decide (time entry < now)) = [] := by
        refine List.filter_eq_nil_iff.mpr fun other hother => ?_
        rcases List.mem_cons.mp hother with rfl | hother
        · simpa using hlt
        · have hle := h.1 other hother
          simp only [decide_eq_true_eq]
          omega
      rw [hnone]
      symm
      rw [List.getElem?_nil, Option.filter_eq_none_iff]
      intro other hother
      have hmem : other ∈ entry :: entries := List.mem_of_getElem? hother
      exact List.filter_eq_nil_iff.mp hnone other hmem

/-- What comes at an instant has the numbers that follow on those of what comes before it. -/
theorem filter_zipIdx {α : Type} (time : α → Nat) {entries : List α}
    (h : entries.Pairwise fun a b => time a ≤ time b) (now start : Nat) :
    ((entries.zipIdx start).filter fun entry => time entry.1 == now) =
      (entries.filter fun entry => time entry == now).zipIdx
        (start + (entries.filter fun entry => time entry < now).length) := by
  induction entries generalizing start with
  | nil => rfl
  | cons entry entries ih =>
    rw [List.pairwise_cons] at h
    rw [List.zipIdx_cons]
    by_cases hlt : time entry < now
    · have hne : time entry ≠ now := hlt.ne
      simp [hne, hlt, ih h.2, Nat.add_assoc, Nat.add_comm 1]
    · have hnone : entries.filter (fun entry => decide (time entry < now)) = [] := by
        refine List.filter_eq_nil_iff.mpr fun other hother => ?_
        have hle := h.1 other hother
        simp only [decide_eq_true_eq]
        omega
      by_cases heq : time entry = now
      · simp [heq, ih h.2, hnone]
      · have hlater : entries.filter (fun entry => time entry == now) = [] := by
          refine List.filter_eq_nil_iff.mpr fun other hother => ?_
          have hle := h.1 other hother
          simp only [beq_iff_eq]
          omega
        simp [heq, ih h.2, hlater]

/-- Sorting by time sorts by time. -/
theorem sorted_mergeSort {α : Type} (time : α → Nat) (entries : List α) :
    (entries.mergeSort fun a b => time a ≤ time b).Pairwise fun a b => time a ≤ time b := by
  have htrans : ∀ a b c : α, decide (time a ≤ time b) → decide (time b ≤ time c) →
      decide (time a ≤ time c) := by
    intro a b c hab hbc
    simp only [decide_eq_true_eq] at hab hbc ⊢
    exact hab.trans hbc
  have htotal : ∀ a b : α, decide (time a ≤ time b) || decide (time b ≤ time a) := by
    intro a b
    simpa using Nat.le_total (time a) (time b)
  exact (List.pairwise_mergeSort htrans htotal entries).imp of_decide_eq_true

/-- What comes at an instant of entries that are made with their times. -/
theorem filter_map_time {α β : Type} (time : α → Nat) (f : α → β) (entries : List α) (now : Nat) :
    ((entries.map fun entry => (time entry, f entry)).filter fun made => made.1 == now) =
      (entries.filter fun entry => time entry == now).map fun entry => (now, f entry) := by
  rw [List.filter_map]
  refine List.map_congr_left fun entry hentry => ?_
  have hnow : time entry = now := by simpa using (List.mem_filter.mp hentry).2
  rw [hnow]

/-- Lists of at most one entry are in order. -/
theorem eq_of_perm_of_length_le_one {α : Type} {first second : List α} (h : first.Perm second)
    (hlength : first.length ≤ 1) : first = second := by
  match first with
  | [] => exact h.nil_eq
  | [_] => exact (List.singleton_perm.mp h)

end Minifier.Entries
