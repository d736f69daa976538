import Mathlib.Data.List.Dedup
import Mathlib.Data.List.Shortlex
import Mathlib.Data.Set.Function
import Minifier.Proofs.Mangle.ShortNames

/-!
The short names as a numeration. Every word of the letters from a to z is the name of one number, and the numbers go
through these words from the shorter to the longer, and in alphabetical order among words of one length. No letter stands
for zero, so one is taken from every quotient; a quotient from which one is taken is never zero.

A search for free names looks at one number after the other, and the next search goes on where it ended. So what is
looked at from the first declared name to the last are the first words in this order, each of them once.
-/

namespace Minifier.Mangle

variable {taken declared : List (List Char)} {choice : Choice} {m n counter : Nat} {word : List Char} {c : Char}

/-! ### Words in their order -/

/-- A word of the letters from a to z, at least one of them. -/
structure IsLetters (word : List Char) : Prop where
  ne_nil : word ≠ []
  letters : ∀ c ∈ word, 'a' ≤ c ∧ c ≤ 'z'

/-- The shorter word comes before the longer one, and of two words of one length the one that is first in the
alphabet. -/
def Before (first second : List Char) : Prop := List.Shortlex (· < ·) first second

theorem Before.append {first second : List Char} (h : Before first second) (c d : Char) :
    Before (first ++ [c]) (second ++ [d]) := by
  rcases List.shortlex_def.mp h with hshorter | ⟨hlength, hlex⟩
  · exact .of_length_lt (by simpa using hshorter)
  · refine .of_lex (by simpa using hlength) ?_
    induction hlex with
    | nil => exact absurd hlength (by simp)
    | rel hlt => exact .rel hlt
    | cons _ ih => exact .cons (ih (.of_lex (Nat.succ.inj hlength) ‹_›) (Nat.succ.inj hlength))

theorem Before.asymm {first second : List Char} (h : Before first second) : ¬ Before second first :=
  Std.Asymm.asymm (r := @List.Shortlex Char (· < ·)) first second h

theorem letter_lt_letter (h : m % 26 < n % 26) : letter m < letter n := by
  rw [Char.lt_def, UInt32.lt_iff_toNat_lt]
  change (letter m).toNat < (letter n).toNat
  rw [toNat_letter, toNat_letter]
  omega

theorem letter_mem (n : Nat) : 'a' ≤ letter n ∧ letter n ≤ 'z' := by
  have hletters : ∀ m < 26, 'a' ≤ Char.ofNat (97 + m) ∧ Char.ofNat (97 + m) ≤ 'z' := by decide
  exact hletters (n % 26) (Nat.mod_lt n (by decide))

/-- Every letter stands for a remainder. -/
theorem exists_letter_eq (h : 'a' ≤ c ∧ c ≤ 'z') : ∃ digit < 26, ∀ k, letter (26 * k + digit) = c := by
  have hlow : 97 ≤ c.toNat := h.1
  have hhigh : c.toNat ≤ 122 := h.2
  refine ⟨c.toNat - 97, by omega, fun k => ?_⟩
  rw [letter, Nat.mul_add_mod, Nat.mod_eq_of_lt (by omega), Nat.add_sub_of_le hlow, Char.ofNat_toNat]

/-! ### Numbers and their words -/

theorem isLetters_base26 (n : Nat) : IsLetters (base26 n) := by
  induction n using Nat.strong_induction_on with
  | h n ih =>
    rw [base26_eq]
    split
    · exact ⟨List.cons_ne_nil _ _, List.forall_mem_singleton.mpr (letter_mem n)⟩
    · have hquotient := ih (n / 26 - 1) (by omega)
      exact ⟨by simp, List.forall_mem_append.mpr ⟨hquotient.letters, List.forall_mem_singleton.mpr (letter_mem n)⟩⟩

/-- A later number has a later word. The induction is on the later number; its last letter decides only where all that
stands before it is the same. -/
theorem before_base26 (h : m < n) : Before (base26 m) (base26 n) := by
  induction n using Nat.strong_induction_on generalizing m with
  | h n ih =>
    rw [base26_eq m, base26_eq n]
    split_ifs with hm hn hn
    · exact List.shortlex_singleton_iff _ _ |>.mpr (letter_lt_letter (by omega))
    · have hne := List.length_pos_iff.mpr (isLetters_base26 (n / 26 - 1)).ne_nil
      exact .of_length_lt (by simpa using hne)
    · omega
    · rcases Nat.lt_or_ge (m / 26 - 1) (n / 26 - 1) with hlt | hge
      · exact (ih (n / 26 - 1) (by omega) hlt).append _ _
      · have hsame : m / 26 - 1 = n / 26 - 1 := by omega
        rw [hsame]
        exact .append_left (List.shortlex_singleton_iff _ _ |>.mpr (letter_lt_letter (by omega))) _

theorem before_base26_iff : Before (base26 m) (base26 n) ↔ m < n := by
  refine ⟨fun h => ?_, before_base26⟩
  rcases Nat.lt_trichotomy m n with hlt | rfl | hgt
  · exact hlt
  · exact absurd h h.asymm
  · exact absurd h (before_base26 hgt).asymm

/-- Every word has a number. The induction takes the letters off the end, as the words are made. -/
theorem exists_base26_eq (h : IsLetters word) : ∃ n, base26 n = word := by
  obtain ⟨hne, hletters⟩ := h
  induction word using List.reverseRecOn with
  | nil => exact absurd rfl hne
  | append_singleton front c ih =>
    obtain ⟨hfront, hlast⟩ := List.forall_mem_append.mp hletters
    obtain ⟨digit, hdigit, hletter⟩ := exists_letter_eq (hlast c (List.mem_singleton_self c))
    by_cases hempty : front = []
    · refine ⟨digit, ?_⟩
      rw [base26_eq, if_pos hdigit, hempty, ← hletter 0, Nat.mul_zero, Nat.zero_add, List.nil_append]
    · obtain ⟨quotient, rfl⟩ := ih hempty hfront
      refine ⟨26 * (quotient + 1) + digit, ?_⟩
      have hless : (26 * (quotient + 1) + digit) / 26 - 1 = quotient := by omega
      rw [base26_eq, if_neg (by omega), hless, hletter]

theorem bijOn_base26 : Set.BijOn base26 Set.univ {word | IsLetters word} := by
  refine ⟨fun n _ => isLetters_base26 n, base26_injective.injOn, fun word hword => ?_⟩
  obtain ⟨n, hn⟩ := exists_base26_eq hword
  exact ⟨n, Set.mem_univ n, hn⟩

/-- How the letters of a number are written from the last to the first, in front of those written before. There is no
subtraction here that could go below zero: the number that is left is the one whose successor is the quotient. -/
inductive Writes : (index : Nat) → (tail word : List Char) → Prop where
  /-- A number that is one letter. -/
  | last {index : Nat} {tail : List Char} : index < 26 → Writes index tail (letter index :: tail)
  /-- A number that leaves another one. -/
  | onward {index less : Nat} {tail word : List Char} : 26 ≤ index → less + 1 = index / 26 →
      Writes less (letter index :: tail) word → Writes index tail word

/-- Every number is written to its end. -/
theorem writes_base26 (n : Nat) (tail : List Char) : Writes n tail (base26 n ++ tail) := by
  induction n using Nat.strong_induction_on generalizing tail with
  | h n ih =>
    rw [base26_eq]
    split
    · exact .last ‹_›
    · refine .onward (by omega) (Nat.sub_add_cancel (by omega)) ?_
      rw [List.append_assoc]
      exact ih (n / 26 - 1) (by omega) _

/-! ### What is looked at -/

/-- The words that a search for a free name looks at. -/
def looks (taken : List (List Char)) : (tries counter : Nat) → List (List Char)
  | 0, counter => [base26 counter]
  | tries + 1, counter =>
    base26 counter :: if taken.contains (base26 counter) then looks taken tries (counter + 1) else []

/-- The last word that a search looks at is the one that it finds. -/
theorem getLast?_looks (taken : List (List Char)) (tries counter : Nat) :
    (looks taken tries counter).getLast? = some (freshName taken tries counter).1 := by
  induction tries generalizing counter with
  | zero => rfl
  | succ tries ih =>
    rw [looks, freshName]
    split_ifs
    · rw [List.getLast?_cons, ih, Option.getD_some]
    · rfl

/-- A search looks at the words from one number up to another. -/
theorem exists_looks (taken : List (List Char)) (tries counter : Nat) :
    ∃ more, (freshName taken tries counter).2 = counter + (more + 1) ∧
      looks taken tries counter = (List.range' counter (more + 1)).map base26 := by
  induction tries generalizing counter with
  | zero => exact ⟨0, rfl, rfl⟩
  | succ tries ih =>
    rw [looks, freshName]
    split_ifs
    · obtain ⟨more, hcounter, hlooks⟩ := ih (counter + 1)
      refine ⟨more + 1, by rw [hcounter]; omega, ?_⟩
      rw [hlooks, ← List.map_cons, ← List.range'_succ]
    · exact ⟨0, rfl, rfl⟩

/-- The words that are looked at from a choice on, while short names are chosen for further declared names. -/
def looksFrom (taken : List (List Char)) : Choice → (declared : List (List Char)) → List (List Char)
  | _, [] => []
  | choice, name :: declared =>
    (if (choice.1.lookup name).isSome then [] else looks taken taken.length choice.2) ++
      looksFrom taken (chooseStep taken choice name) declared

/-- The words that are looked at while short names are chosen for declared names. -/
def candidates (taken declared : List (List Char)) : List (List Char) := looksFrom taken ([], 0) declared

/-- What is looked at goes on where it ended before. -/
theorem exists_looksFrom (taken : List (List Char)) (choice : Choice) (declared : List (List Char)) :
    ∃ more, (declared.foldl (chooseStep taken) choice).2 = choice.2 + more ∧
      looksFrom taken choice declared = (List.range' choice.2 more).map base26 := by
  induction declared generalizing choice with
  | nil => exact ⟨0, rfl, rfl⟩
  | cons name declared ih =>
    obtain ⟨more, hcounter, hmore⟩ := ih (chooseStep taken choice name)
    obtain ⟨looked, hfresh, hlooks⟩ := exists_looks taken taken.length choice.2
    rw [looksFrom, List.foldl_cons, hcounter, hmore]
    by_cases hgiven : (choice.1.lookup name).isSome
    · have hstep : chooseStep taken choice name = choice := if_pos hgiven
      exact ⟨more, by rw [hstep], by rw [if_pos hgiven, hstep, List.nil_append]⟩
    · have hstep : (chooseStep taken choice name).2 = choice.2 + (looked + 1) := by
        rw [chooseStep, if_neg hgiven, ← hfresh]
        dsimp only
        split_ifs <;> rfl
      refine ⟨looked + 1 + more, by rw [hstep, Nat.add_assoc], ?_⟩
      rw [if_neg hgiven, hlooks, hstep, ← List.map_append, List.range'_append_1]

theorem candidates_eq (taken declared : List (List Char)) :
    candidates taken declared = (List.range (chosen taken declared).2).map base26 := by
  obtain ⟨more, hcounter, hlooks⟩ := exists_looksFrom taken ([], 0) declared
  have hmore : (chosen taken declared).2 = more := hcounter.trans (Nat.zero_add more)
  rw [candidates, hlooks, hmore, List.range_eq_range']

/-- At its first declaration a name draws a number. -/
theorem chosen_counter_lt (h : word ∉ declared) :
    (chosen taken declared).2 < (chosen taken (declared ++ [word])).2 := by
  have hchosen : chosen taken (declared ++ [word]) = chooseStep taken (chosen taken declared) word := by
    rw [chosen, List.foldl_append, ← chosen, List.foldl_cons, List.foldl_nil]
  rw [hchosen]
  rcases chooseStep_cases taken (chosen taken declared) word with
    ⟨hmem, -⟩ | ⟨-, n, hnext, ⟨-, hstep⟩ | ⟨-, hstep⟩⟩
  · exact absurd (mem_of_mem_chosen hmem) h
  all_goals
    rw [hstep]
    exact Nat.lt_succ_of_le hnext.le

theorem chosen_counter_le (taken declared more : List (List Char)) :
    (chosen taken declared).2 ≤ (chosen taken (declared ++ more)).2 := by
  obtain ⟨looked, hcounter, -⟩ := exists_looksFrom taken (chosen taken declared) more
  rw [chosen.eq_def taken (declared ++ more), List.foldl_append, ← chosen, hcounter]
  exact Nat.le_add_right _ _

/-- As many words are looked at as there are different names, or more. -/
theorem length_le_chosen_counter {names : List (List Char)} (hnodup : names.Nodup) (hnames : names ⊆ declared) :
    names.length ≤ (chosen taken declared).2 := by
  induction declared using List.reverseRecOn generalizing names with
  | nil =>
    rw [List.subset_nil.mp hnames]
    exact Nat.zero_le _
  | append_singleton declared name ih =>
    by_cases hname : name ∈ declared
    · have hsubset : names ⊆ declared := fun other hother => by
        rcases List.mem_append.mp (hnames hother) with hmem | hmem
        · exact hmem
        · rwa [List.mem_singleton.mp hmem]
      exact (ih hnodup hsubset).trans (chosen_counter_le taken declared [name])
    · have hsubset : names.erase name ⊆ declared := fun other hother => by
        have hother := hnodup.mem_erase_iff.mp hother
        rcases List.mem_append.mp (hnames hother.2) with hmem | hmem
        · exact hmem
        · exact absurd (List.mem_singleton.mp hmem) hother.1
      have hrest := ih (hnodup.erase name) hsubset
      have hlt : (chosen taken declared).2 < (chosen taken (declared ++ [name])).2 := chosen_counter_lt hname
      have hlength := List.le_length_erase (a := name) (l := names)
      omega

/-- The numbers from zero and the words of the letters from a to z correspond one to one, and in their order. A number
is the value of its word less one, and nothing below zero comes up while it is written. What is looked at to choose short
names are the words up to a certain one, each once and in their order; all short names are among them, and they are at
least as many as there are different declared names. -/
theorem base26_numeration :
    Set.BijOn base26 Set.univ {word | IsLetters word} ∧
      (∀ m n, m < n ↔ Before (base26 m) (base26 n)) ∧
      (∀ n, Writes n [] (base26 n) ∧ rank (base26 n) = n + 1) ∧
      ∀ taken declared, (candidates taken declared).Pairwise Before ∧
        (∀ word later, IsLetters word → later ∈ candidates taken declared → Before word later →
          word ∈ candidates taken declared) ∧
        (∀ entry ∈ choose taken declared, entry.2 ∈ candidates taken declared) ∧
        declared.dedup.length ≤ (candidates taken declared).length := by
  refine ⟨bijOn_base26, fun m n => before_base26_iff.symm, fun n => ⟨?_, rank_base26 n⟩, fun taken declared => ?_⟩
  · have hwrites := writes_base26 n []
    rwa [List.append_nil] at hwrites
  · rw [candidates_eq]
    refine ⟨List.pairwise_map.mpr (List.pairwise_lt_range.imp before_base26), ?_, fun entry hentry => ?_, ?_⟩
    · rintro word later hword hlater hbefore
      obtain ⟨m, rfl⟩ := exists_base26_eq hword
      obtain ⟨n, hn, rfl⟩ := List.mem_map.mp hlater
      have hlt := before_base26_iff.mp hbefore
      exact List.mem_map_of_mem (List.mem_range.mpr (hlt.trans (List.mem_range.mp hn)))
    · obtain ⟨n, hn, hshort, -⟩ := (isChoice_chosen taken declared).entry entry (List.mem_reverse.mp hentry)
      rw [hshort]
      exact List.mem_map_of_mem (List.mem_range.mpr hn)
    · rw [List.length_map, List.length_range]
      exact length_le_chosen_counter (List.nodup_dedup declared) (List.dedup_subset declared)

example : (List.range 3).map (fun n => base26 (700 + n)) = [['z', 'y'], ['z', 'z'], ['a', 'a', 'a']] := by decide

end Minifier.Mangle
