import Minifier.Proofs.Mangle.Names
import Minifier.Proofs.Minify.Sizes

/-!
The short names, and how they are chosen. They are numbered: no two numbers have the same name, and a later name is
not shorter. So among as many numbers as there are taken names, and one more, one is free, and the search for the
next free name ends.

A declared name draws the next free name. It gets that name if it is longer; if not, neither it nor any name as short
gets one later on. Each short name is drawn once, so no two names share one.
-/

namespace Minifier.Mangle

open Text

variable {taken : List (List Char)} {counter m n : Nat} {name short : List Char}

/-! ### Numbered names -/

theorem toNat_letter (n : Nat) : (letter n).toNat = 97 + n % 26 := by
  have hletters : ∀ m < 26, (Char.ofNat (97 + m)).toNat = 97 + m := by decide
  exact hletters (n % 26) (Nat.mod_lt n (by decide))

/-- More fuel than needed changes nothing. -/
theorem lettersOnto_eq {fuel index : Nat} (h : index ≤ fuel) (tail : List Char) :
    lettersOnto fuel index tail = base26 index ++ tail := by
  induction index using Nat.strong_induction_on generalizing fuel tail with
  | h index ih =>
    by_cases hsmall : index < 26
    · have hletter (fuel : Nat) (tail : List Char) : lettersOnto fuel index tail = letter index :: tail := by
        cases fuel with
        | zero => rfl
        | succ fuel => rw [lettersOnto, if_pos hsmall]
      rw [base26, hletter, hletter]
      rfl
    · obtain ⟨fuel, rfl⟩ : ∃ more, fuel = more + 1 := ⟨fuel - 1, by omega⟩
      obtain ⟨less, hless⟩ : ∃ less, index = less + 1 := ⟨index - 1, by omega⟩
      have hbase : base26 index = lettersOnto less (index / 26 - 1) [letter index] := by
        rw [base26]
        nth_rewrite 1 [hless]
        rw [lettersOnto, if_neg hsmall]
      rw [lettersOnto, if_neg hsmall, hbase, ih _ (by omega) (by omega), ih _ (by omega) (by omega)]
      simp

/-- A number from 26 on has one letter more than its quotient. -/
theorem base26_eq (n : Nat) : base26 n = if n < 26 then [letter n] else base26 (n / 26 - 1) ++ [letter n] := by
  split
  · rename_i hsmall
    cases n with
    | zero => rfl
    | succ n => rw [base26, lettersOnto, if_pos hsmall]
  · rename_i hlarge
    obtain ⟨less, hless⟩ : ∃ less, n = less + 1 := ⟨n - 1, by omega⟩
    rw [base26]
    nth_rewrite 1 [hless]
    rw [lettersOnto, if_neg hlarge, lettersOnto_eq (by omega)]

/-- The place of a text in the order of the short names, counted from one. -/
def rank (text : List Char) : Nat := text.foldl (fun n c => 26 * n + (c.toNat - 96)) 0

theorem rank_base26 (n : Nat) : rank (base26 n) = n + 1 := by
  induction n using Nat.strong_induction_on with
  | h n ih =>
    rw [base26_eq]
    split
    · simp only [rank, List.foldl_cons, List.foldl_nil, toNat_letter]
      omega
    · have hrank := ih (n / 26 - 1) (by omega)
      rw [rank] at hrank
      simp only [rank, List.foldl_append, hrank, List.foldl_cons, List.foldl_nil, toNat_letter]
      omega

/-- No two numbers have the same name. -/
theorem base26_injective : Function.Injective base26 := by
  intro m n h
  have hrank := congrArg rank h
  rw [rank_base26, rank_base26] at hrank
  exact Nat.succ.inj hrank

/-- A later name is not shorter. -/
theorem length_base26_le (h : m ≤ n) : (base26 m).length ≤ (base26 n).length := by
  induction n using Nat.strong_induction_on generalizing m with
  | h n ih =>
    rw [base26_eq m, base26_eq n]
    split <;> split
    · rfl
    · simp
    · omega
    · have hquotient : m / 26 - 1 ≤ n / 26 - 1 := Nat.sub_le_sub_right (Nat.div_le_div_right h) 1
      simpa using ih (n / 26 - 1) (by omega) hquotient

theorem byteSize_base26 (n : Nat) : byteSize (base26 n) = (base26 n).length := byteSize_lettersOnto rfl n n

theorem nameStart_letter (n : Nat) : Class.nameStart (letter n) = true := by
  have hletters : ∀ m < 26, Class.nameStart (Char.ofNat (97 + m)) = true := by decide
  exact hletters (n % 26) (Nat.mod_lt n (by decide))

theorem isName_base26 (n : Nat) : IsName (base26 n) := by
  induction n using Nat.strong_induction_on with
  | h n ih =>
    rw [base26_eq]
    split
    · exact ⟨nameStart_letter n, by simp⟩
    · exact (ih (n / 26 - 1) (by omega)).append (by simpa using namePart_of_nameStart (nameStart_letter n))

theorem isWord_of_mem_base26 (n : Nat) : ∀ c ∈ base26 n, isWord c = true := by
  have hletter : ∀ m < 26, isWord (Char.ofNat (97 + m)) = true := by decide
  induction n using Nat.strong_induction_on with
  | h n ih =>
    have hlast : ∀ c ∈ [letter n], isWord c = true := by
      exact List.forall_mem_singleton.mpr (hletter (n % 26) (Nat.mod_lt n (by decide)))
    rw [base26_eq]
    split
    · exact hlast
    · exact List.forall_mem_append.mpr ⟨ih (n / 26 - 1) (by omega), hlast⟩

/-! ### Free names -/

/-- Whether a number is the first one from a counter on whose name is free. -/
structure IsNext (taken : List (List Char)) (counter n : Nat) : Prop where
  le : counter ≤ n
  free : base26 n ∉ taken
  first : ∀ m, counter ≤ m → m < n → base26 m ∈ taken

/-- Among as many names as are taken, and one more, one is free. -/
theorem exists_free (taken : List (List Char)) (counter : Nat) :
    ∃ n, counter ≤ n ∧ n ≤ counter + taken.length ∧ base26 n ∉ taken := by
  by_contra hnone
  push Not at hnone
  have hsubset : (List.range' counter (taken.length + 1)).map base26 ⊆ taken := by
    intro name hname
    obtain ⟨n, hn, rfl⟩ := List.mem_map.mp hname
    rw [List.mem_range'_1] at hn
    exact hnone n hn.1 (by omega)
  have hnodup : ((List.range' counter (taken.length + 1)).map base26).Nodup :=
    List.Nodup.map base26_injective (List.nodup_range' _)
  have hlength := (List.subperm_of_subset hnodup hsubset).length_le
  simp at hlength

theorem exists_isNext (taken : List (List Char)) (counter : Nat) :
    ∃ n, n ≤ counter + taken.length ∧ IsNext taken counter n := by
  obtain ⟨bound, hle, hbound, hfree⟩ := exists_free taken counter
  have hexists : ∃ n, counter ≤ n ∧ base26 n ∉ taken := ⟨bound, hle, hfree⟩
  obtain ⟨hfound, hfoundFree⟩ := Nat.find_spec hexists
  refine ⟨Nat.find hexists, (Nat.find_min' hexists ⟨hle, hfree⟩).trans hbound, hfound, hfoundFree, ?_⟩
  intro m hm hlt
  by_contra hnot
  exact Nat.find_min hexists hlt ⟨hm, hnot⟩

/-- A search that may go far enough finds the next free name. -/
theorem IsNext.freshName_eq (h : IsNext taken counter n) {tries : Nat} (htries : n ≤ counter + tries) :
    freshName taken tries counter = (base26 n, n + 1) := by
  induction tries generalizing counter with
  | zero =>
    obtain rfl : n = counter := Nat.le_antisymm htries h.le
    rfl
  | succ tries ih =>
    rw [freshName]
    by_cases hfree : base26 counter ∈ taken
    · have hlt : counter < n := by
        refine Nat.lt_of_le_of_ne h.le ?_
        rintro rfl
        exact h.free hfree
      have hnext : IsNext taken (counter + 1) n := ⟨hlt, h.free, fun m hm => h.first m (Nat.le_of_succ_le hm)⟩
      simpa [hfree] using ih hnext (by omega)
    · have heq : n = counter := by
        by_contra hne
        exact hfree (h.first counter (Nat.le_refl _) (Nat.lt_of_le_of_ne h.le (Ne.symm hne)))
      simp [hfree, heq]

/-- The search for a free name ends with the next one, after at most as many steps as there are taken names. -/
theorem exists_freshName (taken : List (List Char)) (counter : Nat) :
    ∃ n, n ≤ counter + taken.length ∧ IsNext taken counter n ∧
      freshName taken taken.length counter = (base26 n, n + 1) := by
  obtain ⟨n, hn, hnext⟩ := exists_isNext taken counter
  exact ⟨n, hn, hnext, hnext.freshName_eq hn⟩

/-! ### Choosing -/

/-- Names that have a short one so far, the latest first, and the number to be tried next. -/
abbrev Choice := Renaming × Nat

/-- Chooses for one declared name. -/
def chooseStep (taken : List (List Char)) (choice : Choice) (name : List Char) : Choice :=
  if (choice.1.lookup name).isSome then choice
  else
    let (short, counter) := freshName taken taken.length choice.2
    if byteSize name ≤ short.length then (choice.1, counter) else ((name, short) :: choice.1, counter)

/-- What is chosen for declared names, one after the other. -/
def chosen (taken declared : List (List Char)) : Choice := declared.foldl (chooseStep taken) ([], 0)

theorem choose_eq (taken declared : List (List Char)) : choose taken declared = (chosen taken declared).1.reverse :=
  rfl

variable {choice : Choice} {declared : List (List Char)}

/-- A name that has a short one draws no other. Any other name draws the next free one, and gets it if that is
shorter. -/
theorem chooseStep_cases (taken : List (List Char)) (choice : Choice) (name : List Char) :
    (name ∈ choice.1.map Prod.fst ∧ chooseStep taken choice name = choice) ∨
      (name ∉ choice.1.map Prod.fst ∧ ∃ n, IsNext taken choice.2 n ∧
        ((byteSize name ≤ (base26 n).length ∧ chooseStep taken choice name = (choice.1, n + 1)) ∨
          ((base26 n).length < byteSize name ∧
            chooseStep taken choice name = ((name, base26 n) :: choice.1, n + 1)))) := by
  obtain ⟨n, -, hnext, hfresh⟩ := exists_freshName taken choice.2
  by_cases hname : name ∈ choice.1.map Prod.fst
  · exact Or.inl ⟨hname, by rw [chooseStep, if_pos (isSome_lookup_iff.mpr hname)]⟩
  · refine Or.inr ⟨hname, n, hnext, ?_⟩
    rw [chooseStep, if_neg (mt isSome_lookup_iff.mp hname), hfresh]
    dsimp only
    split
    · rename_i hlong
      exact Or.inl ⟨hlong, rfl⟩
    · rename_i hshort
      exact Or.inr ⟨Nat.not_le.mp hshort, rfl⟩

/-- What holds of every choice: no two names are the same and no two short ones, and each short name has been drawn, is
free, and is shorter than its name. -/
structure IsChoice (taken : List (List Char)) (choice : Choice) : Prop where
  names : (choice.1.map Prod.fst).Nodup
  shorts : (choice.1.map Prod.snd).Nodup
  entry : ∀ entry ∈ choice.1, ∃ n < choice.2, entry.2 = base26 n ∧ base26 n ∉ taken ∧
    (base26 n).length < byteSize entry.1

theorem IsChoice.step (h : IsChoice taken choice) (name : List Char) :
    IsChoice taken (chooseStep taken choice name) := by
  have hlater {n : Nat} (hn : choice.2 ≤ n) (entry : List Char × List Char) (hentry : entry ∈ choice.1) :
      ∃ m < n + 1, entry.2 = base26 m ∧ base26 m ∉ taken ∧ (base26 m).length < byteSize entry.1 := by
    obtain ⟨m, hm, hentry⟩ := h.entry entry hentry
    exact ⟨m, by omega, hentry⟩
  rcases chooseStep_cases taken choice name with ⟨-, hstep⟩ | ⟨hname, n, hnext, ⟨-, hstep⟩ | ⟨hshorter, hstep⟩⟩
  all_goals rw [hstep]
  · exact h
  · exact ⟨h.names, h.shorts, hlater hnext.le⟩
  · refine ⟨List.nodup_cons.mpr ⟨hname, h.names⟩, List.nodup_cons.mpr ⟨?_, h.shorts⟩, ?_⟩
    -- Every short name so far has a number below the one drawn now.
    · intro hmem
      obtain ⟨entry, hentry, heq⟩ := List.mem_map.mp hmem
      obtain ⟨m, hm, hshort, -⟩ := h.entry entry hentry
      have hmn : m = n := base26_injective (hshort.symm.trans heq)
      have hle := hnext.le
      omega
    · exact List.forall_mem_cons.mpr ⟨⟨n, Nat.lt_succ_self n, rfl, hnext.free, hshorter⟩, hlater hnext.le⟩

theorem isChoice_chosen (taken declared : List (List Char)) : IsChoice taken (chosen taken declared) :=
  List.foldlRecOn declared (chooseStep taken) ⟨List.nodup_nil, List.nodup_nil, by simp⟩ fun _ h name _ => h.step name

/-! ### Which names are chosen -/

theorem IsNext.unique (h : IsNext taken counter m) (h' : IsNext taken counter n) : m = n := by
  rcases Nat.lt_trichotomy m n with hlt | heq | hlt
  · exact absurd (h'.first m h.le hlt) h.free
  · exact heq
  · exact absurd (h.first n h'.le hlt) h'.free

/-- A name keeps its short one. -/
theorem mem_foldl_chooseStep {entry : List Char × List Char} (h : entry ∈ choice.1) (declared : List (List Char)) :
    entry ∈ (declared.foldl (chooseStep taken) choice).1 := by
  refine List.foldlRecOn (motive := fun choice : Choice => entry ∈ choice.1) declared (chooseStep taken) h ?_
  intro choice hentry other _
  rcases chooseStep_cases taken choice other with ⟨-, hstep⟩ | ⟨-, n, -, ⟨-, hstep⟩ | ⟨-, hstep⟩⟩
  all_goals rw [hstep]
  · exact hentry
  · exact hentry
  · exact List.mem_cons_of_mem _ hentry

/-- A name as short as the next short name gets none any more. -/
theorem not_mem_foldl_chooseStep (h : name ∉ choice.1.map Prod.fst)
    (hshort : byteSize name ≤ (base26 choice.2).length) (declared : List (List Char)) :
    name ∉ (declared.foldl (chooseStep taken) choice).1.map Prod.fst := by
  suffices hlast : name ∉ (declared.foldl (chooseStep taken) choice).1.map Prod.fst ∧
      byteSize name ≤ (base26 (declared.foldl (chooseStep taken) choice).2).length from hlast.1
  refine List.foldlRecOn (motive := fun choice : Choice => name ∉ choice.1.map Prod.fst ∧
    byteSize name ≤ (base26 choice.2).length) declared (chooseStep taken) ⟨h, hshort⟩ ?_
  rintro choice ⟨hname, hshort⟩ other _
  rcases chooseStep_cases taken choice other with ⟨-, hstep⟩ | ⟨-, n, hnext, ⟨-, hstep⟩ | ⟨hlong, hstep⟩⟩
  all_goals rw [hstep]
  · exact ⟨hname, hshort⟩
  · exact ⟨hname, hshort.trans (length_base26_le (Nat.le_succ_of_le hnext.le))⟩
  · have hdrawn := hshort.trans (length_base26_le hnext.le)
    refine ⟨?_, hdrawn.trans (length_base26_le (Nat.le_succ n))⟩
    rintro hmem
    rcases List.mem_cons.mp hmem with rfl | hmem
    · exact absurd hdrawn (Nat.not_le.mpr hlong)
    · exact hname hmem

theorem mem_of_mem_chosen (h : name ∈ (chosen taken declared).1.map Prod.fst) : name ∈ declared := by
  by_contra hnot
  refine List.foldlRecOn (motive := fun choice : Choice => name ∉ choice.1.map Prod.fst) declared (chooseStep taken)
    List.not_mem_nil ?_ h
  intro choice hname other hother
  rcases chooseStep_cases taken choice other with ⟨-, hstep⟩ | ⟨-, n, -, ⟨-, hstep⟩ | ⟨-, hstep⟩⟩
  all_goals rw [hstep]
  · exact hname
  · exact hname
  · intro hmem
    rcases List.mem_cons.mp hmem with rfl | hmem
    · exact hnot hother
    · exact hname hmem

/-- Whether a name draws a number at its first declaration: the next one whose name is free then. -/
def Draws (taken declared : List (List Char)) (name : List Char) (n : Nat) : Prop :=
  ∃ earlier later, declared = earlier ++ name :: later ∧ name ∉ earlier ∧ IsNext taken (chosen taken earlier).2 n

/-- A name gets the short name that it draws at its first declaration, if that is shorter, and none otherwise. -/
theorem mem_chosen_iff : (name, short) ∈ (chosen taken declared).1 ↔
    ∃ n, Draws taken declared name n ∧ short = base26 n ∧ (base26 n).length < byteSize name := by
  have hchosen (earlier later : List (List Char)) : chosen taken (earlier ++ name :: later) =
      later.foldl (chooseStep taken) (chooseStep taken (chosen taken earlier) name) := by
    rw [chosen, List.foldl_append, List.foldl_cons, ← chosen]
  constructor
  · intro h
    have hname := List.mem_map_of_mem (f := Prod.fst) h
    have hnames := (isChoice_chosen taken declared).names
    obtain ⟨earlier, later, rfl, hearlier⟩ := List.eq_append_cons_of_mem (mem_of_mem_chosen hname)
    rw [hchosen] at h hname hnames
    rcases chooseStep_cases taken (chosen taken earlier) name with
      ⟨hmem, -⟩ | ⟨hnone, n, hnext, ⟨hlong, hstep⟩ | ⟨hshort, hstep⟩⟩
    · exact absurd (mem_of_mem_chosen hmem) hearlier
    · rw [hstep] at hname
      refine absurd hname (not_mem_foldl_chooseStep ?_ ?_ later)
      · exact hnone
      · exact hlong.trans (length_base26_le (Nat.le_succ n))
    · have hdrawn : (name, base26 n) ∈
          (later.foldl (chooseStep taken) (chooseStep taken (chosen taken earlier) name)).1 := by
        rw [hstep]
        exact mem_foldl_chooseStep List.mem_cons_self later
      have heq : (name, short) = (name, base26 n) := List.inj_on_of_nodup_map hnames h hdrawn rfl
      exact ⟨n, ⟨earlier, later, rfl, hearlier, hnext⟩, (Prod.mk.inj heq).2, hshort⟩
  · rintro ⟨n, ⟨earlier, later, rfl, hearlier, hnext⟩, rfl, hshort⟩
    rw [hchosen]
    refine mem_foldl_chooseStep ?_ later
    rcases chooseStep_cases taken (chosen taken earlier) name with
      ⟨hmem, -⟩ | ⟨-, m, hnext', ⟨hlong, -⟩ | ⟨-, hstep⟩⟩
    · exact absurd (mem_of_mem_chosen hmem) hearlier
    · rw [hnext'.unique hnext] at hlong
      exact absurd hlong (Nat.not_le.mpr hshort)
    · rw [hstep, hnext'.unique hnext]
      exact List.mem_cons_self

end Minifier.Mangle
