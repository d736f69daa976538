import Minifier.Proofs.Pattern.Locality
import Minifier.Proofs.Pattern.Match

/-!
What patterns take.

## How far a run goes

A run tries the spot behind all characters of its class first. If what comes after
succeeds there, the run ends there; and so it does if nothing succeeds in the middle of such characters.
-/

namespace Minifier

/-- The spot behind all characters of a class that stand next. -/
def Spot.behind (spot : Spot) (accepts : Char → Bool) : Spot :=
  spot.after (spot.rest.takeWhile accepts) (spot.rest.dropWhile accepts)

namespace Spot

variable {accepts : Char → Bool} {labels : List (Label × Span)}

/-- The first stop of a run is the spot behind all characters of the class. The others stand before one of
them. -/
theorem exists_runStops (index : Nat) (prev : Option Char) (rest : List Char) (stops : List Spot) :
    ∃ between, runStops accepts labels index prev rest stops =
        behind ⟨index, prev, rest, labels⟩ accepts :: (between ++ stops) ∧
      ∀ stop ∈ between, ∃ c ∈ stop.rest.head?, accepts c = true := by
  induction rest generalizing index prev stops with
  | nil => exact ⟨[], rfl, by simp⟩
  | cons c rest ih =>
    rw [runStops]
    by_cases hc : accepts c = true
    · obtain ⟨between, hstops, hbetween⟩ := ih (index + 1) (some c) (⟨index, prev, c :: rest, labels⟩ :: stops)
      refine ⟨between ++ [⟨index, prev, c :: rest, labels⟩], ?_, ?_⟩
      · rw [if_pos hc, hstops, List.append_assoc]
        congr 1
        simp only [behind, after, List.takeWhile_cons_of_pos hc, List.dropWhile_cons_of_pos hc,
          List.length_cons, getLast?_cons_or]
        congr 1
        omega
      · rw [List.forall_mem_append]
        exact ⟨hbetween, by simpa using hc⟩
    · refine ⟨[], ?_, by simp⟩
      rw [if_neg hc]
      simp [behind, after, hc]

end Spot

namespace Pattern

variable {α : Type} {accepts : Char → Bool} {spot : Spot} {next : Spot → Option α}

theorem walk_append (first second : Pattern) (spot : Spot) (next : Spot → Option α) :
    (first ++ second).walk spot next = first.walk spot fun reached => second.walk reached next := rfl

/-- A character of the class is taken. -/
theorem walk_one {c : Char} {rest : List Char} (hspot : spot.rest = c :: rest) (hc : accepts c = true) :
    (one accepts).walk spot next = next (spot.after [c] rest) := by
  rw [walk, hspot]
  exact if_pos hc

theorem walk_char {c : Char} {rest : List Char} (hspot : spot.rest = c :: rest) :
    (char c).walk spot next = next (spot.after [c] rest) := walk_one hspot (beq_self_eq_true c)

/-- A run takes all it can if what comes after succeeds there. -/
theorem walk_run_of_isSome (h : (next (spot.behind accepts)).isSome = true) :
    (run accepts).walk spot next = next (spot.behind accepts) := by
  obtain ⟨between, hstops, -⟩ := Spot.exists_runStops spot.index spot.prev spot.rest []
  obtain ⟨found, hfound⟩ := Option.isSome_iff_exists.mp h
  rw [walk, hstops, List.findSome?_cons]
  simp only [hfound]

/-- A run takes all it can if nothing comes after it before a character of the class. -/
theorem walk_run_of_forall_none
    (h : ∀ stop : Spot, (∃ c ∈ stop.rest.head?, accepts c = true) → next stop = none) :
    (run accepts).walk spot next = next (spot.behind accepts) := by
  obtain ⟨between, hstops, hbetween⟩ := Spot.exists_runStops spot.index spot.prev spot.rest []
  have hnone : between.findSome? next = none :=
    List.findSome?_eq_none_iff.mpr fun stop hstop => h stop (hbetween stop hstop)
  rw [walk, hstops, List.findSome?_cons, List.append_nil, hnone]
  cases next (spot.behind accepts) <;> rfl

/-- As many characters of a class as there are, one of a second class, and as many of a third as there are. -/
def around (before mark after : Char → Bool) (text : List Char) : Option (List Char) :=
  match text.dropWhile before with
  | [] => none
  | c :: rest => if mark c then some (text.takeWhile before ++ c :: rest.takeWhile after) else none

variable {before mark after : Char → Bool} {body : Pattern} {take : Spot → Char → List Char → Spot}

/-- The first character that does not stand in front of the mark has to be the mark. -/
theorem around_of_forall {text : List Char} (htext : ∀ c ∈ text, before c = true) {c : Char}
    (hc : before c = false) (rest : List Char) :
    around before mark after (text ++ c :: rest) =
      if mark c then some (text ++ c :: rest.takeWhile after) else none := by
  have hstop : ¬ before c = true := Bool.eq_false_iff.mp hc
  rw [around, List.dropWhile_append_of_pos htext, List.takeWhile_append_of_pos htext,
    List.dropWhile_cons_of_neg hstop, List.takeWhile_cons_of_neg hstop, List.append_nil]

theorem around_cons_of_pos {c : Char} (hc : before c = true) (text : List Char) :
    around before mark after (c :: text) = (around before mark after text).map (c :: ·) := by
  rw [around, around, List.dropWhile_cons_of_pos hc, List.takeWhile_cons_of_pos hc]
  cases text.dropWhile before with
  | nil => rfl
  | cons d rest =>
    cases hd : mark d <;> simp [hd]

theorem exists_of_around_eq_some {text taken : List Char} (h : around before mark after text = some taken) :
    ∃ front c rest, text = front ++ c :: rest ∧ (∀ d ∈ front, before d = true) ∧ mark c = true ∧
      taken = front ++ c :: rest.takeWhile after := by
  have hfront : ∀ d ∈ text.takeWhile before, before d = true := List.all_eq_true.mp List.all_takeWhile
  rw [around] at h
  split at h
  · cases h
  · rename_i c rest hdrop
    rw [Option.ite_none_right_eq_some] at h
    refine ⟨text.takeWhile before, c, rest, ?_, hfront, h.1, (Option.some.inj h.2).symm⟩
    rw [← hdrop, List.takeWhile_append_dropWhile]

/-- If it comes earlier, then what stands behind a character that belongs to neither side does not matter. -/
theorem exists_around {text : List Char} (htext : ¬ ∀ c ∈ text, before c = true) {c : Char}
    (hc : after c = false) :
    ∃ result, (∀ rest, around before mark after (text ++ c :: rest) = result) ∧
      ∀ taken ∈ result, taken <+: text := by
  have hsome : (text.find? fun x => !before x).isSome = true := by
    rw [List.find?_isSome]
    simpa using htext
  obtain ⟨d, hfind⟩ := Option.isSome_iff_exists.mp hsome
  obtain ⟨hd, front, more, rfl, hfront⟩ := List.find?_eq_some_iff_append.mp hfind
  simp only [Bool.not_eq_true', Bool.not_not] at hd hfront
  refine ⟨if mark d then some (front ++ d :: more.takeWhile after) else none, fun rest => ?_,
    fun taken htaken => ?_⟩
  · have hmore : (more ++ c :: rest).takeWhile after = more.takeWhile after := by
      rw [List.takeWhile_append, List.takeWhile_cons_of_neg (Bool.eq_false_iff.mp hc)]
      split
      · rename_i hall
        rw [List.append_nil, (List.takeWhile_prefix after).eq_of_length hall]
      · rfl
    rw [List.append_assoc, List.cons_append, around_of_forall hfront hd, hmore]
  · rw [Option.mem_def, Option.ite_none_right_eq_some] at htaken
    obtain rfl := Option.some.inj htaken.2
    rw [List.prefix_append_right_inj]
    exact List.cons_prefix_cons.mpr ⟨rfl, List.takeWhile_prefix after⟩

/-- Runs on both sides of a character that the first of them does not accept take all they can. -/
theorem map_text_matchAt_around (hdisjoint : ∀ c, before c = true → mark c = false)
    (hbody : ∀ (spot : Spot) (next : Spot → Option Spot), body.walk spot next =
      match spot.rest with
      | [] => none
      | c :: rest => if mark c then next (take spot c rest) else none)
    (hindex : ∀ spot c rest, (take spot c rest).index = spot.index + 1)
    (hrest : ∀ spot c rest, (take spot c rest).rest = rest) (index : Nat) (prev : Option Char)
    (text : List Char) :
    ((run before ++ body ++ run after).matchAt index prev text).map Match.text =
      around before mark after text := by
  have hlast : ∀ spot : Spot, (run after).walk spot some = some (spot.behind after) := fun spot =>
    walk_run_of_isSome rfl
  have hwalk : (run before ++ body ++ run after).walk ⟨index, prev, text, []⟩ some =
      body.walk (Spot.behind ⟨index, prev, text, []⟩ before) fun stop => some (stop.behind after) := by
    simp only [walk_append, hlast]
    -- Any other stop stands before a character of the class, which is no mark.
    refine walk_run_of_forall_none ?_
    rintro stop ⟨c, hhead, hc⟩
    obtain ⟨rest, hstop⟩ := List.head?_eq_some_iff.mp hhead
    rw [hbody, hstop]
    exact if_neg (by rw [hdisjoint c hc]; exact Bool.false_ne_true)
  rw [matchAt, hwalk, hbody, around, Spot.behind, Spot.after_rest]
  cases hdrop : text.dropWhile before with
  | nil => rfl
  | cons c rest =>
    by_cases hc : mark c = true
    · have htext : text.takeWhile before ++ c :: rest.takeWhile after ++ rest.dropWhile after = text := by
        rw [List.append_assoc, List.cons_append, List.takeWhile_append_dropWhile, ← hdrop,
          List.takeWhile_append_dropWhile]
      have hlength : index + (text.takeWhile before).length + 1 + (rest.takeWhile after).length - index =
          (text.takeWhile before ++ c :: rest.takeWhile after).length := by
        rw [List.length_append, List.length_cons]
        omega
      have htake : (text.takeWhile before ++ c :: rest.takeWhile after ++ rest.dropWhile after).take
          (text.takeWhile before ++ c :: rest.takeWhile after).length =
            text.takeWhile before ++ c :: rest.takeWhile after := List.take_left
      rw [htext, ← hlength] at htake
      simp only [hc, if_true, Option.map_some, Spot.behind, Spot.after_index, hindex, hrest]
      exact congrArg some htake
    · simp only [hc, Bool.false_eq_true, if_false]
      rfl

end Pattern

end Minifier

/-!
## Small patterns

What the patterns take that rules are put together from: alternatives, conditions on a place, and
runs that go as far as they can.
-/

namespace Minifier.Pattern

variable {pattern : Pattern} {accepts : Char → Bool} {condition : Anchor} {prev : Option Char} {c : Char}
  {taken behind rest text : List Char} {reached : Spot}

/-- Where a walk ends at a spot behind some characters of the text, these are what is taken. -/
theorem exists_matchAt_of_walk {index : Nat} (h : pattern.walk ⟨index, prev, text, []⟩ some = some reached)
    (htext : text = taken ++ behind) (hindex : reached.index = index + taken.length) :
    ∃ found, pattern.matchAt index prev text = some found ∧ found.text = taken := by
  refine ⟨⟨index, text.take (reached.index - index), reached.labels⟩, by rw [matchAt, h, Option.map_some], ?_⟩
  rw [hindex, Nat.add_sub_cancel_left, htext, List.take_left]

theorem taken?_of_walk (h : pattern.walk ⟨0, prev, text, []⟩ some = some reached) (htext : text = taken ++ behind)
    (hindex : reached.index = taken.length) : pattern.taken? prev text = some taken := by
  obtain ⟨found, hfound, rfl⟩ := exists_matchAt_of_walk h htext (hindex.trans (Nat.zero_add _).symm)
  rw [taken?, hfound, Option.map_some]

theorem taken?_of_walk_eq_none (h : pattern.walk ⟨0, prev, text, []⟩ some = none) :
    pattern.taken? prev text = none := by
  rw [taken?, matchAt, h]
  rfl

theorem walk_alt {α : Type} (first second : Pattern) (spot : Spot) (next : Spot → Option α) :
    (alt first second).walk spot next = (first.walk spot next).or (second.walk spot next) := by
  rw [walk]
  cases first.walk spot next <;> rfl

/-- A match of the first pattern comes before one of the second. -/
theorem matchAt_alt (first second : Pattern) (index : Nat) (prev : Option Char) (text : List Char) :
    (alt first second).matchAt index prev text =
      (first.matchAt index prev text).or (second.matchAt index prev text) := by
  rw [matchAt, walk_alt, Option.map_or]
  rfl

/-- So does one of the first of two patterns under a label. -/
theorem matchAt_label_alt (name : Label) (first second : Pattern) (index : Nat) (prev : Option Char)
    (text : List Char) : (label name (alt first second)).matchAt index prev text =
      ((label name first).matchAt index prev text).or ((label name second).matchAt index prev text) := by
  rw [← matchAt_alt]
  rfl

theorem taken?_alt (first second : Pattern) (prev : Option Char) (text : List Char) :
    (alt first second).taken? prev text = (first.taken? prev text).or (second.taken? prev text) := by
  rw [taken?, matchAt_alt, taken?, taken?]
  cases first.matchAt 0 prev text <;> rfl

theorem taken?_anchor_append (condition : Anchor) (pattern : Pattern) (prev : Option Char) (text : List Char) :
    (anchor condition ++ pattern).taken? prev text =
      if condition.holds ⟨0, prev, text, []⟩ then pattern.taken? prev text else none := by
  have hwalk : (anchor condition ++ pattern).walk ⟨0, prev, text, []⟩ some =
      if condition.holds ⟨0, prev, text, []⟩ then pattern.walk ⟨0, prev, text, []⟩ some else none := rfl
  simp only [taken?, matchAt, hwalk]
  split <;> rfl

/-! ### Runs -/

theorem cons_takeWhile_append_dropWhile (c : Char) (accepts : Char → Bool) (rest : List Char) :
    c :: rest = c :: rest.takeWhile accepts ++ rest.dropWhile accepts := by
  rw [List.cons_append, List.takeWhile_append_dropWhile]

/-- A run that stops behind some characters takes these. -/
theorem takeWhile_append_of_head (htaken : ∀ c ∈ taken, accepts c = true)
    (hbehind : behind.head?.any accepts = false) :
    (taken ++ behind).takeWhile accepts = taken ∧ (taken ++ behind).dropWhile accepts = behind := by
  rw [List.takeWhile_append_of_pos htaken, List.dropWhile_append_of_pos htaken]
  cases behind with
  | nil => exact ⟨List.append_nil taken, rfl⟩
  | cons c behind =>
    have hc : ¬ accepts c = true := Bool.eq_false_iff.mp hbehind
    rw [List.takeWhile_cons_of_neg hc, List.dropWhile_cons_of_neg hc, List.append_nil]
    exact ⟨rfl, rfl⟩

/-- Behind the characters that a run takes stands none of its class. -/
theorem any_head?_dropWhile (accepts : Char → Bool) (text : List Char) :
    (text.dropWhile accepts).head?.any accepts = false := by
  have hstop := List.head?_dropWhile_not accepts text
  cases hrest : text.dropWhile accepts with
  | nil => rfl
  | cons c rest => simpa [hrest] using hstop

theorem walk_run1 {α : Type} (next : Spot → Option α) :
    (run1 accepts).walk ⟨0, prev, c :: rest, []⟩ next =
      if accepts c then (run accepts).walk ⟨1, some c, rest, []⟩ next else none := rfl

/-- A run takes all characters of its class. -/
theorem taken?_run1_of_pos (hc : accepts c = true) :
    (run1 accepts).taken? prev (c :: rest) = some (c :: rest.takeWhile accepts) := by
  have hwalk : (run1 accepts).walk ⟨0, prev, c :: rest, []⟩ some =
      some (Spot.behind ⟨1, some c, rest, []⟩ accepts) := by
    rw [walk_run1, if_pos hc]
    exact walk_run_of_isSome rfl
  exact taken?_of_walk hwalk (cons_takeWhile_append_dropWhile c accepts rest) (Nat.add_comm _ _)

theorem taken?_run1_of_neg (hc : accepts c = false) : (run1 accepts).taken? prev (c :: rest) = none :=
  taken?_of_walk_eq_none (by rw [walk_run1, hc]; rfl)

/-- If a condition fails before every character of the class, then a run up to a place where it holds takes all
of them as well. -/
theorem taken?_run1_anchor_of_pos (hc : accepts c = true)
    (hcondition : ∀ stop : Spot, (∃ d ∈ stop.rest.head?, accepts d = true) → condition.holds stop = false) :
    (run1 accepts ++ anchor condition).taken? prev (c :: rest) =
      if condition.holds (Spot.behind ⟨1, some c, rest, []⟩ accepts) then some (c :: rest.takeWhile accepts)
      else none := by
  have hwalk : (run1 accepts ++ anchor condition).walk ⟨0, prev, c :: rest, []⟩ some =
      if condition.holds (Spot.behind ⟨1, some c, rest, []⟩ accepts) then
        some (Spot.behind ⟨1, some c, rest, []⟩ accepts) else none := by
    rw [walk_append, walk_run1, if_pos hc]
    refine walk_run_of_forall_none fun stop hstop => ?_
    rw [walk, hcondition stop hstop]
    rfl
  split at hwalk
  · rename_i hholds
    rw [if_pos hholds]
    exact taken?_of_walk hwalk (cons_takeWhile_append_dropWhile c accepts rest) (Nat.add_comm _ _)
  · rename_i hholds
    rw [if_neg hholds]
    exact taken?_of_walk_eq_none hwalk

theorem taken?_run1_anchor_of_neg (hc : accepts c = false) :
    (run1 accepts ++ anchor condition).taken? prev (c :: rest) = none := by
  refine taken?_of_walk_eq_none ?_
  rw [walk_append, walk_run1, hc]
  rfl

/-! ### Lines -/

/-- Behind a line stands nothing, or a line break. -/
theorem dropWhile_inLine (text : List Char) :
    text.dropWhile Class.inLine = [] ∨ ∃ rest, text.dropWhile Class.inLine = '\n' :: rest := by
  cases hrest : text.dropWhile Class.inLine with
  | nil => exact Or.inl rfl
  | cons c rest =>
    have hnot := List.head?_dropWhile_not Class.inLine text
    rw [hrest] at hnot
    obtain rfl : c = '\n' := by simpa [Class.inLine] using hnot
    exact Or.inr ⟨rest, rfl⟩

end Minifier.Pattern
