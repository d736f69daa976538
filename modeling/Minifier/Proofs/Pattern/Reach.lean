import Minifier.Pattern.Match
import Mathlib.Logic.Relation

/-!
Which spots a pattern can lead to. A walk looks for the preferred way through a pattern; `Reaches`
forgets the preference and says which ways there are. A walk succeeds exactly if some reachable spot
lets it, so a law that holds of every reachable spot holds of every match.

What is taken along a way lies between its two spots, and so does whatever a label remembers of it.
The order in which a walk tries the spots is not described here.
-/

namespace Minifier

/-! ### Spots -/

/-- The last character of a text that has a first one does not depend on what stands before it. -/
theorem getLast?_cons_or (c : Char) (rest : List Char) (prev : Option Char) :
    (c :: rest).getLast?.or prev = rest.getLast?.or (some c) := by
  rw [List.getLast?_cons]
  cases rest.getLast? <;> rfl

namespace Spot

/-- The spot behind some characters taken from a spot. -/
def after (spot : Spot) (taken rest : List Char) : Spot :=
  ⟨spot.index + taken.length, taken.getLast?.or spot.prev, rest, spot.labels⟩

/-- A spot that also remembers what a label took since another spot. -/
def remember (name : Label) (since reached : Spot) : Spot :=
  { reached with
    labels := (name, ⟨since.index, reached.index - since.index, since.rest⟩) :: reached.labels }

@[simp] theorem after_index (spot : Spot) (taken rest : List Char) :
    (spot.after taken rest).index = spot.index + taken.length := rfl

@[simp] theorem after_prev (spot : Spot) (taken rest : List Char) :
    (spot.after taken rest).prev = taken.getLast?.or spot.prev := rfl

@[simp] theorem after_rest (spot : Spot) (taken rest : List Char) :
    (spot.after taken rest).rest = rest := rfl

@[simp] theorem after_labels (spot : Spot) (taken rest : List Char) :
    (spot.after taken rest).labels = spot.labels := rfl

@[simp] theorem remember_index (name : Label) (since reached : Spot) :
    (remember name since reached).index = reached.index := rfl

@[simp] theorem remember_rest (name : Label) (since reached : Spot) :
    (remember name since reached).rest = reached.rest := rfl

@[simp] theorem remember_labels (name : Label) (since reached : Spot) :
    (remember name since reached).labels =
      (name, ⟨since.index, reached.index - since.index, since.rest⟩) :: reached.labels := rfl

@[simp] theorem after_after (spot : Spot) (first second between rest : List Char) :
    (spot.after first between).after second rest = spot.after (first ++ second) rest := by
  have hprev : second.getLast?.or (first.getLast?.or spot.prev) =
      (first ++ second).getLast?.or spot.prev := by
    rw [List.getLast?_append, Option.or_assoc]
  simp [after, hprev, Nat.add_assoc]

end Spot

/-- Texts made of plain characters and of escaped ones. A backslash that is plain escapes nothing. -/
inductive EscapedUnits (plain follows : Char → Bool) : List Char → Prop where
  | nil : EscapedUnits plain follows []
  | plain {c : Char} {rest : List Char} : plain c = true → EscapedUnits plain follows rest →
      EscapedUnits plain follows (c :: rest)
  | escaped {d : Char} {rest : List Char} : plain '\\' = false → follows d = true →
      EscapedUnits plain follows rest → EscapedUnits plain follows ('\\' :: d :: rest)

/-! ### Reaching -/

namespace Pattern

/-- Whether a pattern can lead from one spot to another, by whatever choice among its alternatives. -/
def Reaches : Pattern → Spot → Spot → Prop
  | empty, spot, reached => reached = spot
  | one accepts, spot, reached =>
    ∃ c rest, spot.rest = c :: rest ∧ accepts c = true ∧ reached = spot.after [c] rest
  | run accepts, spot, reached =>
    ∃ taken rest, spot.rest = taken ++ rest ∧ (∀ c ∈ taken, accepts c = true) ∧
      reached = spot.after taken rest
  | shortRun accepts, spot, reached =>
    ∃ taken rest, spot.rest = taken ++ rest ∧ (∀ c ∈ taken, accepts c = true) ∧
      reached = spot.after taken rest
  | escapedRun plain follows, spot, reached =>
    ∃ taken rest, spot.rest = taken ++ rest ∧ EscapedUnits plain follows taken ∧
      reached = spot.after taken rest
  | anchor condition, spot, reached => condition.holds spot = true ∧ reached = spot
  | seq first second, spot, reached =>
    ∃ middle, first.Reaches spot middle ∧ second.Reaches middle reached
  | alt first second, spot, reached => first.Reaches spot reached ∨ second.Reaches spot reached
  | star body, spot, reached =>
    Relation.ReflTransGen (fun a b => body.Reaches a b ∧ a.index < b.index) spot reached
  | label name body, spot, reached =>
    ∃ inner, body.Reaches spot inner ∧ reached = Spot.remember name spot inner

end Pattern

/-! ### The stops of a run -/

namespace Spot

variable {accepts plain follows : Char → Bool} {labels : List (Label × Span)} {index : Nat}
  {prev : Option Char} {rest taken behind : List Char} {stops : List Spot} {stop : Spot}

private theorem after_cons (c : Char) :
    after ⟨index, prev, rest, labels⟩ (c :: taken) behind =
      after ⟨index + 1, some c, taken ++ behind, labels⟩ taken behind :=
  (after_after ⟨index, prev, rest, labels⟩ [c] taken (taken ++ behind) behind).symm

private theorem mem_runStops_of_mem (h : stop ∈ stops) :
    stop ∈ runStops accepts labels index prev rest stops := by
  induction rest generalizing index prev stops with
  | nil => simp [runStops, h]
  | cons c rest ih =>
    by_cases hc : accepts c = true
    · simpa [runStops, hc] using ih (List.mem_cons_of_mem _ h)
    · simp [runStops, hc, h]

/-- Every spot behind characters of the class is a stop. -/
theorem after_mem_runStops (h : ∀ c ∈ taken, accepts c = true) :
    after ⟨index, prev, taken ++ behind, labels⟩ taken behind ∈
      runStops accepts labels index prev (taken ++ behind) stops := by
  induction taken generalizing index prev stops with
  | nil =>
    cases behind with
    | nil => simp [runStops, after]
    | cons c behind =>
      by_cases hc : accepts c = true
      · simpa [runStops, hc, after] using mem_runStops_of_mem (List.mem_cons_self ..)
      · simp [runStops, hc, after]
  | cons c taken ih =>
    rw [List.forall_mem_cons] at h
    simpa [runStops, h.1, after_cons] using ih h.2

/-- Every stop of a run stands behind characters of the class. -/
theorem exists_of_mem_runStops (h : stop ∈ runStops accepts labels index prev rest stops) :
    stop ∈ stops ∨ ∃ taken behind, rest = taken ++ behind ∧
      (∀ c ∈ taken, accepts c = true) ∧ stop = after ⟨index, prev, rest, labels⟩ taken behind := by
  induction rest generalizing index prev stops with
  | nil =>
    rcases List.mem_cons.mp h with rfl | old
    · exact Or.inr ⟨[], [], rfl, by simp, rfl⟩
    · exact Or.inl old
  | cons c rest ih =>
    have hhere : stop ∈ (⟨index, prev, c :: rest, labels⟩ : Spot) :: stops →
        stop ∈ stops ∨ ∃ taken behind, c :: rest = taken ++ behind ∧
          (∀ d ∈ taken, accepts d = true) ∧
          stop = after ⟨index, prev, c :: rest, labels⟩ taken behind := by
      intro hmem
      rcases List.mem_cons.mp hmem with rfl | old
      · exact Or.inr ⟨[], c :: rest, rfl, by simp, rfl⟩
      · exact Or.inl old
    by_cases hc : accepts c = true
    · rw [runStops, if_pos hc] at h
      rcases ih h with here | ⟨taken, behind, rfl, htaken, rfl⟩
      · exact hhere here
      · exact Or.inr ⟨c :: taken, behind, rfl, List.forall_mem_cons.mpr ⟨hc, htaken⟩,
          (after_cons c).symm⟩
    · rw [runStops, if_neg hc] at h
      exact hhere h

theorem escapedStops_plain {c : Char} (hc : plain c = true) :
    escapedStops plain follows labels index prev (c :: rest) stops =
      escapedStops plain follows labels (index + 1) (some c) rest
        (⟨index, prev, c :: rest, labels⟩ :: stops) := by
  cases rest <;> simp [escapedStops, hc]

theorem escapedStops_escaped {d : Char} (hplain : plain '\\' = false) (hd : follows d = true) :
    escapedStops plain follows labels index prev ('\\' :: d :: rest) stops =
      escapedStops plain follows labels (index + 2) (some d) rest
        (⟨index, prev, '\\' :: d :: rest, labels⟩ :: stops) := by
  simp [escapedStops, hplain, hd]

private theorem mem_escapedStops_of_mem
    (h : stop ∈ (⟨index, prev, rest, labels⟩ : Spot) :: stops) :
    stop ∈ escapedStops plain follows labels index prev rest stops := by
  fun_induction escapedStops plain follows labels index prev rest stops with
  | case1 => exact h
  | case2 => exact List.mem_cons_of_mem _ h
  | case3 => exact h
  | case4 _ _ _ _ _ _ _ _ ih => exact ih (List.mem_cons_of_mem _ h)
  | case5 _ _ _ _ _ _ _ _ _ ih => exact ih (List.mem_cons_of_mem _ h)
  | case6 => exact h

/-- Every spot behind units is a stop. -/
theorem after_mem_escapedStops (h : EscapedUnits plain follows taken) :
    after ⟨index, prev, taken ++ behind, labels⟩ taken behind ∈
      escapedStops plain follows labels index prev (taken ++ behind) stops := by
  induction h generalizing index prev stops with
  | nil => exact mem_escapedStops_of_mem (List.mem_cons_self ..)
  | plain hc _ ih =>
    rw [List.cons_append, escapedStops_plain hc, after_cons]
    exact ih
  | escaped hplain hd _ ih =>
    rw [List.cons_append, List.cons_append, escapedStops_escaped hplain hd, after_cons,
      List.cons_append, after_cons]
    exact ih

/-- Every stop of a run of units stands behind units. -/
theorem exists_of_mem_escapedStops
    (h : stop ∈ escapedStops plain follows labels index prev rest stops) :
    stop ∈ stops ∨ ∃ taken behind, rest = taken ++ behind ∧
      EscapedUnits plain follows taken ∧ stop = after ⟨index, prev, rest, labels⟩ taken behind := by
  have hhere {index prev rest} {stops : List Spot}
      (hmem : stop ∈ (⟨index, prev, rest, labels⟩ : Spot) :: stops) :
      stop ∈ stops ∨ ∃ taken behind, rest = taken ++ behind ∧
        EscapedUnits plain follows taken ∧
        stop = after ⟨index, prev, rest, labels⟩ taken behind := by
    rcases List.mem_cons.mp hmem with rfl | old
    · exact Or.inr ⟨[], rest, rfl, .nil, rfl⟩
    · exact Or.inl old
  fun_induction escapedStops plain follows labels index prev rest stops with
  | case1 => exact hhere h
  | case2 index prev c stops _ hc =>
    rcases List.mem_cons.mp h with rfl | here
    · exact Or.inr ⟨[c], [], rfl, .plain hc .nil, rfl⟩
    · exact hhere here
  | case3 => exact hhere h
  | case4 index prev c d rest stops _ hc ih =>
    rcases ih h with here | ⟨taken, behind, hrest, htaken, rfl⟩
    · exact hhere here
    · refine Or.inr ⟨c :: taken, behind, by rw [hrest]; rfl, .plain hc htaken, ?_⟩
      rw [after_cons, ← hrest]
  | case5 index prev c d rest stops _ hc hescape ih =>
    obtain ⟨rfl, hd⟩ : c = '\\' ∧ follows d = true := by simpa using hescape
    rcases ih h with here | ⟨taken, behind, rfl, htaken, rfl⟩
    · exact hhere here
    · refine Or.inr ⟨'\\' :: d :: taken, behind, rfl, .escaped (by simpa using hc) hd htaken, ?_⟩
      rw [after_cons, List.cons_append, after_cons]
  | case6 => exact hhere h

/-- A success at a stop behind characters of the class makes the search for the nearest one succeed. -/
theorem firstStop_isSome {α : Type} {next : Spot → Option α} (h : ∀ c ∈ taken, accepts c = true)
    (hnext : (next (after ⟨index, prev, taken ++ behind, labels⟩ taken behind)).isSome = true) :
    (firstStop accepts labels next index prev (taken ++ behind)).isSome = true := by
  induction taken generalizing index prev with
  | nil =>
    have hhere : (next ⟨index, prev, behind, labels⟩).isSome = true := hnext
    cases behind with
    | nil => simpa [firstStop] using hhere
    | cons c behind =>
      obtain ⟨found, hfound⟩ := Option.isSome_iff_exists.mp hhere
      simp [firstStop, hfound]
  | cons c taken ih =>
    rw [List.forall_mem_cons] at h
    rw [List.cons_append, after_cons] at hnext
    rw [List.cons_append, firstStop]
    split
    · rfl
    · rw [if_pos h.1]
      exact ih h.2 hnext

/-- The search for the nearest success stops behind characters of the class. -/
theorem exists_of_firstStop {α : Type} {next : Spot → Option α} {found : α}
    (h : firstStop accepts labels next index prev rest = some found) :
    ∃ taken behind, rest = taken ++ behind ∧ (∀ c ∈ taken, accepts c = true) ∧
      next (after ⟨index, prev, rest, labels⟩ taken behind) = some found := by
  induction rest generalizing index prev with
  | nil => exact ⟨[], [], rfl, by simp, h⟩
  | cons c rest ih =>
    rw [firstStop] at h
    split at h
    · rename_i here hhere
      exact ⟨[], c :: rest, rfl, by simp, hhere.trans h⟩
    · by_cases hc : accepts c = true
      · rw [if_pos hc] at h
        obtain ⟨taken, behind, rfl, htaken, hnext⟩ := ih h
        refine ⟨c :: taken, behind, rfl, List.forall_mem_cons.mpr ⟨hc, htaken⟩, ?_⟩
        rw [after_cons]
        exact hnext
      · simp [hc] at h

end Spot

/-! ### Walks -/

namespace Pattern

variable {α : Type}

/-- Rounds that are each a way through a pattern and take something are a way through its repetition. -/
private theorem exists_of_rounds {step : Spot → (Spot → Option α) → Option α}
    {next : Spot → Option α} {way : Spot → Spot → Prop} {found : α}
    (hstep : ∀ spot onward found, step spot onward = some found →
      ∃ reached, way spot reached ∧ onward reached = some found)
    (n : Nat) (spot : Spot) (h : rounds step next n spot = some found) :
    ∃ reached, Relation.ReflTransGen (fun a b => way a b ∧ a.index < b.index) spot reached ∧
      next reached = some found := by
  induction n generalizing spot with
  | zero => exact ⟨spot, .refl, h⟩
  | succ n ih =>
    rw [rounds] at h
    split at h
    · rename_i here hround
      obtain ⟨middle, hway, honward⟩ := hstep _ _ _ hround
      split at honward
      · rename_i hprogress
        obtain ⟨reached, hmore, hnext⟩ := ih middle (honward.trans h)
        exact ⟨reached, .head ⟨hway, hprogress⟩ hmore, hnext⟩
      · cases honward
    · exact ⟨spot, .refl, h⟩

/-- A walk that succeeds has reached a spot that lets it. -/
theorem exists_of_walk {pattern : Pattern} {spot : Spot} {next : Spot → Option α} {found : α}
    (h : pattern.walk spot next = some found) :
    ∃ reached, pattern.Reaches spot reached ∧ next reached = some found := by
  induction pattern generalizing spot next found with
  | empty => exact ⟨spot, rfl, h⟩
  | one accepts =>
    rw [walk] at h
    split at h
    · cases h
    · rename_i c rest hrest
      split at h
      · rename_i hc
        exact ⟨_, ⟨c, rest, hrest, hc, rfl⟩, h⟩
      · cases h
  | run accepts =>
    obtain ⟨stop, hstop, hnext⟩ := List.exists_of_findSome?_eq_some h
    rcases Spot.exists_of_mem_runStops hstop with old | hreach
    · cases old
    · exact ⟨stop, hreach, hnext⟩
  | shortRun accepts =>
    obtain ⟨taken, behind, hrest, htaken, hnext⟩ := Spot.exists_of_firstStop h
    exact ⟨_, ⟨taken, behind, hrest, htaken, rfl⟩, hnext⟩
  | escapedRun plain follows =>
    obtain ⟨stop, hstop, hnext⟩ := List.exists_of_findSome?_eq_some h
    rcases Spot.exists_of_mem_escapedStops hstop with old | hreach
    · cases old
    · exact ⟨stop, hreach, hnext⟩
  | anchor condition =>
    rw [walk] at h
    split at h
    · rename_i hholds
      exact ⟨spot, ⟨hholds, rfl⟩, h⟩
    · cases h
  | seq first second ihfirst ihsecond =>
    obtain ⟨middle, hfirst, hmiddle⟩ := ihfirst h
    obtain ⟨reached, hsecond, hnext⟩ := ihsecond hmiddle
    exact ⟨reached, ⟨middle, hfirst, hsecond⟩, hnext⟩
  | alt first second ihfirst ihsecond =>
    rw [walk] at h
    split at h
    · rename_i here hfirst
      obtain ⟨reached, hreach, hnext⟩ := ihfirst hfirst
      exact ⟨reached, Or.inl hreach, hnext.trans h⟩
    · obtain ⟨reached, hreach, hnext⟩ := ihsecond h
      exact ⟨reached, Or.inr hreach, hnext⟩
  | star body ih =>
    have hround (spot : Spot) (onward : Spot → Option α) (found : α)
        (hwalk : body.walk spot onward = some found) :
        ∃ reached, body.Reaches spot reached ∧ onward reached = some found := ih hwalk
    exact exists_of_rounds hround spot.rest.length spot h
  | label name body ih =>
    obtain ⟨inner, hinner, hnext⟩ := ih h
    exact ⟨_, ⟨inner, hinner, rfl⟩, hnext⟩

/-- What is left after a way through a pattern, and what was taken before it, make up the text that
the way began at. -/
theorem Reaches.length_add {pattern : Pattern} {spot reached : Spot}
    (h : pattern.Reaches spot reached) :
    reached.index + reached.rest.length = spot.index + spot.rest.length := by
  induction pattern generalizing spot reached with
  | empty => rw [h]
  | one accepts =>
    obtain ⟨c, rest, hrest, -, rfl⟩ := h
    simp [hrest]
    omega
  | run accepts | shortRun accepts | escapedRun plain follows =>
    obtain ⟨taken, rest, hrest, -, rfl⟩ := h
    simp [hrest]
    omega
  | anchor condition => rw [h.2]
  | seq first second ihfirst ihsecond =>
    obtain ⟨middle, hfirst, hsecond⟩ := h
    exact (ihsecond hsecond).trans (ihfirst hfirst)
  | alt first second ihfirst ihsecond =>
    rcases h with hfirst | hsecond
    · exact ihfirst hfirst
    · exact ihsecond hsecond
  | star body ih =>
    induction h with
    | refl => rfl
    | tail _ hround ihround => exact (ih hround.1).trans ihround
  | label name body ih =>
    obtain ⟨inner, hinner, rfl⟩ := h
    rw [Spot.remember_index, Spot.remember_rest]
    exact ih hinner

/-- Each round takes something, so as many rounds as there are characters are enough for any way
through a repetition. -/
private theorem rounds_isSome {step : Spot → (Spot → Option α) → Option α}
    {next : Spot → Option α} {way : Spot → Spot → Prop} {spot reached : Spot}
    (hstep : ∀ spot onward reached, way spot reached → (onward reached).isSome = true →
      (step spot onward).isSome = true)
    (hlength : ∀ spot reached, way spot reached →
      reached.index + reached.rest.length = spot.index + spot.rest.length)
    (hway : Relation.ReflTransGen (fun a b => way a b ∧ a.index < b.index) spot reached)
    (hnext : (next reached).isSome = true) (n : Nat) (hn : spot.rest.length ≤ n) :
    (rounds step next n spot).isSome = true := by
  induction hway using Relation.ReflTransGen.head_induction_on generalizing n with
  | refl =>
    cases n with
    | zero => exact hnext
    | succ n =>
      rw [rounds]
      split
      · rfl
      · exact hnext
  | @head spot middle hround _ ih =>
    have hlen := hlength spot middle hround.1
    obtain ⟨n, rfl⟩ : ∃ m, n = m + 1 := ⟨n - 1, by omega⟩
    have hsome : (step spot fun reached =>
        if spot.index < reached.index then rounds step next n reached else none).isSome = true := by
      refine hstep spot _ middle hround.1 ?_
      rw [if_pos hround.2]
      exact ih n (by omega)
    rw [rounds]
    split
    · rfl
    · rename_i hnone
      rw [hnone] at hsome
      cases hsome

/-- A walk succeeds if some reachable spot lets it. -/
theorem walk_isSome {pattern : Pattern} {spot reached : Spot} {next : Spot → Option α}
    (h : pattern.Reaches spot reached) (hnext : (next reached).isSome = true) :
    (pattern.walk spot next).isSome = true := by
  induction pattern generalizing spot reached next with
  | empty =>
    obtain rfl := h
    exact hnext
  | one accepts =>
    obtain ⟨c, rest, hrest, hc, rfl⟩ := h
    simp only [walk, hrest, hc, if_true]
    exact hnext
  | run accepts =>
    obtain ⟨taken, rest, hrest, htaken, rfl⟩ := h
    rw [walk, hrest, List.findSome?_isSome_iff]
    refine ⟨spot.after taken rest, ?_, hnext⟩
    exact Spot.after_mem_runStops htaken
  | shortRun accepts =>
    obtain ⟨taken, rest, hrest, htaken, rfl⟩ := h
    rw [walk, hrest]
    exact Spot.firstStop_isSome htaken hnext
  | escapedRun plain follows =>
    obtain ⟨taken, rest, hrest, htaken, rfl⟩ := h
    rw [walk, hrest, List.findSome?_isSome_iff]
    refine ⟨spot.after taken rest, ?_, hnext⟩
    exact Spot.after_mem_escapedStops htaken
  | anchor condition =>
    obtain ⟨hholds, rfl⟩ := h
    rw [walk, if_pos hholds]
    exact hnext
  | seq first second ihfirst ihsecond =>
    obtain ⟨middle, hfirst, hsecond⟩ := h
    exact ihfirst hfirst (ihsecond hsecond hnext)
  | alt first second ihfirst ihsecond =>
    rw [walk]
    split
    · rfl
    · rename_i hnone
      rcases h with hfirst | hsecond
      · have hsome := ihfirst hfirst hnext
        rw [hnone] at hsome
        cases hsome
      · exact ihsecond hsecond hnext
  | star body ih =>
    have hround (spot : Spot) (onward : Spot → Option α) (reached : Spot)
        (hreach : body.Reaches spot reached) (hsome : (onward reached).isSome = true) :
        (body.walk spot onward).isSome = true := ih hreach hsome
    exact rounds_isSome hround (fun _ _ => Reaches.length_add) h hnext _ (Nat.le_refl _)
  | label name body ih =>
    obtain ⟨inner, hinner, rfl⟩ := h
    exact ih hinner hnext

end Pattern

end Minifier
