import Minifier.Proofs.Pattern.Shape
import Mathlib.Data.List.Basic

/-!
How far a pattern sees. A pattern that accepts a character nowhere never gets past it, so what it takes
at a place depends only on the text up to that character and on the character before the place, not on
what comes later and not on the index.
-/

namespace Minifier

/-- Texts that are the same up to and including a character, or as a whole. -/
inductive SameUpTo (c : Char) : List Char → List Char → Prop where
  | nil : SameUpTo c [] []
  | stop {rest rest' : List Char} : SameUpTo c (c :: rest) (c :: rest')
  | cons {d : Char} {rest rest' : List Char} : SameUpTo c rest rest' → SameUpTo c (d :: rest) (d :: rest')

/-- How many characters stand before the first one of a kind. -/
def room (c : Char) : List Char → Nat
  | [] => 0
  | d :: rest => if d = c then 0 else room c rest + 1

theorem room_le_length (c : Char) (text : List Char) : room c text ≤ text.length := by
  induction text with
  | nil => exact Nat.le_refl _
  | cons d rest ih =>
    rw [room]
    split
    · exact Nat.zero_le _
    · exact Nat.succ_le_succ ih

namespace SameUpTo

variable {c : Char} {text text' : List Char}

theorem refl (text : List Char) : SameUpTo c text text := by
  induction text with
  | nil => exact nil
  | cons d rest ih => exact cons ih

theorem append (before : List Char) (h : SameUpTo c text text') :
    SameUpTo c (before ++ text) (before ++ text') := by
  induction before with
  | nil => exact h
  | cons d before ih => exact cons ih

theorem head?_eq (h : SameUpTo c text text') : text.head? = text'.head? := by
  cases h <;> rfl

theorem isEmpty_eq (h : SameUpTo c text text') : text.isEmpty = text'.isEmpty := by
  cases h <;> rfl

theorem room_eq (h : SameUpTo c text text') : room c text = room c text' := by
  induction h with
  | nil => rfl
  | stop => rw [room, room, if_pos rfl, if_pos rfl]
  | cons _ ih => rw [room, room, ih]

theorem take_eq (h : SameUpTo c text text') {n : Nat} (hn : n ≤ room c text) : text.take n = text'.take n := by
  induction h generalizing n with
  | nil => rfl
  | stop =>
    rw [room, if_pos rfl] at hn
    rw [Nat.le_zero.mp hn, List.take_zero, List.take_zero]
  | @cons d rest rest' _ ih =>
    cases n with
    | zero => rfl
    | succ n =>
      rw [room] at hn
      split at hn
      · exact absurd hn (Nat.not_succ_le_zero n)
      · rw [List.take_succ_cons, List.take_succ_cons, ih (Nat.le_of_succ_le_succ hn)]

end SameUpTo

/-- Spots after which the text is the same up to a character. The limits are the indices of that character. -/
structure Spot.Alike (c : Char) (limit limit' : Nat) (spot spot' : Spot) : Prop where
  prev : spot.prev = spot'.prev
  rest : SameUpTo c spot.rest spot'.rest
  index : spot.index + room c spot.rest = limit
  index' : spot'.index + room c spot.rest = limit'

namespace Spot

variable {c : Char} {limit limit' : Nat} {accepts plain follows : Char → Bool}
  {labels labels' : List (Label × Span)} {index index' : Nat} {prev : Option Char} {rest rest' : List Char}
  {stops stops' : List Spot}

/-- A character before the stopper is passed in both texts. -/
theorem Alike.step {d : Char} (hd : d ≠ c)
    (h : Alike c limit limit' ⟨index, prev, d :: rest, labels⟩ ⟨index', prev, d :: rest', labels'⟩)
    (hrest : SameUpTo c rest rest') :
    Alike c limit limit' ⟨index + 1, some d, rest, labels⟩ ⟨index' + 1, some d, rest', labels'⟩ := by
  obtain ⟨-, -, hindex, hindex'⟩ := h
  simp only [room, if_neg hd] at hindex hindex'
  exact ⟨rfl, hrest, by simpa [Nat.add_assoc, Nat.add_comm 1] using hindex,
    by simpa [Nat.add_assoc, Nat.add_comm 1] using hindex'⟩

theorem ne_of_accepts (hc : accepts c = false) {d : Char} (hd : accepts d = true) : d ≠ c := by
  rintro rfl
  rw [hc] at hd
  cases hd

theorem forall₂_runStops (hc : accepts c = false) (hrest : SameUpTo c rest rest')
    (h : Alike c limit limit' ⟨index, prev, rest, labels⟩ ⟨index', prev, rest', labels'⟩)
    (hstops : List.Forall₂ (Alike c limit limit') stops stops') :
    List.Forall₂ (Alike c limit limit') (runStops accepts labels index prev rest stops)
      (runStops accepts labels' index' prev rest' stops') := by
  induction hrest generalizing index index' prev stops stops' with
  | nil => exact .cons h hstops
  | stop =>
    simp only [runStops, hc, Bool.false_eq_true, if_false]
    exact .cons h hstops
  | @cons d rest rest' hrest ih =>
    rw [runStops, runStops]
    by_cases hd : accepts d = true
    · rw [if_pos hd, if_pos hd]
      exact ih (h.step (ne_of_accepts hc hd) hrest) (.cons h hstops)
    · rw [if_neg hd, if_neg hd]
      exact .cons h hstops

theorem escapedStops_stop {d : Char} (hplain : plain d = false)
    (hescape : d ≠ '\\' ∨ ∀ e ∈ rest.head?, follows e = false) :
    escapedStops plain follows labels index prev (d :: rest) stops = ⟨index, prev, d :: rest, labels⟩ :: stops := by
  cases rest with
  | nil => simp [escapedStops, hplain]
  | cons e rest =>
    have hnot : (d == '\\' && follows e) = false := by
      rcases hescape with hd | he
      · simp [hd]
      · simp [he e rfl]
    simp [escapedStops, hplain, hnot]

theorem forall₂_escapedStops (hplain : plain c = false) (hfollows : follows c = false) (hescape : c ≠ '\\') :
    {rest rest' : List Char} → SameUpTo c rest rest' → {index index' : Nat} → {prev : Option Char} →
      {stops stops' : List Spot} →
      Alike c limit limit' ⟨index, prev, rest, labels⟩ ⟨index', prev, rest', labels'⟩ →
      List.Forall₂ (Alike c limit limit') stops stops' →
      List.Forall₂ (Alike c limit limit') (escapedStops plain follows labels index prev rest stops)
        (escapedStops plain follows labels' index' prev rest' stops')
  | _, _, .nil, _, _, _, _, _, h, hstops => .cons h hstops
  | _, _, .stop, _, _, _, _, _, h, hstops => by
    rw [escapedStops_stop hplain (Or.inl hescape), escapedStops_stop hplain (Or.inl hescape)]
    exact .cons h hstops
  | d :: rest, _ :: rest', .cons hrest, index, index', prev, stops, stops', h, hstops => by
    by_cases hd : plain d = true
    · rw [escapedStops_plain hd, escapedStops_plain hd]
      exact forall₂_escapedStops hplain hfollows hescape hrest (h.step (ne_of_accepts hplain hd) hrest)
        (.cons h hstops)
    · have hd : plain d = false := Bool.eq_false_iff.mpr hd
      cases hrest with
      | nil =>
        rw [escapedStops_stop hd (Or.inr (by simp)), escapedStops_stop hd (Or.inr (by simp))]
        exact .cons h hstops
      | stop =>
        have hstop : ∀ rest : List Char, ∀ e ∈ (c :: rest).head?, follows e = false := by simpa using hfollows
        rw [escapedStops_stop hd (Or.inr (hstop _)), escapedStops_stop hd (Or.inr (hstop _))]
        exact .cons h hstops
      | @cons e rest rest' hrest =>
        have hstop (hnot : d ≠ '\\' ∨ follows e = false) (rest : List Char) :
            d ≠ '\\' ∨ ∀ f ∈ (e :: rest).head?, follows f = false := by simpa using hnot
        by_cases hbackslash : d = '\\'
        · by_cases he : follows e = true
          · subst hbackslash
            rw [escapedStops_escaped hd he, escapedStops_escaped hd he]
            exact forall₂_escapedStops hplain hfollows hescape hrest
              ((h.step hescape.symm (.cons hrest)).step (ne_of_accepts hfollows he) hrest) (.cons h hstops)
          · have hnot := hstop (Or.inr (Bool.eq_false_iff.mpr he))
            rw [escapedStops_stop hd (hnot _), escapedStops_stop hd (hnot _)]
            exact .cons h hstops
        · have hnot := hstop (Or.inl hbackslash)
          rw [escapedStops_stop hd (hnot _), escapedStops_stop hd (hnot _)]
          exact .cons h hstops

variable {α : Type} {same : α → α → Prop} {next next' : Spot → Option α}

/-- The first of two results that is one. -/
theorem rel_match {first second first' second' : Option α} :
    Option.Rel same first first' → Option.Rel same second second' →
    Option.Rel same
      (match first with | some found => some found | none => second)
      (match first' with | some found => some found | none => second')
  | .some h, _ => .some h
  | .none, hsecond => hsecond

theorem rel_findSome? (hstops : List.Forall₂ (Alike c limit limit') stops stops')
    (hnext : ∀ stop stop', Alike c limit limit' stop stop' → Option.Rel same (next stop) (next' stop')) :
    Option.Rel same (stops.findSome? next) (stops'.findSome? next') := by
  induction hstops with
  | nil => exact .none
  | cons hstop _ ih =>
    rw [List.findSome?_cons, List.findSome?_cons]
    exact rel_match (hnext _ _ hstop) ih

theorem rel_firstStop (hc : accepts c = false) (hrest : SameUpTo c rest rest')
    (h : Alike c limit limit' ⟨index, prev, rest, labels⟩ ⟨index', prev, rest', labels'⟩)
    (hnext : ∀ stop stop', Alike c limit limit' stop stop' → Option.Rel same (next stop) (next' stop')) :
    Option.Rel same (firstStop accepts labels next index prev rest)
      (firstStop accepts labels' next' index' prev rest') := by
  induction hrest generalizing index index' prev with
  | nil => exact hnext _ _ h
  | stop =>
    simp only [firstStop, hc, Bool.false_eq_true, if_false]
    exact rel_match (hnext _ _ h) .none
  | @cons d rest rest' hrest ih =>
    rw [firstStop, firstStop]
    by_cases hd : accepts d = true
    · rw [if_pos hd, if_pos hd]
      exact rel_match (hnext _ _ h) (ih (h.step (ne_of_accepts hc hd) hrest))
    · rw [if_neg hd, if_neg hd]
      exact rel_match (hnext _ _ h) .none

end Spot

namespace Pattern

variable {pattern : Pattern} {c : Char} {limit limit' : Nat} {spot spot' : Spot} {α : Type}
  {same : α → α → Prop} {next next' : Spot → Option α}

/-- A round that takes something needs room for it. -/
theorem walk_eq_none_of_room (hc : pattern.avoids c = true) (hroom : room c spot.rest = 0)
    (hnext : ∀ reached : Spot, reached.index = spot.index → next reached = none) :
    pattern.walk spot next = none := by
  cases hwalk : pattern.walk spot next with
  | none => rfl
  | some found =>
    obtain ⟨reached, hreach, hfound⟩ := exists_of_walk hwalk
    obtain ⟨taken, closed, hpassage, htakes⟩ := hreach.exists_passage
    have htaken : taken = [] := by
      cases taken with
      | nil => rfl
      | cons d taken =>
        rw [hpassage.rest, List.cons_append, room] at hroom
        split at hroom
        · rename_i hd
          rw [hd] at htakes
          exact absurd List.mem_cons_self (htakes.not_mem hc)
        · cases hroom
    rw [hnext reached (by rw [hpassage.index, htaken]; rfl)] at hfound
    cases hfound

theorem rounds_of_room (hc : pattern.avoids c = true) (hroom : room c spot.rest = 0) (n : Nat) :
    rounds (fun reached onward => pattern.walk reached onward) next n spot = next spot := by
  cases n with
  | zero => rfl
  | succ n =>
    rw [rounds, walk_eq_none_of_room hc hroom]
    intro reached hindex
    rw [hindex, if_neg (Nat.lt_irrefl _)]

/-- Rounds go alike. How many of them may come does not matter as long as that is enough for the room. -/
theorem rel_rounds (hc : pattern.avoids c = true)
    (hbody : ∀ {spot spot' : Spot} {next next' : Spot → Option α}, Spot.Alike c limit limit' spot spot' →
      (∀ stop stop', Spot.Alike c limit limit' stop stop' → Option.Rel same (next stop) (next' stop')) →
      Option.Rel same (pattern.walk spot next) (pattern.walk spot' next'))
    (hnext : ∀ stop stop', Spot.Alike c limit limit' stop stop' → Option.Rel same (next stop) (next' stop'))
    (n n' : Nat) {spot spot' : Spot} (h : Spot.Alike c limit limit' spot spot')
    (hn : room c spot.rest ≤ n) (hn' : room c spot.rest ≤ n') :
    Option.Rel same (rounds (fun reached onward => pattern.walk reached onward) next n spot)
      (rounds (fun reached onward => pattern.walk reached onward) next' n' spot') := by
  induction n generalizing n' spot spot' with
  | zero =>
    have hroom := Nat.le_zero.mp hn
    rw [rounds_of_room hc hroom, rounds_of_room hc (h.rest.room_eq ▸ hroom)]
    exact hnext _ _ h
  | succ n ih =>
    cases n' with
    | zero =>
      have hroom := Nat.le_zero.mp hn'
      rw [rounds_of_room hc hroom, rounds_of_room hc (h.rest.room_eq ▸ hroom)]
      exact hnext _ _ h
    | succ n' =>
      rw [rounds, rounds]
      refine Spot.rel_match (hbody h fun stop stop' hstop => ?_) (hnext _ _ h)
      have hindices := h.index.trans hstop.index.symm
      have hindices' := h.index'.trans hstop.index'.symm
      -- A round that takes something leaves less room, in both texts alike.
      by_cases hprogress : spot.index < stop.index
      · rw [if_pos hprogress, if_pos (by omega)]
        exact ih n' hstop (by omega) (by omega)
      · rw [if_neg hprogress, if_neg (by omega)]
        exact .none

/-- A condition sees one character to each side. -/
theorem holds_eq (condition : Anchor) (h : Spot.Alike c limit limit' spot spot') :
    condition.holds spot = condition.holds spot' := by
  have hhead := h.rest.head?_eq
  have hempty := h.rest.isEmpty_eq
  cases condition <;> simp only [Anchor.holds, h.prev, hhead, hempty]

/-- A walk through a pattern that accepts a character nowhere goes the same way in texts that are the
same up to it. -/
theorem rel_walk (hc : pattern.avoids c = true) (h : Spot.Alike c limit limit' spot spot')
    (hnext : ∀ stop stop', Spot.Alike c limit limit' stop stop' → Option.Rel same (next stop) (next' stop')) :
    Option.Rel same (pattern.walk spot next) (pattern.walk spot' next') := by
  induction pattern generalizing spot spot' next next' with
  | empty => exact hnext _ _ h
  | one accepts =>
    obtain ⟨index, prev, rest, labels⟩ := spot
    obtain ⟨index', prev', rest', labels'⟩ := spot'
    obtain rfl : prev = prev' := h.prev
    have hclass : accepts c = false := by simpa [avoids] using hc
    have hrest : SameUpTo c rest rest' := h.rest
    cases hrest with
    | nil => exact .none
    | stop =>
      simp only [walk, hclass, Bool.false_eq_true, if_false]
      exact .none
    | @cons d rest rest' hrest =>
      by_cases hd : accepts d = true
      · simp only [walk, hd, if_true]
        exact hnext _ _ (h.step (Spot.ne_of_accepts hclass hd) hrest)
      · simp only [walk, hd, Bool.false_eq_true, if_false]
        exact .none
  | run accepts =>
    obtain ⟨index, prev, rest, labels⟩ := spot
    obtain ⟨index', prev', rest', labels'⟩ := spot'
    obtain rfl : prev = prev' := h.prev
    have hclass : accepts c = false := by simpa [avoids] using hc
    exact Spot.rel_findSome? (Spot.forall₂_runStops hclass h.rest h .nil) hnext
  | shortRun accepts =>
    obtain ⟨index, prev, rest, labels⟩ := spot
    obtain ⟨index', prev', rest', labels'⟩ := spot'
    obtain rfl : prev = prev' := h.prev
    have hclass : accepts c = false := by simpa [avoids] using hc
    exact Spot.rel_firstStop hclass h.rest h hnext
  | escapedRun plain follows =>
    obtain ⟨index, prev, rest, labels⟩ := spot
    obtain ⟨index', prev', rest', labels'⟩ := spot'
    obtain rfl : prev = prev' := h.prev
    simp only [avoids, Bool.and_eq_true, Bool.not_eq_true', bne_iff_ne] at hc
    exact Spot.rel_findSome? (Spot.forall₂_escapedStops hc.1.1 hc.1.2 hc.2 h.rest h .nil) hnext
  | anchor condition =>
    rw [walk, walk, ← holds_eq condition h]
    split
    · exact hnext _ _ h
    · exact .none
  | seq first second ihfirst ihsecond =>
    rw [avoids, Bool.and_eq_true] at hc
    exact ihfirst hc.1 h fun stop stop' hstop => ihsecond hc.2 hstop hnext
  | alt first second ihfirst ihsecond =>
    rw [avoids, Bool.and_eq_true] at hc
    exact Spot.rel_match (ihfirst hc.1 h hnext) (ihsecond hc.2 h hnext)
  | star body ih =>
    have hbody : body.avoids c = true := hc
    have hroom : room c spot.rest ≤ spot'.rest.length := by
      rw [h.rest.room_eq]
      exact room_le_length c _
    exact rel_rounds hbody (ih hbody) hnext _ _ h (room_le_length c _) hroom
  | label name body ih =>
    exact ih hc h fun stop stop' hstop => hnext _ _ ⟨hstop.prev, hstop.rest, hstop.index, hstop.index'⟩

/-- What a pattern takes at a place, if it matches there. -/
def taken? (pattern : Pattern) (prev : Option Char) (rest : List Char) : Option (List Char) :=
  (pattern.matchAt 0 prev rest).map Match.text

/-- A pattern that accepts a character nowhere takes the same of texts that are the same up to it, and
it does not matter where the place is. -/
theorem map_text_matchAt (hc : pattern.avoids c = true) {rest rest' : List Char} (hrest : SameUpTo c rest rest')
    (index : Nat) (prev : Option Char) :
    (pattern.matchAt index prev rest).map Match.text = pattern.taken? prev rest' := by
  have halike : Spot.Alike c (index + room c rest) (room c rest) ⟨index, prev, rest, []⟩ ⟨0, prev, rest', []⟩ :=
    ⟨rfl, hrest, rfl, Nat.zero_add _⟩
  have hwalk : Option.Rel (Spot.Alike c (index + room c rest) (room c rest))
      (pattern.walk ⟨index, prev, rest, []⟩ some) (pattern.walk ⟨0, prev, rest', []⟩ some) :=
    rel_walk hc halike fun _ _ hstop => .some hstop
  rw [taken?, matchAt, matchAt, Option.map_map, Option.map_map]
  generalize pattern.walk ⟨index, prev, rest, []⟩ some = walked at hwalk
  generalize pattern.walk ⟨0, prev, rest', []⟩ some = walked' at hwalk
  cases hwalk with
  | none => rfl
  | @some reached reached' hreached =>
    have hindex := hreached.index
    have hindex' := hreached.index'
    have hlength : reached.index - index = reached'.index - 0 := by omega
    rw [Option.map_some, Option.map_some, Function.comp, Function.comp, hlength, hrest.take_eq (by omega)]

theorem taken?_congr (hc : pattern.avoids c = true) {rest rest' : List Char} (hrest : SameUpTo c rest rest')
    (prev : Option Char) : pattern.taken? prev rest = pattern.taken? prev rest' :=
  map_text_matchAt hc hrest 0 prev

end Pattern

end Minifier
