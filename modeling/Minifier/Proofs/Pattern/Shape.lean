import Minifier.Proofs.Pattern.Match

/-!
What can be read off a pattern about every text that it takes. The tests look at the classes of the
pattern only at given characters, so they are evaluated for each pattern of a language.
-/

namespace Minifier

namespace Pattern

/-- Whether no class of a pattern accepts a character. -/
def avoids (c : Char) : Pattern → Bool
  | empty | anchor _ => true
  | one accepts | run accepts | shortRun accepts => !accepts c
  | escapedRun plain follows => !plain c && !follows c && c != '\\'
  | seq first second | alt first second => first.avoids c && second.avoids c
  | star body | label _ body => body.avoids c

/-- Whether a pattern has to take a character outside a list. -/
def exceeds (chars : List Char) : Pattern → Bool
  | one accepts => chars.all fun c => !accepts c
  | seq first second => first.exceeds chars || second.exceeds chars
  | alt first second => first.exceeds chars && second.exceeds chars
  | label _ body => body.exceeds chars
  | empty | run _ | shortRun _ | escapedRun .. | anchor _ | star _ => false

/-- Whether a pattern takes nothing. -/
def isBare : Pattern → Bool
  | empty | anchor _ => true
  | seq first second | alt first second => first.isBare && second.isBare
  | label _ body => body.isBare
  | one _ | run _ | shortRun _ | escapedRun .. | star _ => false

/-- Whether a pattern has to begin with a character outside a list. -/
def opensOutside (chars : List Char) : Pattern → Bool
  | one accepts => chars.all fun c => !accepts c
  | seq first second => first.opensOutside chars || first.isBare && second.opensOutside chars
  | alt first second => first.opensOutside chars && second.opensOutside chars
  | label _ body => body.opensOutside chars
  | empty | run _ | shortRun _ | escapedRun .. | anchor _ | star _ => false

/-- Whether a pattern has to end with a character outside a list. -/
def endsOutside (chars : List Char) : Pattern → Bool
  | one accepts => chars.all fun c => !accepts c
  | seq first second => second.endsOutside chars || second.isBare && first.endsOutside chars
  | alt first second => first.endsOutside chars && second.endsOutside chars
  | label _ body => body.endsOutside chars
  | empty | run _ | shortRun _ | escapedRun .. | anchor _ | star _ => false

/-- Whether a pattern has no labels. -/
def isUnlabelled : Pattern → Bool
  | seq first second | alt first second => first.isUnlabelled && second.isUnlabelled
  | star body => body.isUnlabelled
  | label _ _ => false
  | empty | one _ | run _ | shortRun _ | escapedRun .. | anchor _ => true

/-- Whether no label of a pattern has a given name. -/
def lacks (name : Label) : Pattern → Bool
  | seq first second | alt first second => first.lacks name && second.lacks name
  | star body => body.lacks name
  | label other body => name != other && body.lacks name
  | empty | one _ | run _ | shortRun _ | escapedRun .. | anchor _ => true

/-- Whether every match of a pattern passes a label of a given name. -/
def passes (name : Label) : Pattern → Bool
  | seq first second => first.passes name || second.passes name
  | alt first second => first.passes name && second.passes name
  | label other body => name == other || body.passes name
  | empty | one _ | run _ | shortRun _ | escapedRun .. | anchor _ | star _ => false

/-- How many characters a pattern takes at least. -/
def fewest : Pattern → Nat
  | one _ => 1
  | seq first second => first.fewest + second.fewest
  | alt first second => min first.fewest second.fewest
  | label _ body => body.fewest
  | empty | run _ | shortRun _ | escapedRun .. | anchor _ | star _ => 0

variable {pattern : Pattern} {prev : Option Char} {taken behind : List Char} {parts : Parts} {c : Char}
  {chars : List Char}

private theorem not_mem_of_class {accepts : Char → Bool} (hc : accepts c = false)
    (h : ∀ d ∈ taken, accepts d = true) : c ∉ taken := by
  intro hmem
  have := h c hmem
  rw [hc] at this
  cases this

private theorem not_mem_of_escapedUnits {plain follows : Char → Bool} (hplain : plain c = false)
    (hfollows : follows c = false) (hc : c ≠ '\\') (h : EscapedUnits plain follows taken) :
    c ∉ taken := by
  induction h with
  | nil => simp
  | plain hd _ ih =>
    refine List.not_mem_cons_of_ne_of_not_mem ?_ ih
    rintro rfl
    rw [hplain] at hd
    cases hd
  | escaped _ hd _ ih =>
    refine List.not_mem_cons_of_ne_of_not_mem hc (List.not_mem_cons_of_ne_of_not_mem ?_ ih)
    rintro rfl
    rw [hfollows] at hd
    cases hd

/-- A pattern takes no character that it avoids. -/
theorem Takes.not_mem (h : pattern.Takes prev taken behind parts) (hc : pattern.avoids c = true) :
    c ∉ taken := by
  induction pattern generalizing prev taken behind parts with
  | empty =>
    rw [h.1]
    exact List.not_mem_nil
  | anchor condition =>
    rw [h.2.1]
    exact List.not_mem_nil
  | one accepts =>
    obtain ⟨⟨d, hd, rfl⟩, -⟩ := h
    exact not_mem_of_class (by simpa [avoids] using hc) (by simpa using hd)
  | run accepts | shortRun accepts =>
    exact not_mem_of_class (by simpa [avoids] using hc) h.1
  | escapedRun plain follows =>
    simp only [avoids, Bool.and_eq_true, Bool.not_eq_true', bne_iff_ne] at hc
    exact not_mem_of_escapedUnits hc.1.1 hc.1.2 hc.2 h.1
  | seq first second ihfirst ihsecond =>
    obtain ⟨before, after, _, _, hfirst, hsecond, rfl, -⟩ := h
    rw [avoids, Bool.and_eq_true] at hc
    exact List.not_mem_append (ihfirst hfirst hc.1) (ihsecond hsecond hc.2)
  | alt first second ihfirst ihsecond =>
    rw [avoids, Bool.and_eq_true] at hc
    rcases h with hfirst | hsecond
    · exact ihfirst hfirst hc.1
    · exact ihsecond hsecond hc.2
  | star body ih =>
    have hrounds : TakesRounds body.Takes prev taken behind parts := h
    clear h
    induction hrounds with
    | none => exact List.not_mem_nil
    | more _ _ hround ihrounds => exact List.not_mem_append ihrounds (ih hround hc)
  | label name body ih =>
    obtain ⟨inner, hbody, -⟩ := h
    exact ih hbody hc

private theorem not_mem_of_all {accepts : Char → Bool} (h : (chars.all fun c => !accepts c) = true)
    (hc : accepts c = true) : c ∉ chars := by
  intro hmem
  have hnot := List.all_eq_true.mp h c hmem
  rw [hc] at hnot
  cases hnot

/-- A pattern takes a character outside a list that it exceeds. -/
theorem Takes.exists_not_mem (h : pattern.Takes prev taken behind parts)
    (hchars : pattern.exceeds chars = true) : ∃ c ∈ taken, c ∉ chars := by
  induction pattern generalizing prev taken behind parts with
  | empty | anchor _ | run _ | shortRun _ | escapedRun _ _ | star _ _ => cases hchars
  | one accepts =>
    obtain ⟨⟨c, hc, rfl⟩, -⟩ := h
    exact ⟨c, List.mem_singleton_self c, not_mem_of_all hchars hc⟩
  | seq first second ihfirst ihsecond =>
    obtain ⟨before, after, _, _, hfirst, hsecond, rfl, -⟩ := h
    rcases Bool.or_eq_true_iff.mp hchars with hchars | hchars
    · obtain ⟨c, hc, hnot⟩ := ihfirst hfirst hchars
      exact ⟨c, List.mem_append_left _ hc, hnot⟩
    · obtain ⟨c, hc, hnot⟩ := ihsecond hsecond hchars
      exact ⟨c, List.mem_append_right _ hc, hnot⟩
  | alt first second ihfirst ihsecond =>
    rw [exceeds, Bool.and_eq_true] at hchars
    rcases h with hfirst | hsecond
    · exact ihfirst hfirst hchars.1
    · exact ihsecond hsecond hchars.2
  | label name body ih =>
    obtain ⟨inner, hbody, -⟩ := h
    exact ih hbody hchars

theorem Takes.eq_nil (h : pattern.Takes prev taken behind parts) (hbare : pattern.isBare = true) :
    taken = [] := by
  induction pattern generalizing prev taken behind parts with
  | empty => exact h.1
  | anchor condition => exact h.2.1
  | seq first second ihfirst ihsecond =>
    obtain ⟨before, after, _, _, hfirst, hsecond, rfl, -⟩ := h
    rw [isBare, Bool.and_eq_true] at hbare
    rw [ihfirst hfirst hbare.1, ihsecond hsecond hbare.2, List.append_nil]
  | alt first second ihfirst ihsecond =>
    rw [isBare, Bool.and_eq_true] at hbare
    rcases h with hfirst | hsecond
    · exact ihfirst hfirst hbare.1
    · exact ihsecond hsecond hbare.2
  | label name body ih =>
    obtain ⟨inner, hbody, -⟩ := h
    exact ih hbody hbare
  | one _ | run _ | shortRun _ | escapedRun _ _ | star _ _ => cases hbare

/-- A pattern that begins outside a list takes a first character that is not in it. -/
theorem Takes.exists_head (h : pattern.Takes prev taken behind parts)
    (hchars : pattern.opensOutside chars = true) : ∃ c rest, taken = c :: rest ∧ c ∉ chars := by
  induction pattern generalizing prev taken behind parts with
  | empty | anchor _ | run _ | shortRun _ | escapedRun _ _ | star _ _ => cases hchars
  | one accepts =>
    obtain ⟨⟨c, hc, rfl⟩, -⟩ := h
    exact ⟨c, [], rfl, not_mem_of_all hchars hc⟩
  | seq first second ihfirst ihsecond =>
    obtain ⟨before, after, _, _, hfirst, hsecond, rfl, -⟩ := h
    rw [opensOutside, Bool.or_eq_true, Bool.and_eq_true] at hchars
    rcases hchars with hopens | ⟨hbare, hopens⟩
    · obtain ⟨c, rest, rfl, hc⟩ := ihfirst hfirst hopens
      exact ⟨c, rest ++ after, rfl, hc⟩
    · rw [hfirst.eq_nil hbare, List.nil_append]
      exact ihsecond hsecond hopens
  | alt first second ihfirst ihsecond =>
    rw [opensOutside, Bool.and_eq_true] at hchars
    rcases h with hfirst | hsecond
    · exact ihfirst hfirst hchars.1
    · exact ihsecond hsecond hchars.2
  | label name body ih =>
    obtain ⟨inner, hbody, -⟩ := h
    exact ih hbody hchars

/-- A pattern that ends outside a list takes a last character that is not in it. -/
theorem Takes.exists_getLast? (h : pattern.Takes prev taken behind parts)
    (hchars : pattern.endsOutside chars = true) : ∃ c, taken.getLast? = some c ∧ c ∉ chars := by
  induction pattern generalizing prev taken behind parts with
  | empty | anchor _ | run _ | shortRun _ | escapedRun _ _ | star _ _ => cases hchars
  | one accepts =>
    obtain ⟨⟨c, hc, rfl⟩, -⟩ := h
    exact ⟨c, rfl, not_mem_of_all hchars hc⟩
  | seq first second ihfirst ihsecond =>
    obtain ⟨before, after, _, _, hfirst, hsecond, rfl, -⟩ := h
    rw [endsOutside, Bool.or_eq_true, Bool.and_eq_true] at hchars
    rcases hchars with hends | ⟨hbare, hends⟩
    · obtain ⟨c, hlast, hc⟩ := ihsecond hsecond hends
      exact ⟨c, by rw [List.getLast?_append, hlast, Option.some_or], hc⟩
    · rw [hsecond.eq_nil hbare, List.append_nil]
      exact ihfirst hfirst hends
  | alt first second ihfirst ihsecond =>
    rw [endsOutside, Bool.and_eq_true] at hchars
    rcases h with hfirst | hsecond
    · exact ihfirst hfirst hchars.1
    · exact ihsecond hsecond hchars.2
  | label name body ih =>
    obtain ⟨inner, hbody, -⟩ := h
    exact ih hbody hchars

/-- Without labels nothing is remembered. -/
theorem Takes.parts_eq_nil (h : pattern.Takes prev taken behind parts)
    (hunlabelled : pattern.isUnlabelled = true) : parts = [] := by
  induction pattern generalizing prev taken behind parts with
  | empty | one _ | run _ | shortRun _ | escapedRun _ _ => exact h.2
  | anchor condition => exact h.2.2
  | seq first second ihfirst ihsecond =>
    obtain ⟨before, after, _, _, hfirst, hsecond, -, rfl⟩ := h
    rw [isUnlabelled, Bool.and_eq_true] at hunlabelled
    rw [ihfirst hfirst hunlabelled.1, ihsecond hsecond hunlabelled.2, List.append_nil]
  | alt first second ihfirst ihsecond =>
    rw [isUnlabelled, Bool.and_eq_true] at hunlabelled
    rcases h with hfirst | hsecond
    · exact ihfirst hfirst hunlabelled.1
    · exact ihsecond hsecond hunlabelled.2
  | star body ih =>
    have hrounds : TakesRounds body.Takes prev taken behind parts := h
    clear h
    induction hrounds with
    | none => rfl
    | more _ _ hround ihrounds => rw [ihrounds, ih hround hunlabelled, List.append_nil]
  | label name body ih => cases hunlabelled

/-- Nothing is remembered under a name that no label has. -/
theorem Takes.lookup_eq_none {name : Label} (h : pattern.Takes prev taken behind parts)
    (hlacks : pattern.lacks name = true) : parts.lookup name = none := by
  induction pattern generalizing prev taken behind parts with
  | empty | one _ | run _ | shortRun _ | escapedRun _ _ =>
    rw [h.2]
    rfl
  | anchor condition =>
    rw [h.2.2]
    rfl
  | seq first second ihfirst ihsecond =>
    obtain ⟨before, after, _, _, hfirst, hsecond, -, rfl⟩ := h
    rw [lacks, Bool.and_eq_true] at hlacks
    rw [List.lookup_append, ihsecond hsecond hlacks.2, ihfirst hfirst hlacks.1, Option.or_none]
  | alt first second ihfirst ihsecond =>
    rw [lacks, Bool.and_eq_true] at hlacks
    rcases h with hfirst | hsecond
    · exact ihfirst hfirst hlacks.1
    · exact ihsecond hsecond hlacks.2
  | star body ih =>
    have hrounds : TakesRounds body.Takes prev taken behind parts := h
    clear h
    induction hrounds with
    | none => rfl
    | more _ _ hround ihrounds => rw [List.lookup_append, ih hround hlacks, ihrounds, Option.or_none]
  | label other body ih =>
    obtain ⟨inner, hbody, rfl⟩ := h
    rw [lacks, Bool.and_eq_true, bne_iff_ne] at hlacks
    rw [List.lookup_cons, beq_false_of_ne hlacks.1]
    exact ih hbody hlacks.2

/-- Something is remembered under the name of a label that every match passes. -/
theorem Takes.lookup_isSome {name : Label} (h : pattern.Takes prev taken behind parts)
    (hpasses : pattern.passes name = true) : (parts.lookup name).isSome = true := by
  induction pattern generalizing prev taken behind parts with
  | empty | one _ | run _ | shortRun _ | escapedRun _ _ | anchor _ | star _ _ => cases hpasses
  | seq first second ihfirst ihsecond =>
    obtain ⟨before, after, _, _, hfirst, hsecond, -, rfl⟩ := h
    rw [List.lookup_append, Option.isSome_or, Bool.or_eq_true]
    rw [passes, Bool.or_eq_true] at hpasses
    rcases hpasses with hpasses | hpasses
    · exact Or.inr (ihfirst hfirst hpasses)
    · exact Or.inl (ihsecond hsecond hpasses)
  | alt first second ihfirst ihsecond =>
    rw [passes, Bool.and_eq_true] at hpasses
    rcases h with hfirst | hsecond
    · exact ihfirst hfirst hpasses.1
    · exact ihsecond hsecond hpasses.2
  | label other body ih =>
    obtain ⟨inner, hbody, rfl⟩ := h
    rw [passes, Bool.or_eq_true] at hpasses
    rw [List.lookup_cons]
    split
    · rfl
    · rename_i hne
      rw [hne] at hpasses
      exact ih hbody (hpasses.resolve_left Bool.false_ne_true)

theorem Takes.fewest_le (h : pattern.Takes prev taken behind parts) : pattern.fewest ≤ taken.length := by
  induction pattern generalizing prev taken behind parts with
  | empty | anchor _ | run _ | shortRun _ | escapedRun _ _ | star _ _ => exact Nat.zero_le _
  | one accepts =>
    obtain ⟨⟨c, -, rfl⟩, -⟩ := h
    exact Nat.le_refl _
  | seq first second ihfirst ihsecond =>
    obtain ⟨before, after, _, _, hfirst, hsecond, rfl, -⟩ := h
    rw [List.length_append]
    exact Nat.add_le_add (ihfirst hfirst) (ihsecond hsecond)
  | alt first second ihfirst ihsecond =>
    rcases h with hfirst | hsecond
    · exact Nat.le_trans (Nat.min_le_left _ _) (ihfirst hfirst)
    · exact Nat.le_trans (Nat.min_le_right _ _) (ihsecond hsecond)
  | label name body ih =>
    obtain ⟨inner, hbody, -⟩ := h
    exact ih hbody

end Pattern

end Minifier
