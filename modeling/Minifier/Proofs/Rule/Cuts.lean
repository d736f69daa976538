import Minifier.Proofs.Rule.Rewriting
import Mathlib.Data.List.TakeWhile

/-!
Characters at which an edit cuts a text. What stands before such a character and what stands behind it are edited by
themselves, and the character stays. Edits that cut at a character do so one after the other, and between two such
characters a text becomes what it becomes when it stands there alone.
-/

namespace Minifier

open Pattern

/-- An edit keeps a character wherever it stands and edits what is on either side of it by itself. -/
def CutsAt (edit : List Char → List Char) (c : Char) : Prop :=
  ∀ left right, ∃ before behind, edit (left ++ [c]) = before ++ [c] ∧ edit (c :: right) = c :: behind ∧
    edit (left ++ c :: right) = before ++ c :: behind

section CutsAt

variable {edit edit' : List Char → List Char} {c d : Char} {mid mid' : List Char}

theorem CutsAt.comp (h : CutsAt edit c) (h' : CutsAt edit' c) : CutsAt (fun text => edit' (edit text)) c := by
  intro left right
  obtain ⟨before, behind, hbefore, hbehind, hwhole⟩ := h left right
  obtain ⟨before', behind', hbefore', hbehind', hwhole'⟩ := h' before behind
  simp only [hbefore, hbehind, hwhole]
  exact ⟨before', behind', hbefore', hbehind', hwhole'⟩

theorem Pipeline.cutsAt_run {pipeline : Pipeline} (h : pipeline.Each fun rule => CutsAt rule.apply c) :
    CutsAt pipeline.run c := by
  induction pipeline with
  | nil => exact fun left right => ⟨left, right, rfl, rfl, rfl⟩
  | cons rule pipeline ih =>
    obtain ⟨hrule, hrest⟩ := List.forall_mem_cons.mp h
    exact hrule.comp (ih hrest)

/-- Between two such characters it does what it does to the text there alone. -/
theorem CutsAt.bridges (hc : CutsAt edit c) (hd : CutsAt edit d) (hmid : edit (c :: (mid ++ [d])) = c :: (mid' ++ [d])) :
    Bridges edit c d mid mid' := by
  intro left right
  obtain ⟨before, behind, hbefore, hbehind, hwhole⟩ := hc left (mid ++ d :: right)
  obtain ⟨inner, outer, hinner, houter, htail⟩ := hd (c :: mid) right
  rw [List.cons_append, hmid, ← List.cons_append] at hinner
  obtain ⟨rfl, -⟩ := List.append_inj' hinner rfl
  rw [List.cons_append, hbehind, List.cons_append] at htail
  obtain ⟨-, rfl⟩ := List.cons.inj htail
  refine ⟨?_, ⟨before, hbefore⟩, outer, houter⟩
  rw [hwhole, hbefore, houter]
  simp

/-- A rule cuts at a character that its pattern accepts nowhere. -/
theorem Rule.Puts.cutsAt {rule : Rule} {new : List Char → List Char} (h : rule.Puts new)
    (hc : rule.pattern.avoids c = true) : CutsAt rule.apply c := by
  intro left right
  obtain ⟨behind, hbehind, hright⟩ :=
    (h.rewrites_apply hc (c :: right)).of_cons (taken?_stop hc h.exceeds none right)
  obtain ⟨⟨before, hbefore, -⟩, hwhole⟩ := (h.rewrites_apply hc (left ++ [c])).append hc h.exceeds hright
  refine ⟨before, behind, hbefore, hbehind, ?_⟩
  rw [(h.rewrites_apply hc (left ++ c :: right)).unique hwhole, hbefore, List.append_assoc, List.singleton_append]

end CutsAt

/-! ### Texts in which nothing is found -/

namespace Pattern

variable {chars : List Char}

theorem exceeds_append {first second : Pattern} :
    (first ++ second).exceeds chars = (first.exceeds chars || second.exceeds chars) := rfl

theorem exceeds_part {body : Pattern} (n : Nat) : (part n body).exceeds chars = body.exceeds chars := rfl

theorem exceeds_char {c : Char} (h : c ∉ chars) : (char c).exceeds chars = true := by
  simp only [char, exceeds, List.all_eq_true, Bool.not_eq_true', beq_eq_false_iff_ne]
  exact fun x hx => ne_of_mem_of_not_mem hx h

/-- A text stays if the pattern cannot do with its characters. -/
theorem Rewrites.of_exceeds {pattern : Pattern} {new : List Char → List Char} {prev : Option Char} {text : List Char}
    (h : pattern.exceeds text = true) : pattern.Rewrites new prev text text := by
  refine .of_forall_ne fun before behind taken hsplit htaken => ?_
  obtain ⟨rest, parts, rfl, htakes⟩ := exists_takes_of_taken? htaken
  obtain ⟨x, hx, hnot⟩ := htakes.exists_not_mem h
  exact hnot (hsplit ▸ by simp [hx])

end Pattern

/-- A rule leaves a text if its pattern cannot do with its characters. -/
theorem Rule.Puts.apply_eq_self {rule : Rule} {new : List Char → List Char} {other : Char} {text : List Char}
    (h : rule.Puts new) (hother : rule.pattern.avoids other = true) (hexceeds : rule.pattern.exceeds text = true) :
    rule.apply text = text :=
  (h.rewrites_apply hother text).unique (.of_exceeds hexceeds)

/-! ### Patterns that look at nothing behind -/

namespace Pattern

/-- What a pattern takes is told by itself and the character before it. -/
def Finds (pattern : Pattern) (form : Option Char → List Char → Prop) : Prop :=
  ∀ {prev : Option Char} {text taken : List Char},
    pattern.taken? prev text = some taken ↔ form prev taken ∧ taken <+: text

variable {pattern : Pattern} {form : Option Char → List Char → Prop} {prev : Option Char} {c : Char}
  {text taken taken' left right : List Char}

/-- Two beginnings of a text that reach equally far beyond the first place of a character are the same. -/
theorem eq_of_prefix {front front' more more' : List Char} (hfront : c ∉ front) (hfront' : c ∉ front')
    (hlength : more.length = more'.length) (h : front ++ c :: more <+: text) (h' : front' ++ c :: more' <+: text) :
    front ++ c :: more = front' ++ c :: more' := by
  have hfirst : ∀ {front more : List Char}, c ∉ front → front ++ c :: more <+: text → front = text.takeWhile (· != c) := by
    rintro front more hmem ⟨behind, rfl⟩
    have hall : ∀ d ∈ front, (d != c) = true := fun d hd => bne_iff_ne.mpr (ne_of_mem_of_not_mem hd hmem)
    rw [List.append_assoc, List.takeWhile_append_of_pos hall]
    simp
  obtain rfl := (hfirst hfront h).trans (hfirst hfront' h').symm
  have hle : (front ++ c :: more).length = (front ++ c :: more').length := by simp [hlength]
  exact (List.prefix_of_prefix_length_le h h' hle.le).eq_of_length hle

theorem Finds.of_unique (htakes : ∀ {prev taken behind parts}, pattern.Takes prev taken behind parts → form prev taken)
    (hform : ∀ {prev taken} behind, form prev taken → ∃ parts, pattern.Takes prev taken behind parts)
    (hunique : ∀ {prev taken taken' text}, form prev taken → form prev taken' → taken <+: text → taken' <+: text →
      taken = taken') : pattern.Finds form := by
  intro prev text taken
  have hfirst : ∀ {taken}, pattern.taken? prev text = some taken → form prev taken ∧ taken <+: text := by
    intro taken h
    obtain ⟨behind, _, rfl, htaken⟩ := exists_takes_of_taken? h
    exact ⟨htakes htaken, List.prefix_append _ _⟩
  refine ⟨hfirst, ?_⟩
  rintro ⟨h, behind, rfl⟩
  obtain ⟨parts, htaken⟩ := hform behind h
  have hsome : (pattern.taken? prev (taken ++ behind)).isSome = true := by
    rw [taken?, Option.isSome_map, matchAt_isSome_iff]
    exact ⟨taken, behind, parts, rfl, htaken⟩
  obtain ⟨other, hother⟩ := Option.isSome_iff_exists.mp hsome
  obtain ⟨h', hprefix⟩ := hfirst hother
  obtain rfl := hunique h h' (List.prefix_append _ _) hprefix
  exact hother

theorem Finds.taken?_eq_none (h : pattern.Finds form) (hnone : ∀ taken, form prev taken → ¬ taken <+: text) :
    pattern.taken? prev text = none :=
  Option.eq_none_iff_forall_ne_some.mpr fun taken htaken => hnone taken (h.mp htaken).1 (h.mp htaken).2

/-- What has a character at its ends only reaches it and no farther. -/
theorem prefix_of_prefix_cons (hleft : left ≠ []) (hinside : c ∉ taken.tail.dropLast)
    (h : taken <+: left ++ c :: right) : taken <+: left ++ [c] := by
  obtain ⟨behind, hsplit⟩ := h
  rcases List.append_eq_append_iff.mp hsplit with ⟨more, rfl, -⟩ | ⟨more, rfl, hmore⟩
  · rw [List.append_assoc]
    exact List.prefix_append _ _
  · cases more with
    | nil => simp
    | cons e more =>
      obtain ⟨rfl, -⟩ := List.cons.inj hmore
      obtain ⟨d, left, rfl⟩ := List.exists_cons_of_ne_nil hleft
      have hnil : more = [] := by
        by_contra hne
        rw [List.cons_append, List.tail_cons, List.dropLast_append_of_ne_nil (List.cons_ne_nil _ _),
          List.dropLast_cons_of_ne_nil hne] at hinside
        exact hinside (List.mem_append_right _ List.mem_cons_self)
      exact hnil ▸ List.prefix_refl _

end Pattern

section Finds

variable {rule : Rule} {new : List Char → List Char} {form : Option Char → List Char → Prop} {c other : Char}
  {prev : Option Char} {left right out behind : List Char}

/-- A character at which what a rule takes may begin or end, but not both, and which the rule then keeps there. -/
structure Rule.EndsAt (new : List Char → List Char) (form : Option Char → List Char → Prop) (c : Char) : Prop where
  inside : ∀ {prev taken}, form prev taken → c ∉ taken.tail.dropLast
  first : ∀ {prev taken}, form prev (c :: taken) →
    (∀ prev', form prev' (c :: taken)) ∧ ∃ more, new (c :: taken) = c :: more
  last : ∀ {prev taken}, form prev (taken ++ [c]) →
    (∃ more, new (taken ++ [c]) = more ++ [c]) ∧ ∀ prev rest, ¬ form prev (c :: rest)

namespace Rule.EndsAt

theorem taken?_eq (h : EndsAt new form c) (hfinds : rule.pattern.Finds form) (hleft : left ≠ []) :
    rule.pattern.taken? prev (left ++ c :: right) = rule.pattern.taken? prev (left ++ [c]) := by
  ext taken
  rw [hfinds, hfinds]
  refine and_congr_right fun hform => ⟨prefix_of_prefix_cons hleft (h.inside hform), fun hprefix => ?_⟩
  exact hprefix.trans ⟨right, by simp⟩

theorem exists_of_taken? (hfinds : rule.pattern.Finds form) (hexceeds : rule.pattern.exceeds [] = true)
    {taken : List Char} (htaken : rule.pattern.taken? prev (c :: right) = some taken) :
    ∃ more, taken = c :: more ∧ form prev (c :: more) := by
  obtain ⟨d, more, rfl⟩ := List.exists_cons_of_ne_nil (ne_nil_of_taken? hexceeds htaken)
  obtain ⟨hform, hprefix⟩ := hfinds.mp htaken
  obtain ⟨rfl, -⟩ := List.cons_prefix_cons.mp hprefix
  exact ⟨more, rfl, hform⟩

/-- Behind the character it does not matter what stood before it. -/
theorem rewrites_cons (h : EndsAt new form c) (hfinds : rule.pattern.Finds form)
    (hexceeds : rule.pattern.exceeds [] = true) (hrewrites : rule.pattern.Rewrites new prev (c :: right) out) :
    (∃ behind, out = c :: behind) ∧ ∀ prev', rule.pattern.Rewrites new prev' (c :: right) out := by
  cases hrewrites with
  | plain hnone hrest =>
    refine ⟨⟨_, rfl⟩, fun prev' => .plain ?_ hrest⟩
    rw [Option.eq_none_iff_forall_ne_some]
    intro taken htaken
    obtain ⟨more, rfl, hmore⟩ := exists_of_taken? hfinds hexceeds htaken
    rw [hfinds.mpr ⟨(h.first hmore).1 prev, (hfinds.mp htaken).2⟩] at hnone
    cases hnone
  | hit htaken htext hne hrest =>
    obtain ⟨more, rfl, hmore⟩ := exists_of_taken? hfinds hexceeds htaken
    obtain ⟨hany, kept, hkept⟩ := h.first hmore
    refine ⟨⟨_, by rw [hkept, List.cons_append]⟩, fun prev' => ?_⟩
    refine .hit (hfinds.mpr ⟨hany prev', (hfinds.mp htaken).2⟩) htext hne ?_
    rwa [getLast?_cons_or] at hrest ⊢

/-- A match that ends with the character leaves it, and nothing begins with it. -/
theorem exists_of_last (h : EndsAt new form c) (hfinds : rule.pattern.Finds form)
    (hexceeds : rule.pattern.exceeds [] = true) (hform : form prev (left ++ [c]))
    (hright : rule.pattern.Rewrites new none (c :: right) (c :: behind)) :
    left ≠ [] ∧ (∃ more, new (left ++ [c]) = more ++ [c]) ∧ rule.pattern.Rewrites new (some c) right behind := by
  obtain ⟨hmore, hfirst⟩ := h.last hform
  have hnone : rule.pattern.taken? none (c :: right) = none := by
    rw [Option.eq_none_iff_forall_ne_some]
    intro taken htaken
    obtain ⟨more, -, hbegins⟩ := exists_of_taken? hfinds hexceeds htaken
    exact hfirst none more hbegins
  obtain ⟨behind', hbehind, hright⟩ := hright.of_cons hnone
  obtain ⟨-, rfl⟩ := List.cons.inj hbehind
  refine ⟨?_, hmore, hright⟩
  rintro rfl
  exact hfirst prev [] hform

/-- A text that ends with the character can be followed by another one that begins with it. -/
theorem rewrites_append (h : EndsAt new form c) (hfinds : rule.pattern.Finds form)
    (hexceeds : rule.pattern.exceeds [] = true) (hleft : rule.pattern.Rewrites new prev (left ++ [c]) out)
    (hright : rule.pattern.Rewrites new none (c :: right) (c :: behind)) :
    ∃ before, out = before ++ [c] ∧ rule.pattern.Rewrites new prev (left ++ c :: right) (before ++ c :: behind) := by
  generalize hwhole : left ++ [c] = whole at hleft
  induction hleft generalizing left with
  | nil => exact absurd hwhole (by simp)
  | @plain prev d rest out hnone hrest ih =>
    cases left with
    | nil =>
      obtain ⟨rfl, rfl⟩ := List.cons.inj hwhole
      rw [hrest.eq_nil]
      exact ⟨[], rfl, (h.rewrites_cons hfinds hexceeds hright).2 prev⟩
    | cons e left =>
      obtain ⟨rfl, rfl⟩ := List.cons.inj hwhole
      obtain ⟨before, rfl, hbefore⟩ := ih rfl
      exact ⟨e :: before, rfl, .plain ((h.taken?_eq hfinds (List.cons_ne_nil e left)).trans hnone) hbefore⟩
  | @hit prev whole taken rest out htaken htext hne hrest ih =>
    obtain ⟨hform, -⟩ := hfinds.mp htaken
    rw [← hwhole] at htext htaken
    by_cases hend : rest = []
    · -- The match reaches the character and ends there.
      subst hend
      obtain rfl : left ++ [c] = taken := by simpa using htext
      obtain ⟨hne', ⟨more, hmore⟩, hbehind⟩ := h.exists_of_last hfinds hexceeds hform hright
      rw [hrest.eq_nil, List.append_nil]
      refine ⟨more, hmore, ?_⟩
      have htaken' : rule.pattern.taken? prev (left ++ c :: right) = some (left ++ [c]) :=
        (h.taken?_eq hfinds hne').trans htaken
      have hhit : rule.pattern.Rewrites new prev (left ++ c :: right) (new (left ++ [c]) ++ behind) :=
        .hit htaken' (List.append_cons left c right) hne (by simpa using hbehind)
      rwa [hmore, List.append_assoc, List.singleton_append] at hhit
    · obtain ⟨more, rfl, rfl⟩ := exists_of_concat_eq hend htext
      obtain ⟨before, rfl, hbefore⟩ := ih rfl
      have htaken' : rule.pattern.taken? prev (taken ++ more ++ c :: right) = some taken :=
        (h.taken?_eq hfinds (by simp [hne])).trans htaken
      refine ⟨new taken ++ before, by simp, ?_⟩
      rw [List.append_assoc (new taken)]
      exact .hit htaken' (List.append_assoc _ _ _) hne hbefore

end Rule.EndsAt

/-- A rule cuts at a character at which its matches may begin or end. -/
theorem Rule.Puts.cutsAt_of_endsAt (h : rule.Puts new) (hother : rule.pattern.avoids other = true)
    (hfinds : rule.pattern.Finds form) (hends : EndsAt new form c) : CutsAt rule.apply c := by
  intro left right
  have hleft := h.rewrites_apply hother (left ++ [c])
  have hright := h.rewrites_apply hother (c :: right)
  obtain ⟨⟨behind, hbehind⟩, -⟩ := hends.rewrites_cons hfinds h.exceeds hright
  rw [hbehind] at hright
  obtain ⟨before, hbefore, hwhole⟩ := hends.rewrites_append hfinds h.exceeds hleft hright
  exact ⟨before, behind, hbefore, hbehind, (h.rewrites_apply hother _).unique hwhole⟩

end Finds

end Minifier
