import Minifier.Proofs.Pattern.Locality
import Minifier.Proofs.Pattern.Segments
import Minifier.Proofs.Rule.Basic
import Mathlib.Data.List.Basic

/-!
What a rule does to a text, piece by piece. A character that the pattern of a rule accepts nowhere stays
where it is, and what stands on either side of it is rewritten by itself.
-/

namespace Minifier

namespace Pattern

variable {pattern : Pattern} {new : List Char → List Char} {prev : Option Char} {c : Char}
  {text rest taken out out' : List Char}

/-- What is taken stands at the beginning of the text. -/
theorem exists_takes_of_taken? (h : pattern.taken? prev text = some taken) :
    ∃ behind parts, text = taken ++ behind ∧ pattern.Takes prev taken behind parts := by
  obtain ⟨found, hfound, rfl⟩ := Option.map_eq_some_iff.mp h
  obtain ⟨behind, parts, htext, htakes, -⟩ := Match.exists_takes hfound
  exact ⟨behind, parts, htext, htakes⟩

/-- A text and what it is rewritten to from left to right: what the pattern takes gives way to another
text, and a character at which it takes nothing stays. -/
inductive Rewrites (pattern : Pattern) (new : List Char → List Char) :
    Option Char → List Char → List Char → Prop where
  | nil {prev : Option Char} : Rewrites pattern new prev [] []
  | plain {prev : Option Char} {c : Char} {rest out : List Char} : pattern.taken? prev (c :: rest) = none →
      Rewrites pattern new (some c) rest out → Rewrites pattern new prev (c :: rest) (c :: out)
  | hit {prev : Option Char} {text taken rest out : List Char} : pattern.taken? prev text = some taken →
      text = taken ++ rest → taken ≠ [] → Rewrites pattern new (taken.getLast?.or prev) rest out →
      Rewrites pattern new prev text (new taken ++ out)

/-- A pattern that always takes something. -/
theorem ne_nil_of_taken? (hexceeds : pattern.exceeds [] = true) (h : pattern.taken? prev text = some taken) :
    taken ≠ [] := by
  obtain ⟨behind, parts, -, htakes⟩ := exists_takes_of_taken? h
  obtain ⟨d, hd, -⟩ := htakes.exists_not_mem hexceeds
  exact List.ne_nil_of_mem hd

/-- A search and a replacement that depends on the text of a match only rewrite a text. -/
theorem Segmented.rewrites (hc : pattern.avoids c = true) (hexceeds : pattern.exceeds [] = true)
    {replace : Match → List Char}
    (hreplace : ∀ {index prev rest found}, pattern.matchAt index prev rest = some found →
      replace found = new found.text)
    {index : Nat} {segments : List Segment} (h : pattern.Segmented index prev text segments) :
    pattern.Rewrites new prev text (segments.flatMap (Segment.replaced replace)) := by
  induction h with
  | done => exact .nil
  | @plain index prev d rest _ hnone _ ih =>
    refine .plain ?_ ih
    rw [← map_text_matchAt hc (.refl _) index, Option.map_eq_none_iff, Option.eq_none_iff_forall_ne_some]
    intro found hfound
    have htaken : pattern.taken? prev (d :: rest) = some found.text := by
      rw [← map_text_matchAt hc (.refl _) index, hfound, Option.map_some]
    exact ne_nil_of_taken? hexceeds htaken (hnone found hfound)
  | @hit index prev text _ found _ hfound htext _ ih =>
    have htaken : pattern.taken? prev text = some found.text := by
      rw [← map_text_matchAt hc (.refl _) index, hfound, Option.map_some]
    simp only [List.flatMap_cons, Segment.replaced, hreplace hfound]
    exact .hit htaken htext (ne_nil_of_taken? hexceeds htaken) ih

namespace Rewrites

theorem unique (h : pattern.Rewrites new prev text out) (h' : pattern.Rewrites new prev text out') :
    out = out' := by
  induction h generalizing out' with
  | nil =>
    cases h' with
    | nil => rfl
    | hit _ htext hne _ => exact absurd (List.append_eq_nil_iff.mp htext.symm).1 hne
  | plain hnone _ ih =>
    cases h' with
    | plain _ hrest => rw [ih hrest]
    | hit htaken _ _ _ =>
      rw [hnone] at htaken
      cases htaken
  | hit htaken htext hne _ ih =>
    cases h' with
    | nil => exact absurd (List.append_eq_nil_iff.mp htext.symm).1 hne
    | plain hnone _ =>
      rw [hnone] at htaken
      cases htaken
    | hit htaken' htext' _ hrest =>
      obtain rfl := Option.some.inj (htaken.symm.trans htaken')
      obtain rfl := List.append_cancel_left (htext.symm.trans htext')
      rw [ih hrest]

theorem eq_nil (h : pattern.Rewrites new prev [] out) : out = [] :=
  h.unique .nil

/-- Where nothing is taken, the character stays. -/
theorem of_cons (hnone : pattern.taken? prev (c :: rest) = none)
    (h : pattern.Rewrites new prev (c :: rest) out) :
    ∃ more, out = c :: more ∧ pattern.Rewrites new (some c) rest more := by
  cases h with
  | plain _ hrest => exact ⟨_, rfl, hrest⟩
  | hit htaken _ _ _ =>
    rw [hnone] at htaken
    cases htaken

end Rewrites

/-! ### Characters that a pattern does not accept -/

/-- Nothing is taken where a character stands that the pattern does not accept. -/
theorem taken?_stop (hc : pattern.avoids c = true) (hexceeds : pattern.exceeds [] = true) (prev : Option Char)
    (rest : List Char) : pattern.taken? prev (c :: rest) = none := by
  rw [Option.eq_none_iff_forall_ne_some]
  intro taken htaken
  obtain ⟨behind, parts, htext, htakes⟩ := exists_takes_of_taken? htaken
  obtain ⟨d, more, rfl⟩ := List.exists_cons_of_ne_nil (ne_nil_of_taken? hexceeds htaken)
  obtain ⟨rfl, -⟩ := List.cons.inj htext
  exact htakes.not_mem hc List.mem_cons_self

/-- If anything is left of a text, then its last character is. -/
theorem exists_of_concat_eq {front : List Char} (hrest : rest ≠ []) (h : text ++ [c] = front ++ rest) :
    ∃ more, text = front ++ more ∧ rest = more ++ [c] := by
  obtain ⟨more, d, rfl⟩ := (List.eq_nil_or_concat' rest).resolve_left hrest
  rw [← List.append_assoc] at h
  obtain ⟨rfl, hlast⟩ := List.append_inj' h rfl
  exact ⟨more, rfl, by rw [hlast]⟩

/-- What is taken before such a character leaves it in the text. -/
theorem exists_of_append_eq (hc : c ∉ taken) (h : text ++ [c] = taken ++ rest) :
    ∃ more, text = taken ++ more ∧ rest = more ++ [c] := by
  refine exists_of_concat_eq ?_ h
  rintro rfl
  rw [List.append_nil] at h
  exact hc (h ▸ List.mem_append_right text (List.mem_singleton_self c))

namespace Rewrites

/-- Such a character stays, and a text that ends with it can be followed by another one. Before it stands what
stood there or what was put. -/
theorem append (h : pattern.Rewrites new prev (text ++ [c]) out) (hc : pattern.avoids c = true)
    (hexceeds : pattern.exceeds [] = true) {later later' : List Char}
    (hlater : pattern.Rewrites new (some c) later later') :
    (∃ before, out = before ++ [c] ∧ ∀ d ∈ before, d ∈ text ∨ ∃ taken, d ∈ new taken) ∧
      pattern.Rewrites new prev (text ++ c :: later) (out ++ later') := by
  generalize hwhole : text ++ [c] = whole at h
  induction h generalizing text with
  | nil => exact absurd hwhole (by simp)
  | @plain prev d rest out hnone hrest ih =>
    cases text with
    | nil =>
      obtain ⟨rfl, rfl⟩ := List.cons.inj hwhole
      rw [hrest.eq_nil]
      exact ⟨⟨[], rfl, by simp⟩, .plain (taken?_stop hc hexceeds prev later) hlater⟩
    | cons e text =>
      obtain ⟨rfl, rfl⟩ := List.cons.inj hwhole
      obtain ⟨⟨before, rfl, hbefore⟩, happend⟩ := ih rfl
      have hsame : SameUpTo c (e :: (text ++ [c])) (e :: (text ++ c :: later)) :=
        .append (e :: text) .stop
      refine ⟨⟨e :: before, rfl, ?_⟩, .plain ((taken?_congr hc hsame prev).symm.trans hnone) happend⟩
      rw [List.forall_mem_cons]
      exact ⟨Or.inl List.mem_cons_self, fun d hd => (hbefore d hd).imp_left (List.mem_cons_of_mem e)⟩
  | @hit prev whole taken rest out htaken htext hne hrest ih =>
    obtain ⟨behind, parts, -, htakes⟩ := exists_takes_of_taken? htaken
    rw [← hwhole] at htext
    -- A match never gets past the character, so it leaves it in the text.
    obtain ⟨more, rfl, rfl⟩ := exists_of_append_eq (htakes.not_mem hc) htext
    obtain ⟨⟨before, rfl, hbefore⟩, happend⟩ := ih rfl
    have hsame : SameUpTo c whole (taken ++ more ++ c :: later) := by
      rw [← hwhole]
      exact .append _ .stop
    constructor
    · refine ⟨new taken ++ before, by simp, ?_⟩
      rw [List.forall_mem_append]
      exact ⟨fun d hd => Or.inr ⟨taken, hd⟩, fun d hd => (hbefore d hd).imp_left (List.mem_append_right taken)⟩
    · rw [List.append_assoc (new taken)]
      exact .hit ((taken?_congr hc hsame prev).symm.trans htaken) (List.append_assoc _ _ _) hne happend

/-- A text in which nothing is taken stays as it is. -/
theorem of_forall_none
    (h : ∀ before behind, text = before ++ behind → pattern.taken? (before.getLast?.or prev) behind = none) :
    pattern.Rewrites new prev text text := by
  induction text generalizing prev with
  | nil => exact .nil
  | cons d rest ih =>
    refine .plain (h [] _ rfl) (ih fun before behind hrest => ?_)
    rw [← getLast?_cons_or]
    exact h (d :: before) behind (by rw [hrest]; rfl)

theorem of_forall_ne
    (h : ∀ before behind taken, text = before ++ behind →
      pattern.taken? (before.getLast?.or prev) behind ≠ some taken) : pattern.Rewrites new prev text text :=
  .of_forall_none fun before behind hsplit =>
    Option.eq_none_iff_forall_ne_some.mpr fun taken => h before behind taken hsplit

end Rewrites

end Pattern

/-! ### Rules -/

/-- A rule that runs once and puts in the place of a match what depends on its text only. -/
structure Rule.Puts (rule : Rule) (new : List Char → List Char) : Prop where
  exceeds : rule.pattern.exceeds [] = true
  replace : ∀ {index : Nat} {prev : Option Char} {rest : List Char} {found : Match},
    rule.pattern.matchAt index prev rest = some found → rule.replace found = new found.text
  passes : rule.passes = 1

namespace Rule.Puts

variable {rule : Rule} {new : List Char → List Char} {c : Char}

theorem drop {name : String} {pattern : Pattern} (h : pattern.exceeds [] = true) :
    (Rule.drop name pattern).Puts fun _ => [] where
  exceeds := h
  replace _ := rfl
  passes := rfl

theorem put {name : String} {pattern : Pattern} (c : Char) (h : pattern.exceeds [] = true) :
    (Rule.put name pattern c).Puts fun _ => [c] where
  exceeds := h
  replace _ := rfl
  passes := rfl

theorem rewrites_apply (h : rule.Puts new) (hc : rule.pattern.avoids c = true) (text : List Char) :
    rule.pattern.Rewrites new none text (rule.apply text) := by
  rw [apply_eq_once h.passes]
  exact (Pattern.segments_segmented _ text).rewrites hc h.exceeds h.replace

end Rule.Puts

/-- Behind such a character too a text is rewritten. -/
theorem Rule.Puts.exists_rewrites {rule : Rule} {new : List Char → List Char} {c : Char} (h : rule.Puts new)
    (hc : rule.pattern.avoids c = true) (text : List Char) :
    ∃ out, rule.pattern.Rewrites new (some c) text out := by
  obtain ⟨out, -, hout⟩ :=
    (h.rewrites_apply hc (c :: text)).of_cons (Pattern.taken?_stop hc h.exceeds none text)
  exact ⟨out, hout⟩

/-! ### Between two characters -/

/-- An edit treats what stands before, between and behind two characters by itself, and keeps the two. -/
def Bridges (edit : List Char → List Char) (c d : Char) (mid mid' : List Char) : Prop :=
  ∀ left right, edit (left ++ c :: (mid ++ d :: right)) = edit (left ++ [c]) ++ mid' ++ edit (d :: right) ∧
    (∃ before, edit (left ++ [c]) = before ++ [c]) ∧ ∃ behind, edit (d :: right) = d :: behind

variable {rule : Rule} {new : List Char → List Char} {c d : Char} {mid mid' mid'' : List Char}

/-- A rule whose pattern accepts neither of them does so. -/
theorem Rule.Puts.bridges (h : rule.Puts new) (hc : rule.pattern.avoids c = true)
    (hd : rule.pattern.avoids d = true)
    (hmid : rule.pattern.Rewrites new (some c) (mid ++ [d]) (mid' ++ [d])) :
    Bridges rule.apply c d mid mid' := by
  intro left right
  obtain ⟨behind, hbehind, hright⟩ :=
    (h.rewrites_apply hd (d :: right)).of_cons (Pattern.taken?_stop hd h.exceeds none right)
  obtain ⟨-, hmid⟩ := hmid.append hd h.exceeds hright
  obtain ⟨⟨before, hbefore, -⟩, hwhole⟩ := (h.rewrites_apply hc (left ++ [c])).append hc h.exceeds hmid
  refine ⟨(h.rewrites_apply hc _).unique ?_, ⟨before, hbefore⟩, behind, hbehind⟩
  rw [hbehind]
  simpa using hwhole

theorem Bridges.pipeline_nil (c d : Char) (mid : List Char) : Bridges (Pipeline.run []) c d mid mid :=
  fun left right => ⟨by simp [Pipeline.run_nil], ⟨left, rfl⟩, right, rfl⟩

theorem Bridges.comp {edit edit' : List Char → List Char} (h : Bridges edit c d mid mid')
    (h' : Bridges edit' c d mid' mid'') : Bridges (fun text => edit' (edit text)) c d mid mid'' := by
  intro left right
  obtain ⟨hwhole, ⟨before, hbefore⟩, behind, hbehind⟩ := h left right
  simp only [hwhole, hbefore, hbehind]
  have hsplit : before ++ [c] ++ mid' ++ d :: behind = before ++ c :: (mid' ++ d :: behind) := by simp
  rw [hsplit]
  exact h' before behind

theorem Bridges.pipeline_cons {pipeline : Pipeline} (h : Bridges rule.apply c d mid mid')
    (hrest : Bridges pipeline.run c d mid' mid'') :
    Bridges (Pipeline.run (rule :: pipeline)) c d mid mid'' :=
  h.comp hrest

theorem Bridges.pipeline_append {first second : Pipeline} (h : Bridges first.run c d mid mid')
    (hsecond : Bridges second.run c d mid' mid'') : Bridges (first ++ second).run c d mid mid'' := by
  have hrun : (first ++ second).run = fun text => second.run (first.run text) := funext (Pipeline.run_append first second)
  rw [hrun]
  exact h.comp hsecond

end Minifier
