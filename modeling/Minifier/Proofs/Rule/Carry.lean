import Minifier.Proofs.Pattern.Segments
import Minifier.Proofs.Masking.Template
import Minifier.Proofs.Rule.Basic

/-!
Edits that carry placeholders along. An edit carries them if it takes the masked text of any template to
that of another one and the slots of the two are related: equal, or some dropped. In the second case
no slot is doubled, moved or made up either. What a rule does is shown swap by swap: it rewrites a
clear piece, which lies in the code, or it drops a piece that begins and ends with code, and whatever
is between goes as a whole.
-/

namespace Minifier

open Template

/-- The relations between slots before and after an edit that hold of an edit if they hold of its
swaps. -/
structure Keeping (rel : List Nat → List Nat → Prop) : Prop where
  refl : ∀ slots, rel slots slots
  trans : ∀ {first second third}, rel first second → rel second third → rel first third
  append : ∀ {first second first' second'}, rel first first' → rel second second' →
    rel (first ++ second) (first' ++ second')

theorem keeping_eq : Keeping Eq where
  refl _ := rfl
  trans := Eq.trans
  append h h' := h ▸ h' ▸ rfl

theorem keeping_sublist : Keeping List.Sublist where
  refl := List.Sublist.refl
  trans := List.Sublist.trans
  append := List.Sublist.append

/-- A text, if it is the masked text of a template, becomes that of another one with related slots. -/
def CarriedTo (rel : List Nat → List Nat → Prop) (text out : List Char) : Prop :=
  ∀ template : Template, template.Clean → template.render = text → ∃ edited : Template,
    edited.Clean ∧ edited.render = out ∧ rel edited.slots template.slots

/-- An edit does so with every text. -/
def Carries (rel : List Nat → List Nat → Prop) (edit : List Char → List Char) : Prop :=
  ∀ text, CarriedTo rel text (edit text)

/-- A swap does so up to the end of the old piece, wherever that stands in a masked text. -/
def CarriesSwap (rel : List Nat → List Nat → Prop) (old new rest : List Char) : Prop :=
  ∀ (kept : List Char) (template : Template), template.Clean →
    template.render = kept ++ (old ++ rest) → ∃ before after behind : Template,
      template = before ++ behind ∧ behind.render = rest ∧ after.Clean ∧
        after.render = kept ++ new ∧ rel after.slots before.slots

variable {rel : List Nat → List Nat → Prop} {old new rest : List Char}

/-- What keeps all slots keeps them in any other relation. -/
theorem Carries.of_eq {edit : List Char → List Char} (hrel : Keeping rel) (h : Carries Eq edit) :
    Carries rel edit := by
  intro text template hclean htext
  obtain ⟨edited, hedited, hrender, hslots⟩ := h text template hclean htext
  exact ⟨edited, hedited, hrender, hslots ▸ hrel.refl _⟩

theorem CarriedTo.refl (hrel : Keeping rel) (text : List Char) : CarriedTo rel text text :=
  fun template hclean htext => ⟨template, hclean, htext, hrel.refl _⟩

theorem CarriedTo.trans (hrel : Keeping rel) {first second third : List Char}
    (h : CarriedTo rel first second) (h' : CarriedTo rel second third) :
    CarriedTo rel first third := by
  intro template hclean htext
  obtain ⟨middle, hmiddle, hrender, hslots⟩ := h template hclean htext
  obtain ⟨edited, hedited, hrender', hslots'⟩ := h' middle hmiddle hrender
  exact ⟨edited, hedited, hrender', hrel.trans hslots' hslots⟩

/-- Swaps that carry placeholders make an edit that does. -/
theorem carriedTo_of_edits (hrel : Keeping rel) {σ : Type} {state final : σ} {text out : List Char}
    (h : Edits (fun _ old new rest _ => CarriesSwap rel old new rest) state text out final) :
    CarriedTo rel text out := by
  induction h with
  | keep kept => exact .refl hrel kept
  | swap kept hswap _ ih =>
    intro template hclean htext
    obtain ⟨before, after, behind, rfl, hbehind, hafter, hrender, hslots⟩ :=
      hswap kept template hclean htext
    obtain ⟨edited, hedited, rfl, hslots'⟩ := ih behind (clean_append.mp hclean).2 hbehind
    refine ⟨after ++ edited, clean_append.mpr ⟨hafter, hedited⟩, ?_, ?_⟩
    · rw [render_append, hrender, List.append_assoc]
    · rw [slots_append, slots_append]
      exact hrel.append hslots hslots'

/-- A clear piece gives way to code. What stands before it in the match stays, whatever it is. -/
theorem carriesSwap_of_clear (hrel : Keeping rel) (stays : List Char) {piece piece' : List Char}
    (hpiece : Clear piece) (hpiece' : Unreserved piece') :
    CarriesSwap rel (stays ++ piece) (stays ++ piece') rest := by
  intro kept template hclean htext
  have htext : template.render = (kept ++ stays) ++ (piece ++ rest) := by simp [htext]
  obtain ⟨first, behind, rfl, hfirst, hbehind⟩ := exists_split htext hpiece
  obtain ⟨hclean, -⟩ := clean_append.mp hclean
  refine ⟨first ++ ofCode piece, first ++ ofCode piece', behind, rfl, hbehind, ?_, ?_, ?_⟩
  · exact clean_append.mpr ⟨(clean_append.mp hclean).1, clean_ofCode.mpr hpiece'⟩
  · simp [hfirst]
  · simp only [slots_append, slots_ofCode]
    exact hrel.refl _

/-- A piece between two clear ones goes with them. -/
theorem carriesSwap_of_between {first last : List Char} (middle : List Char) (hfirst : Clear first)
    (hlast : Clear last) : CarriesSwap List.Sublist (first ++ (middle ++ last)) [] rest := by
  intro kept template hclean htext
  have htext : template.render = kept ++ (first ++ (middle ++ (last ++ rest))) := by simp [htext]
  obtain ⟨left, inside, rfl, hleft, hinside⟩ := exists_split htext hfirst
  obtain ⟨held, behind, rfl, hheld, hbehind⟩ := exists_split hinside hlast
  obtain ⟨hclean, -⟩ := clean_append.mp hclean
  refine ⟨left ++ ofCode first ++ held ++ ofCode last, left, behind, by simp, hbehind,
    (clean_append.mp hclean).1, by simp [hleft], ?_⟩
  simp only [slots_append, slots_ofCode, List.append_nil]
  exact List.sublist_append_left _ _

/-! ### Rules -/

/-- A rule carries placeholders if its swaps do. -/
theorem Rule.carries_apply {rule : Rule} (hrel : Keeping rel)
    (h : ∀ index prev found behind,
      rule.pattern.matchAt index prev (found.text ++ behind) = some found →
        CarriesSwap rel found.text (rule.replace found) behind) :
    Carries rel rule.apply := by
  apply apply_of_once (CarriedTo.refl hrel) (CarriedTo.trans hrel)
  intro text
  refine carriedTo_of_edits hrel ((Pattern.edits_replaceAll rule.pattern rule.replace text).mono ?_)
  rintro _ old new rest _ ⟨index, prev, found, hfound, rfl, rfl⟩
  exact h index prev found rest hfound

/-- A pipeline carries placeholders if its rules do. -/
theorem Pipeline.carries_run {pipeline : Pipeline} (hrel : Keeping rel)
    (h : pipeline.Each fun rule => Carries rel rule.apply) : Carries rel pipeline.run :=
  run_of_apply (CarriedTo.refl hrel) (CarriedTo.trans hrel) h

end Minifier
