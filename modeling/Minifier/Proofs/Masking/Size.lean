import Minifier.Proofs.Masking.Slots
import Minifier.Proofs.Rule.Carry
import Minifier.Proofs.Rule.Basic

/-!
Byte counts behind placeholders. A placeholder may be longer or shorter than its literal, so masked texts are
not compared as they stand: they are compared with what their slots stand for. Setting literals aside
moves bytes from the text to the literals, an edit that keeps all slots and adds no bytes adds none to the
filled text either, and filling in brings back what is left.
-/

namespace Minifier

open Text

/-! ### Lexers -/

namespace Lexer

variable {lexer : Lexer}

/-- A comment that goes leaves no more bytes than its match has. -/
def Shrinks (lexer : Lexer) : Prop :=
  ∀ index prev found behind span left,
    lexer.pattern.matchAt index prev (found.text ++ behind) = some found →
      found.label? .comment = some span → lexer.strip span.text span.start = some left →
        byteSize left ≤ byteSize found.text

/-- What is left of a comment is a space or the end of the comment. -/
theorem byteSize_leaveBreak_le (comment : List Char) :
    byteSize (leaveBreak comment) ≤ max 1 (byteSize comment) := by
  simp only [leaveBreak]
  split
  · rename_i more hmore
    have hreverse : comment.reverse = comment.reverse.takeWhile Class.spaceTab ++ '\n' :: more := by
      rw [← hmore]
      exact (List.prefix_iff_eq_append.mp (List.takeWhile_prefix _)).symm
    have hcomment := congrArg List.reverse hreverse
    rw [List.reverse_reverse, List.reverse_append, List.reverse_cons, List.append_assoc,
      List.singleton_append] at hcomment
    have hend := byteSize_le_of_sublist (List.sublist_append_right more.reverse
      ('\n' :: (comment.reverse.takeWhile Class.spaceTab).reverse))
    rw [← hcomment] at hend
    exact hend.trans (Nat.le_max_right _ _)
  · exact Nat.le_max_left _ _

/-- A lexer shrinks if it leaves a piece of the comment, or a space, and no match of it is empty. -/
theorem Shrinks.of_strip (hpattern : 0 < lexer.pattern.fewest)
    (hstrip : ∀ comment index left, lexer.strip comment index = some left →
      byteSize left ≤ max 1 (byteSize comment)) : lexer.Shrinks := by
  intro index prev found behind span left hfound hspan hleft
  obtain ⟨before, after, htext, -, -⟩ := Match.span_within hfound hspan
  obtain ⟨_, _, -, htakes, -⟩ := Match.exists_takes hfound
  have hsome : 0 < byteSize found.text :=
    hpattern.trans_le (htakes.fewest_le.trans (length_le_byteSize _))
  have hinfix : span.text <:+: found.text := ⟨before, after, htext.symm⟩
  exact (hstrip _ _ _ hleft).trans (Nat.max_le.mpr ⟨hsome, byteSize_le_of_sublist hinfix.sublist⟩)

theorem shrinks_of_stripAll (hpattern : 0 < lexer.pattern.fewest) (hstrip : lexer.strip = stripAll) :
    lexer.Shrinks := by
  refine .of_strip hpattern fun comment index left hleft => ?_
  rw [hstrip] at hleft
  obtain rfl := Option.some.inj hleft
  exact byteSize_leaveBreak_le comment

end Lexer

/-! ### Setting aside -/

namespace MaskedText

variable {lexer : Lexer} {stripComments : Bool} {text : List Char} {masked : MaskedText}
  {literals literals' : Array (List Char)}

/-- The bytes of all literals. -/
def literalSize (literals : Array (List Char)) : Nat := (literals.toList.map byteSize).sum

/-- The bytes of as many placeholders. -/
def placeholderSize (count : Nat) : Nat := ((List.range count).map fun n => byteSize (Placeholder.render n)).sum

theorem literalSize_push (literals : Array (List Char)) (literal : List Char) :
    literalSize (literals.push literal) = literalSize literals + byteSize literal := by
  simp [literalSize]

theorem placeholderSize_succ (count : Nat) :
    placeholderSize (count + 1) = placeholderSize count + byteSize (Placeholder.render count) := by
  simp [placeholderSize, List.range_succ]

/-- A swap that adds no bytes to the text and the literals together, placeholders apart. -/
def AddsNone (literals : Array (List Char)) (old new _rest : List Char) (literals' : Array (List Char)) :
    Prop :=
  byteSize new + literalSize literals' + placeholderSize literals.size ≤
    byteSize old + literalSize literals + placeholderSize literals'.size

theorem addsNone_of_setsAside {old new rest : List Char} (h : SetsAside literals old new rest literals') :
    AddsNone literals old new rest literals' := by
  obtain ⟨before, literal, behind, rfl, rfl, rfl⟩ := h
  simp only [AddsNone, byteSize_append, literalSize_push, Array.size_push, placeholderSize_succ]
  omega

theorem addsNone_replaceMatch (stripComments : Bool) (literals : Array (List Char)) (hlexer : lexer.Shrinks)
    {index : Nat} {prev : Option Char} {found : Match} {rest : List Char}
    (h : lexer.pattern.matchAt index prev (found.text ++ rest) = some found) :
    AddsNone literals found.text (replaceMatch lexer stripComments literals found).1 rest
      (replaceMatch lexer stripComments literals found).2 := by
  have hall : SetsAside literals found.text (setAside literals found.text).1 rest
      (setAside literals found.text).2 := ⟨[], found.text, [], by simp, by simp [setAside], rfl⟩
  rw [replaceMatch]
  split
  · exact addsNone_of_setsAside (setsAside_setAsideMatch h literals rest)
  · rename_i span hspan
    split
    · rename_i left hleft
      cases stripComments with
      | false => cases hleft
      | true =>
        have hshrinks := hlexer index prev found rest span left h hspan hleft
        simp only [AddsNone]
        omega
    · exact addsNone_of_setsAside hall

theorem byteSize_add_le_of_edits {out : List Char} (h : Edits AddsNone literals text out literals') :
    byteSize out + literalSize literals' + placeholderSize literals.size ≤
      byteSize text + literalSize literals + placeholderSize literals'.size := by
  induction h with
  | keep kept => exact Nat.le_refl _
  | swap kept hswap _ ih =>
    simp only [AddsNone] at hswap
    simp only [byteSize_append]
    omega

/-- Masking moves bytes from the text to the literals and adds none, placeholders apart. -/
theorem byteSize_add_le_of_mask (hlexer : lexer.Shrinks)
    (h : mask lexer stripComments text = .ok masked) :
    byteSize masked.text + literalSize masked.literals ≤
      byteSize text + placeholderSize masked.literals.size := by
  rw [mask, if_neg (mt reserved_iff.mp (not_reserved_of_mask h))] at h
  obtain rfl := Except.ok.inj h
  rw [replaceSegments_eq]
  refine byteSize_add_le_of_edits (((Pattern.segments_segmented lexer.pattern text).edits
    (replaceMatch lexer stripComments) #[]).mono ?_)
  rintro literals _ new rest literals' ⟨index, prev, found, hfound, rfl, hreplace⟩
  have hnone := addsNone_replaceMatch stripComments literals hlexer hfound
  rw [hreplace] at hnone
  exact hnone

end MaskedText

/-! ### Filled texts -/

namespace Template

variable {value : Nat → List Char} {edited template first second third : Template}

theorem byteSize_fill (value : Nat → List Char) (template : Template) :
    byteSize (template.fill value) =
      byteSize (template.fill fun _ => []) + (template.slots.map fun index => byteSize (value index)).sum := by
  induction template with
  | nil => rfl
  | cons token template ih =>
    cases token with
    | code c =>
      simp only [fill_cons_code, slots_cons_code, byteSize_cons, ih]
      omega
    | slot index =>
      simp only [fill_cons_slot, slots_cons_slot, byteSize_append, List.map_cons, List.sum_cons, ih,
        byteSize_nil]
      omega

/-- What an edit leaves of a template: some of its slots in their order, and a filled text that is no
larger. -/
structure Lighter (value : Nat → List Char) (edited template : Template) : Prop where
  slots : edited.slots.Sublist template.slots
  size : byteSize (edited.fill value) ≤ byteSize (template.fill value)

theorem Lighter.refl (template : Template) : Lighter value template template := ⟨.refl _, Nat.le_refl _⟩

theorem Lighter.trans (h : Lighter value second first) (h' : Lighter value third second) :
    Lighter value third first :=
  ⟨h'.slots.trans h.slots, h'.size.trans h.size⟩

theorem Lighter.append (h : Lighter value first second) (h' : Lighter value edited template) :
    Lighter value (first ++ edited) (second ++ template) where
  slots := by
    rw [slots_append, slots_append]
    exact h.slots.append h'.slots
  size := by
    rw [fill_append, fill_append, byteSize_append, byteSize_append]
    exact Nat.add_le_add h.size h'.size

theorem lighter_nil (template : Template) : Lighter value [] template :=
  ⟨List.nil_sublist _, Nat.zero_le _⟩

/-- With the same slots, no larger a masked text is no larger a filled text: the placeholders weigh the
same. -/
theorem Lighter.of_slots_eq (hslots : edited.slots = template.slots)
    (hsize : byteSize edited.render ≤ byteSize template.render) : Lighter value edited template where
  slots := hslots ▸ .refl _
  size := by
    rw [render, render, byteSize_fill, byteSize_fill Placeholder.render template, hslots] at hsize
    rw [byteSize_fill value edited, byteSize_fill value template, hslots]
    omega

theorem Lighter.keepsSlots (h : Lighter value edited template) : KeepsSlots True edited template :=
  ⟨h.slots, fun hnot => absurd trivial hnot⟩

end Template

open Template

/-! ### Edits -/

/-- A text becomes no larger once its slots are filled, whatever template with slots among those known it is
the masked text of. Some slots may go. -/
def Lightens (value : Nat → List Char) (known : List Nat) (text out : List Char) : Prop :=
  ∀ template : Template, template.Clean → template.slots.Sublist known → template.render = text →
    ∃ edited : Template, edited.Clean ∧ edited.render = out ∧ edited.Lighter value template

namespace Lightens

variable {value : Nat → List Char} {known : List Nat} {text out first second third : List Char}

theorem refl (text : List Char) : Lightens value known text text :=
  fun template hclean _ htext => ⟨template, hclean, htext, .refl _⟩

theorem trans (h : Lightens value known first second) (h' : Lightens value known second third) :
    Lightens value known first third := by
  intro template hclean hknown htext
  obtain ⟨middle, hmiddle, hrender, hlighter⟩ := h template hclean hknown htext
  obtain ⟨edited, hedited, hrender', hlighter'⟩ :=
    h' middle hmiddle (hlighter.slots.trans hknown) hrender
  exact ⟨edited, hedited, hrender', hlighter.trans hlighter'⟩

/-- An edit that keeps all slots is judged by the masked text. -/
theorem of_carriedTo (h : CarriedTo Eq text out) (hsize : byteSize out ≤ byteSize text) :
    Lightens value known text out := by
  intro template hclean _ htext
  obtain ⟨edited, hedited, hrender, hslots⟩ := h template hclean htext
  rw [← htext, ← hrender] at hsize
  exact ⟨edited, hedited, hrender, .of_slots_eq hslots hsize⟩

/-- A swap between two clear pieces puts a lighter template in the place of the tokens that it takes. -/
def Swaps (value : Nat → List Char) (known : List Nat) (old new _rest : List Char) : Prop :=
  ∃ first middle last, Clear first ∧ Clear last ∧ old = first ++ (middle ++ last) ∧
    ∀ held : Template, held.Clean → held.slots.Sublist known → held.render = middle →
      ∃ given : Template, given.Clean ∧ given.render = new ∧
        given.Lighter value (ofCode first ++ (held ++ ofCode last))

/-- What stands between the clear pieces is made of tokens, and so are all three together. -/
theorem of_edits {σ : Type} {state final : σ}
    (h : Edits (fun _ old new rest _ => Swaps value known old new rest) state text out final) :
    Lightens value known text out := by
  induction h with
  | keep kept => exact .refl kept
  | swap kept hswap _ ih =>
    intro template hclean hknown htext
    obtain ⟨first, middle, last, hfirst, hlast, rfl, hpieces⟩ := hswap
    simp only [List.append_assoc] at htext
    obtain ⟨before, inside, rfl, rfl, hinside⟩ := exists_split htext hfirst
    obtain ⟨held, behind, rfl, hheld, hbehind⟩ := exists_split hinside hlast
    simp only [clean_append] at hclean
    simp only [slots_append] at hknown
    have hslots : (held.slots ++ (ofCode last).slots ++ behind.slots).Sublist known :=
      (List.sublist_append_right _ _).trans hknown
    obtain ⟨given, hgiven, rfl, hlighter⟩ := hpieces held hclean.2.1.1
      ((List.sublist_append_left _ _).trans ((List.sublist_append_left _ _).trans hslots)) hheld
    obtain ⟨edited, hedited, rfl, hlighter'⟩ :=
      ih behind hclean.2.2 ((List.sublist_append_right _ _).trans hslots) hbehind
    refine ⟨before ++ (given ++ edited), ?_, by simp, ?_⟩
    · simp only [clean_append]
      exact ⟨hclean.1.1, hgiven, hedited⟩
    · have hall := (Lighter.refl before).append (hlighter.append hlighter')
      simpa using hall

end Lightens

/-! ### Rules -/

section Rules

variable {value : Nat → List Char} {known : List Nat} {rule : Rule} {pipeline : Pipeline}

theorem Rule.Shrinks.lightens (h : rule.Shrinks) (hcarries : Carries Eq rule.apply) (text : List Char) :
    Lightens value known text (rule.apply text) :=
  .of_carriedTo (hcarries text) (h.byteSize_apply text)

/-- Matches between two clear pieces may go, with the slots that they hold. -/
theorem Rule.lightens_drop {name : String} {pattern : Pattern}
    (h : ∀ prev taken behind parts, pattern.Takes prev taken behind parts → ∃ first middle last,
      Clear first ∧ Clear last ∧ taken = first ++ (middle ++ last)) (text : List Char) :
    Lightens value known text ((Rule.drop name pattern).apply text) := by
  refine apply_of_once .refl .trans (fun text => ?_) text
  refine .of_edits ((Pattern.edits_replaceAll pattern _ text).mono ?_)
  rintro _ old new rest _ ⟨index, prev, found, hfound, rfl, rfl⟩
  obtain ⟨_, _, -, htakes, -⟩ := Match.exists_takes hfound
  obtain ⟨first, middle, last, hfirst, hlast, htaken⟩ := h _ _ _ _ htakes
  exact ⟨first, middle, last, hfirst, hlast, htaken, fun held _ _ _ =>
    ⟨[], unreserved_nil, rfl, lighter_nil _⟩⟩

theorem Pipeline.lightens_run
    (h : pipeline.Each fun rule => ∀ text, Lightens value known text (rule.apply text))
    (text : List Char) : Lightens value known text (pipeline.run text) :=
  run_of_apply .refl .trans h text

end Rules

/-! ### Layouts -/

namespace Layout

variable {scanned masked : MaskedText} {text edited : List Char} {inner : Nat → Template}
  {source code : Template}

/-- What the slots of a masked text stand for in the end. -/
def values (scanned : MaskedText) (inner : Nat → Template) (index : Nat) : List Char :=
  (inner index).fill (literalAt scanned.literals)

theorem sum_literalAt (literals : Array (List Char)) :
    ((List.range literals.size).map fun index => byteSize (literalAt literals index)).sum =
      MaskedText.literalSize literals := by
  have hliterals : (List.range literals.size).map (literalAt literals) = literals.toList := by
    apply List.ext_getElem
    · simp
    · intro n hn hn'
      simp [literalAt, Array.getElem?_eq_getElem (by simpa using hn')]
  rw [MaskedText.literalSize, ← hliterals, List.map_map]
  rfl

/-- Filling in brings no more bytes than the masked text and the literals have. -/
theorem byteSize_fill_le (h : Layout scanned masked text inner source code)
    (hmask : byteSize scanned.text + MaskedText.literalSize scanned.literals ≤
      byteSize text + MaskedText.placeholderSize scanned.literals.size) :
    byteSize (code.fill (values scanned inner)) ≤ byteSize text := by
  have hfill : code.fill (values scanned inner) = (code.expand inner).fill (literalAt scanned.literals) :=
    fill_expand.symm
  rw [h.scanned_text, render, byteSize_fill, h.scanned_slots] at hmask
  rw [hfill, byteSize_fill, h.scanned_slots, sum_literalAt]
  rw [MaskedText.placeholderSize] at hmask
  omega

/-- Restoring an edited text brings no more bytes than the text has, if the edit adds none. -/
theorem byteSize_unmask_le (h : Layout scanned masked text inner source code) (htext : Unreserved text)
    (hmask : byteSize scanned.text + MaskedText.literalSize scanned.literals ≤
      byteSize text + MaskedText.placeholderSize scanned.literals.size)
    (hedit : Lightens (values scanned inner) code.slots masked.text edited) :
    byteSize (masked.unmask edited) ≤ byteSize text := by
  obtain ⟨result, hclean, rfl, hlighter⟩ := hedit code h.clean (.refl _) h.masked_text.symm
  rw [h.unmask_render htext hclean hlighter.keepsSlots, fill_expand]
  exact hlighter.size.trans (h.byteSize_fill_le hmask)

end Layout

end Minifier
