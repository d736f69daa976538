import Mathlib.Data.List.Flatten
import Minifier.Proofs.Masking.Unwinding

/-!
Masked text token by token. A template has characters of code and slots for literals; written out, each
slot is a placeholder. A text does not show where its tokens begin, and the digits of a placeholder look
like any others. What can be said is this: a piece without marking characters that is not all digits
lies in the code, since a piece inside a placeholder can only be some of its digits. So an edit that
takes such pieces is an edit of tokens.
-/

namespace Minifier

/-- A piece of a masked text: a character of the code, or the place of a literal. -/
inductive Token where
  | code (c : Char) : Token
  | slot (index : Nat) : Token
  deriving DecidableEq, Repr

/-- A masked text as tokens. -/
abbrev Template := List Token

/-- Neither of the characters that mark placeholders stands in a text. -/
def Unreserved (text : List Char) : Prop :=
  Placeholder.opening ∉ text ∧ Placeholder.closing ∉ text

instance (text : List Char) : Decidable (Unreserved text) := inferInstanceAs (Decidable (_ ∧ _))

/-- A piece that cannot lie in a placeholder or reach into one: no marking character, and not only
digits. -/
structure Clear (piece : List Char) : Prop where
  unreserved : Unreserved piece
  exists_not_digit : ∃ c ∈ piece, c.isDigit = false

section Unreserved

variable {text other : List Char}

theorem unreserved_nil : Unreserved [] := ⟨List.not_mem_nil, List.not_mem_nil⟩

theorem unreserved_append : Unreserved (text ++ other) ↔ Unreserved text ∧ Unreserved other := by
  simp only [Unreserved, List.mem_append, not_or]
  exact ⟨fun h => ⟨⟨h.1.1, h.2.1⟩, h.1.2, h.2.2⟩, fun h => ⟨⟨h.1.1, h.2.1⟩, h.1.2, h.2.2⟩⟩

theorem unreserved_cons {c : Char} : Unreserved (c :: text) ↔ Unreserved [c] ∧ Unreserved text := by
  rw [← unreserved_append, List.singleton_append]

theorem Unreserved.of_subset (h : Unreserved other) (hsubset : text ⊆ other) : Unreserved text :=
  ⟨fun hmem => h.1 (hsubset hmem), fun hmem => h.2 (hsubset hmem)⟩

theorem Clear.ne_nil {piece : List Char} (h : Clear piece) : piece ≠ [] := by
  obtain ⟨c, hc, -⟩ := h.exists_not_digit
  exact List.ne_nil_of_mem hc

end Unreserved

namespace Template

variable {template other first last : Template} {value : Nat → List Char}
  {before piece behind text : List Char}

/-- The text of a template, given what stands in its slots. -/
def fill (value : Nat → List Char) (template : Template) : List Char :=
  template.flatMap fun
    | .code c => [c]
    | .slot index => value index

/-- The masked text of a template. -/
def render (template : Template) : List Char := template.fill Placeholder.render

/-- The slots of a template, in order. -/
def slots (template : Template) : List Nat :=
  template.filterMap fun
    | .code _ => none
    | .slot index => some index

/-- Code without literals. -/
def ofCode (text : List Char) : Template := text.map .code

/-- The code of a template does not look like placeholders. -/
def Clean (template : Template) : Prop := Unreserved (template.fill fun _ => [])

@[simp] theorem fill_nil : fill value [] = [] := rfl

@[simp] theorem fill_cons_code (c : Char) : fill value (.code c :: template) = c :: fill value template :=
  rfl

@[simp] theorem fill_cons_slot (index : Nat) :
    fill value (.slot index :: template) = value index ++ fill value template := rfl

@[simp] theorem fill_append : fill value (template ++ other) = fill value template ++ fill value other :=
  List.flatMap_append

@[simp] theorem fill_ofCode : fill value (ofCode text) = text := by
  induction text with
  | nil => rfl
  | cons c text ih => exact congrArg (c :: ·) ih

@[simp] theorem render_nil : render [] = [] := rfl

@[simp] theorem render_cons_code (c : Char) : render (.code c :: template) = c :: render template := rfl

@[simp] theorem render_cons_slot (index : Nat) :
    render (.slot index :: template) = Placeholder.render index ++ render template := rfl

@[simp] theorem render_append : render (template ++ other) = render template ++ render other :=
  fill_append

@[simp] theorem render_ofCode : render (ofCode text) = text := fill_ofCode

@[simp] theorem slots_nil : slots [] = [] := rfl

@[simp] theorem slots_cons_code (c : Char) : slots (.code c :: template) = slots template := rfl

@[simp] theorem slots_cons_slot (index : Nat) :
    slots (.slot index :: template) = index :: slots template := rfl

@[simp] theorem slots_append : slots (template ++ other) = slots template ++ slots other :=
  List.filterMap_append

@[simp] theorem slots_ofCode : slots (ofCode text) = [] := by
  induction text with
  | nil => rfl
  | cons c text ih => exact ih

theorem clean_append : Clean (template ++ other) ↔ Clean template ∧ Clean other := by
  rw [Clean, fill_append, unreserved_append]
  rfl

theorem clean_ofCode : Clean (ofCode text) ↔ Unreserved text := by
  rw [Clean, fill_ofCode]

theorem clean_slot (index : Nat) : Clean [.slot index] := unreserved_nil

/-- A clean template filled with texts that look like no placeholders looks like none. -/
theorem Clean.unreserved_fill (h : template.Clean) (hvalue : ∀ index, Unreserved (value index)) :
    Unreserved (template.fill value) := by
  induction template with
  | nil => exact unreserved_nil
  | cons token template ih =>
    obtain ⟨htoken, hrest⟩ := clean_append.mp (show Clean ([token] ++ template) from h)
    cases token with
    | code c => exact unreserved_append.mpr ⟨htoken, ih hrest⟩
    | slot index => exact unreserved_append.mpr ⟨hvalue index, ih hrest⟩

/-- What stands in a slot stands in the text as a whole. -/
theorem infix_fill {index : Nat} (h : index ∈ template.slots) : value index <:+: template.fill value := by
  induction template with
  | nil => cases h
  | cons token template ih =>
    cases token with
    | code c => exact (ih h).trans (List.suffix_cons _ _).isInfix
    | slot other =>
      rcases List.mem_cons.mp h with rfl | h
      · exact (List.prefix_append _ _).isInfix
      · exact (ih h).trans (List.suffix_append _ _).isInfix

theorem subset_fill {index : Nat} (h : index ∈ template.slots) : value index ⊆ template.fill value :=
  (infix_fill h).subset

theorem eq_nil_of_render (h : template.render = []) : template = [] := by
  cases template with
  | nil => rfl
  | cons token template => cases token <;> cases h

/-! ### Finding tokens -/

/-- A piece without marking characters at the beginning is code. -/
theorem exists_of_render_eq (h : template.render = piece ++ behind) (hpiece : Unreserved piece) :
    ∃ last, template = ofCode piece ++ last ∧ last.render = behind := by
  induction piece generalizing template with
  | nil => exact ⟨template, rfl, h⟩
  | cons c piece ih =>
    cases template with
    | nil => cases h
    | cons token template =>
      cases token with
      | code d =>
        obtain ⟨rfl, hrest⟩ := List.cons.inj h
        obtain ⟨last, rfl, hlast⟩ := ih hrest (hpiece.of_subset (List.subset_cons_self _ _))
        exact ⟨last, rfl, hlast⟩
      | slot index =>
        obtain ⟨rfl, -⟩ := List.cons.inj h
        exact absurd (List.mem_cons_self ..) hpiece.1

/-- The characters of a placeholder are marking characters and digits, and it ends with one of the
former. -/
theorem mem_placeholder {index : Nat} {c : Char} (h : c ∈ Placeholder.render index) :
    c = Placeholder.opening ∨ c = Placeholder.closing ∨ c.isDigit = true := by
  rcases List.mem_cons.mp h with rfl | h
  · exact Or.inl rfl
  · rcases List.mem_append.mp h with h | h
    · exact Or.inr (Or.inr (Placeholder.isDigit_of_mem_digitChars h))
    · exact Or.inr (Or.inl (List.mem_singleton.mp h))

private theorem getLast?_placeholder (index : Nat) :
    (Placeholder.render index).getLast? = some Placeholder.closing := by
  rw [Placeholder.render, ← List.cons_append, List.getLast?_concat]

/-- A clear piece begins behind a placeholder, if it does not begin before it. -/
private theorem exists_of_placeholder_eq {index : Nat}
    (h : Placeholder.render index ++ text = before ++ (piece ++ behind)) (hpiece : Clear piece) :
    ∃ more, before = Placeholder.render index ++ more ∧ text = more ++ (piece ++ behind) := by
  rcases List.append_eq_append_iff.mp h with ⟨more, rfl, rfl⟩ | ⟨inside, hinside, hpieces⟩
  · exact ⟨more, rfl, rfl⟩
  · rcases List.append_eq_append_iff.mp hpieces with ⟨more, rfl, -⟩ | ⟨more, rfl, -⟩
    · -- The piece would be some of the placeholder's characters.
      obtain ⟨c, hc, hdigit⟩ := hpiece.exists_not_digit
      have hmem : c ∈ Placeholder.render index := by simp [hinside, hc]
      rcases mem_placeholder hmem with rfl | rfl | h
      · exact absurd hc hpiece.unreserved.1
      · exact absurd hc hpiece.unreserved.2
      · rw [hdigit] at h
        cases h
    · have hlast := getLast?_placeholder index
      rw [hinside, List.getLast?_append] at hlast
      cases hend : inside.getLast? with
      | none =>
        obtain rfl := List.getLast?_eq_none_iff.mp hend
        exact ⟨[], by simpa using hinside.symm, by simpa using hpieces.symm⟩
      | some c =>
        rw [hend] at hlast
        obtain rfl := Option.some.inj hlast
        have hmem : Placeholder.closing ∈ inside ++ more :=
          List.mem_append_left _ (List.mem_of_getLast? hend)
        exact absurd hmem hpiece.unreserved.2

/-- A clear piece is code, and what stands before it and behind it is a template each. -/
theorem exists_split (h : template.render = before ++ (piece ++ behind)) (hpiece : Clear piece) :
    ∃ first last, template = first ++ ofCode piece ++ last ∧ first.render = before ∧
      last.render = behind := by
  induction template generalizing before with
  | nil =>
    have hnil : piece = [] := by
      have hempty := List.append_eq_nil_iff.mp h.symm
      exact (List.append_eq_nil_iff.mp hempty.2).1
    exact absurd hnil hpiece.ne_nil
  | cons token template ih =>
    cases token with
    | code c =>
      cases before with
      | nil =>
        have hpieces : render (.code c :: template) = piece ++ behind := h
        obtain ⟨last, hlast, hrender⟩ := exists_of_render_eq hpieces hpiece.unreserved
        exact ⟨[], last, hlast, rfl, hrender⟩
      | cons d before =>
        obtain ⟨rfl, hrest⟩ := List.cons.inj h
        obtain ⟨first, last, rfl, rfl, hlast⟩ := ih hrest
        exact ⟨.code c :: first, last, rfl, rfl, hlast⟩
    | slot index =>
      obtain ⟨more, rfl, hmore⟩ := exists_of_placeholder_eq h hpiece
      obtain ⟨first, last, rfl, rfl, hlast⟩ := ih hmore
      exact ⟨.slot index :: first, last, rfl, rfl, hlast⟩

/-! ### Filling in -/

/-- The literal with a number, nothing if there is none. -/
def literalAt (literals : Array (List Char)) (index : Nat) : List Char := literals[index]?.getD []

theorem valueOf_digitChars (literals : Array (List Char)) (index : Nat) :
    Placeholder.valueOf literals (Decimal.digitChars index) = literalAt literals index := by
  simp [Placeholder.valueOf, Placeholder.number?_digitChars, literalAt]

/-- A written placeholder is filled in with the literal of its number. -/
theorem fillsOne_render (literals : Array (List Char)) (index : Nat) (behind : List Char) :
    FillsOne literals (Placeholder.render index ++ behind) (literalAt literals index ++ behind) := by
  have hone : FillsOne literals _ _ := .fill [] behind (Placeholder.digitChars_ne_nil index)
    (Placeholder.digits_digitChars index)
  rw [valueOf_digitChars] at hone
  simpa [Placeholder.render] using hone

/-- Other templates in the place of slots. -/
def expand (inner : Nat → Template) (template : Template) : Template :=
  template.flatMap fun
    | .code c => [.code c]
    | .slot index => inner index

variable {inner : Nat → Template}

theorem expand_append : expand inner (template ++ other) = expand inner template ++ expand inner other :=
  List.flatMap_append

theorem expand_cons_slot (index : Nat) :
    expand inner (.slot index :: template) = inner index ++ expand inner template := rfl

/-- Slots that stand for themselves change nothing. -/
theorem expand_eq_self (h : ∀ index ∈ template.slots, inner index = [.slot index]) :
    expand inner template = template := by
  induction template with
  | nil => rfl
  | cons token template ih =>
    cases token with
    | code c => exact congrArg (Token.code c :: ·) (ih h)
    | slot index =>
      rw [slots_cons_slot, List.forall_mem_cons] at h
      rw [expand_cons_slot, h.1, ih h.2]
      rfl

theorem fill_expand : (expand inner template).fill value = template.fill fun index => (inner index).fill value := by
  induction template with
  | nil => rfl
  | cons token template ih =>
    cases token with
    | code c => exact congrArg (c :: ·) ih
    | slot index =>
      rw [fill_cons_slot, ← ih, ← fill_append]
      rfl

theorem slots_expand : (expand inner template).slots = template.slots.flatMap fun index => (inner index).slots := by
  induction template with
  | nil => rfl
  | cons token template ih =>
    cases token with
    | code c => exact ih
    | slot index =>
      rw [slots_cons_slot, List.flatMap_cons, ← ih, ← slots_append]
      rfl

theorem fill_congr {value' : Nat → List Char} (h : ∀ index ∈ template.slots, value index = value' index) :
    template.fill value = template.fill value' := by
  induction template with
  | nil => rfl
  | cons token template ih =>
    cases token with
    | code c => exact congrArg (c :: ·) (ih h)
    | slot index =>
      rw [slots_cons_slot, List.forall_mem_cons] at h
      rw [fill_cons_slot, fill_cons_slot, h.1, ih h.2]

theorem Clean.expand (h : template.Clean) (hinner : ∀ index, (inner index).Clean) :
    (template.expand inner).Clean := by
  rw [Clean, fill_expand]
  exact h.unreserved_fill hinner

/-- A template has the slots of another one, or some of them if literals may go. -/
structure KeepsSlots (mayDrop : Prop) (result code : Template) : Prop where
  sublist : result.slots.Sublist code.slots
  eq : ¬ mayDrop → result.slots = code.slots

theorem KeepsSlots.expand {mayDrop : Prop} {result code : Template} (h : KeepsSlots mayDrop result code)
    (inner : Nat → Template) : KeepsSlots mayDrop (result.expand inner) (code.expand inner) where
  sublist := by
    rw [slots_expand, slots_expand]
    exact h.sublist.flatMap _
  eq hnot := by rw [slots_expand, slots_expand, h.eq hnot]

/-- Where each slot of some kind holds the masked text of a template, and the others stand for themselves,
filling in the former takes one step each. -/
theorem fillsIn_expand {literals : Array (List Char)} (isNested : Nat → Bool)
    (hnested : ∀ index ∈ template.slots, isNested index = true →
      literalAt literals index = (inner index).render)
    (hplain : ∀ index ∈ template.slots, isNested index = false → inner index = [.slot index]) :
    FillsIn literals (template.slots.filter isNested).length template.render
      (expand inner template).render := by
  induction template with
  | nil => exact .none _
  | cons token template ih =>
    cases token with
    | code c => exact (ih hnested hplain).append_left [c]
    | slot index =>
      rw [slots_cons_slot, List.forall_mem_cons] at hnested hplain
      have hrest := ih hnested.2 hplain.2
      have hexpand : expand inner (.slot index :: template) = inner index ++ expand inner template := rfl
      rw [render_cons_slot, slots_cons_slot, hexpand, render_append]
      by_cases hindex : isNested index = true
      · rw [List.filter_cons_of_pos hindex, ← hnested.1 hindex]
        exact .more (fillsOne_render literals index _) (hrest.append_left _)
      · rw [List.filter_cons_of_neg hindex, hplain.1 (Bool.not_eq_true _ ▸ hindex), render_cons_slot,
          render_nil, List.append_nil]
        exact hrest.append_left (Placeholder.render index)

/-- Filling in every slot takes one step each. -/
theorem fillsIn_fill (literals : Array (List Char)) (template : Template) :
    FillsIn literals template.slots.length template.render (template.fill (literalAt literals)) := by
  induction template with
  | nil => exact .none _
  | cons token template ih =>
    cases token with
    | code c => exact ih.append_left [c]
    | slot index => exact .more (fillsOne_render literals index _) (ih.append_left _)

end Template

end Minifier
