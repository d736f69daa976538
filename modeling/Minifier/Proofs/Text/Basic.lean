import Mathlib.Algebra.GroupWithZero.Nat
import Mathlib.Algebra.Order.BigOperators.Group.List
import Mathlib.Algebra.Order.Group.Nat
import Mathlib.Data.List.DropRight
import Minifier.Proofs.Pattern.Segments
import Minifier.Text.Basic

/-!
Byte counts of texts, and the ends of a text with what is between them. An edit whose swaps put no more bytes in the
place of a piece than the piece has makes a text no larger. Trimming takes blanks off the ends and nothing else, so a
text is the trimmed one between blanks.
-/

namespace Minifier

/-! ### Bytes -/

namespace Text

variable {first second : List Char}

theorem byteSize_eq_sum (text : List Char) : byteSize text = (text.map Char.utf8Size).sum := by
  have hfrom : ∀ n, text.foldl (fun n c => n + c.utf8Size) n = n + (text.map Char.utf8Size).sum := by
    induction text with
    | nil => simp
    | cons c text ih =>
      intro n
      rw [List.foldl_cons, ih, List.map_cons, List.sum_cons, Nat.add_assoc]
  rw [byteSize, hfrom, Nat.zero_add]

@[simp] theorem byteSize_nil : byteSize [] = 0 := rfl

@[simp] theorem byteSize_cons (c : Char) (text : List Char) :
    byteSize (c :: text) = c.utf8Size + byteSize text := by
  simp [byteSize_eq_sum]

@[simp] theorem byteSize_append (first second : List Char) :
    byteSize (first ++ second) = byteSize first + byteSize second := by
  simp [byteSize_eq_sum]

theorem utf8ByteSize_ofList (text : List Char) : (String.ofList text).utf8ByteSize = byteSize text := by
  induction text with
  | nil => rfl
  | cons c text ih =>
    have hcons : String.ofList (c :: text) = String.singleton c ++ String.ofList text := by
      apply String.toList_injective
      simp
    rw [hcons, String.utf8ByteSize_append, ih, byteSize_cons, String.utf8ByteSize_singleton]

theorem utf8ByteSize_eq (text : String) : text.utf8ByteSize = byteSize text.toList := by
  rw [← utf8ByteSize_ofList, String.ofList_toList]

theorem byteSize_le_of_sublist (h : first.Sublist second) : byteSize first ≤ byteSize second := by
  rw [byteSize_eq_sum, byteSize_eq_sum]
  exact (h.map _).sum_le_sum fun _ _ => Nat.zero_le _

theorem length_le_byteSize (text : List Char) : text.length ≤ byteSize text := by
  induction text with
  | nil => exact Nat.le_refl _
  | cons c text ih =>
    have hc := c.utf8Size_pos
    rw [List.length_cons, byteSize_cons]
    omega

end Text

theorem Edits.byteSize_le {σ : Type} {state final : σ} {text out : List Char}
    (h : Edits (fun _ old new _ _ => Text.byteSize new ≤ Text.byteSize old) state text out final) :
    Text.byteSize out ≤ Text.byteSize text := by
  induction h with
  | keep kept => exact Nat.le_refl _
  | swap kept hswap _ ih =>
    simp only [Text.byteSize_append]
    omega

/-- Swaps that leave some of the characters in their order make an edit that does. -/
theorem Edits.sublist {σ α : Type} {state final : σ} {text out : List α}
    (h : Edits (fun _ old new _ _ => new.Sublist old) state text out final) : out.Sublist text := by
  induction h with
  | keep kept => exact .refl _
  | swap kept hswap _ ih => exact (List.Sublist.refl kept).append (hswap.append ih)

namespace Pattern

variable {pattern : Pattern} {replace : Match → List Char}

theorem replaceAll_sublist
    (h : ∀ index prev found behind, pattern.matchAt index prev (found.text ++ behind) = some found →
      (replace found).Sublist found.text) (text : List Char) :
    (pattern.replaceAll replace text).Sublist text := by
  refine ((edits_replaceAll pattern replace text).mono ?_).sublist
  rintro _ old new rest _ ⟨index, prev, found, hfound, rfl, rfl⟩
  exact h index prev found rest hfound

end Pattern

/-! ### Ends -/

namespace Text

variable {p : Char → Bool} {c : Char} {core text rest part left right : List Char}

theorem contains_iff (part text : List Char) : contains part text = true ↔ part <:+: text := by
  induction text with
  | nil => simp [contains]
  | cons c rest ih => rw [contains, Bool.or_eq_true_iff, List.isPrefixOf_iff_prefix, ih, List.infix_cons_iff]

/-- A part without some character occurs on one side of this character, or not at all. -/
theorem infix_append_cons_iff (hc : c ∉ part) : part <:+: left ++ c :: right ↔ part <:+: left ∨ part <:+: right := by
  cases part with
  | nil => simp
  | cons d part =>
    have hbehind : d :: part <:+: c :: right ↔ d :: part <:+: right := by
      rw [List.infix_cons_iff, or_iff_right]
      exact fun hbegin => hc ((List.cons_prefix_cons.mp hbegin).1 ▸ List.mem_cons_self)
    rw [List.infix_append_iff_ne_nil, hbehind]
    refine or_congr_right (or_iff_left ?_)
    rintro ⟨front, back, -, hback, hpart, -, hbegin⟩
    obtain ⟨e, more, rfl⟩ := List.exists_cons_of_ne_nil hback
    obtain ⟨rfl, -⟩ := List.cons_prefix_cons.mp hbegin
    exact hc (hpart ▸ List.mem_append_right front List.mem_cons_self)

/-! ### Tails -/

theorem dropTail_eq_rdropWhile (p : Char → Bool) (text : List Char) : dropTail p text = text.rdropWhile p := rfl

theorem dropTail_eq_nil (h : ∀ d ∈ text, p d = true) : dropTail p text = [] :=
  List.rdropWhile_eq_nil_iff.mpr h

/-- If not the whole text is such a tail, then its first character stays. -/
theorem dropTail_cons (h : ¬ ∀ d ∈ c :: rest, p d = true) : dropTail p (c :: rest) = c :: dropTail p rest := by
  simp only [dropTail_eq_rdropWhile]
  induction rest using List.reverseRecOn with
  | nil =>
    have hc : ¬ p c = true := by simpa using h
    simp [List.rdropWhile_singleton, hc]
  | append_singleton rest d ih =>
    rw [← List.cons_append]
    by_cases hd : p d = true
    · rw [List.rdropWhile_concat_pos p _ d hd, List.rdropWhile_concat_pos p _ d hd]
      refine ih fun hall => h ?_
      rw [← List.cons_append, List.forall_mem_append]
      exact ⟨hall, List.forall_mem_singleton.mpr hd⟩
    · rw [List.rdropWhile_concat_neg p _ d hd, List.rdropWhile_concat_neg p _ d hd, List.cons_append]

/-! ### Both ends -/

/-- A text is another one between blanks. -/
def Padded (core text : List Char) : Prop :=
  ∃ before behind, (∀ c ∈ before, isBlank c = true) ∧ (∀ c ∈ behind, isBlank c = true) ∧
    text = before ++ (core ++ behind)

theorem Padded.refl (text : List Char) : Padded text text := ⟨[], [], by simp, by simp, by simp⟩

theorem padded_trim (text : List Char) : Padded (trim text) text := by
  refine ⟨text.takeWhile isBlank, (text.dropWhile isBlank).rtakeWhile isBlank, ?_, ?_, ?_⟩
  · exact List.all_eq_true.mp List.all_takeWhile
  · exact fun c hc => List.mem_rtakeWhile_imp hc
  · rw [trim, dropTail_eq_rdropWhile, List.rdropWhile_append_rtakeWhile, List.takeWhile_append_dropWhile]

/-- A text without the characters of one class at its beginning and those of another at its end. -/
def cut (lead tail : Char → Bool) (text : List Char) : List Char := dropTail tail (text.dropWhile lead)

theorem infix_cut (lead tail : Char → Bool) (text : List Char) : cut lead tail text <:+: text := by
  rw [cut, dropTail_eq_rdropWhile]
  exact (List.rdropWhile_prefix tail _).isInfix.trans (List.dropWhile_suffix lead).isInfix

theorem head?_cut (lead tail : Char → Bool) (text : List Char) : (cut lead tail text).head?.any lead = false := by
  rw [cut, dropTail_eq_rdropWhile, Option.any_eq_false]
  intro c hc
  obtain ⟨core, hcore⟩ := List.head?_eq_some_iff.mp hc
  obtain ⟨behind, hbehind⟩ := List.rdropWhile_prefix tail (text.dropWhile lead)
  have hstop := List.head?_dropWhile_not lead text
  rw [← hbehind, hcore] at hstop
  simpa using hstop

theorem getLast?_cut (lead tail : Char → Bool) (text : List Char) :
    (cut lead tail text).getLast?.any tail = false := by
  rw [cut, dropTail_eq_rdropWhile, Option.any_eq_false]
  intro d hd
  obtain ⟨most, hmost⟩ := List.getLast?_eq_some_iff.mp hd
  have hne : (text.dropWhile lead).rdropWhile tail ≠ [] := by simp [hmost]
  have hlast := List.rdropWhile_last_not tail (text.dropWhile lead) hne
  simpa [hmost] using hlast

theorem cut_eq_self {lead tail : Char → Bool} (hfirst : text.head?.any lead = false)
    (hlast : text.getLast?.any tail = false) : cut lead tail text = text := by
  have hdrop : text.dropWhile lead = text := by
    cases text with
    | nil => rfl
    | cons c rest => exact List.dropWhile_cons_of_neg (Bool.eq_false_iff.mp hfirst)
  rw [cut, hdrop, dropTail_eq_rdropWhile, List.rdropWhile_eq_self_iff]
  intro hne
  rw [List.getLast?_eq_some_getLast hne] at hlast
  exact Bool.eq_false_iff.mp hlast

theorem trim_eq_cut : trim = cut isBlank isBlank := rfl

end Text

end Minifier
