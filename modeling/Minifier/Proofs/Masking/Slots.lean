import Minifier.Proofs.Masking.SetAside
import Minifier.Proofs.Masking.Template

/-!
What setting literals aside leaves, token by token. A scan gives a text two templates with the same slots:
one of the text as it was, with the removed comments in its code, and one of the masked text. A further
search sets pieces of the second one aside that begin and end with code; each of them is a template by
itself, and putting these in the place of the new slots gives the template of the scan again.
-/

namespace Minifier

open Template

/-- What a lexer leaves of a comment looks like no placeholder, as long as the comment does not. -/
def Lexer.StripsClean (lexer : Lexer) : Prop :=
  ∀ comment index left, lexer.strip comment index = some left → Unreserved comment → Unreserved left

namespace MaskedText

variable {literals literals' : Array (List Char)} {text out : List Char}

/-- Setting pieces of a text aside numbers them in order, and the text is its template filled with
them. -/
theorem exists_templates_of_edits {lexer : Lexer} {stripComments : Bool}
    (hlexer : lexer.StripsClean) (htext : Unreserved text)
    (h : Edits (fun literals old new rest literals' =>
        SetsAside literals old new rest literals' ∨
          stripComments = true ∧ Strips lexer literals old new rest literals')
      literals text out literals') :
    ∃ (pieces : List (List Char)) (source masked : Template),
      literals'.toList = literals.toList ++ pieces ∧ masked.Clean ∧ masked.render = out ∧
        masked.slots = List.range' literals.size pieces.length ∧ source.slots = masked.slots ∧
        ∀ final : Array (List Char), literals'.toList <+: final.toList →
          source.fill (literalAt final) = text := by
  induction h with
  | keep kept =>
    refine ⟨[], ofCode kept, ofCode kept, ?_, clean_ofCode.mpr htext, render_ofCode, ?_, rfl, ?_⟩
    · simp
    · simp
    · exact fun _ _ => fill_ofCode
  | @swap literals next literals' kept old new rest out hswap _ ih =>
    obtain ⟨hkept, htext⟩ := unreserved_append.mp htext
    obtain ⟨hold, hrest⟩ := unreserved_append.mp htext
    obtain ⟨pieces, source, masked, hliterals, hclean, hrender, hslots, hsame, hfill⟩ := ih hrest
    rcases hswap with ⟨before, literal, behind, rfl, rfl, rfl⟩ | ⟨-, comment, index, hcomment, hstrip, rfl⟩
    · obtain ⟨hbefore, hbehind⟩ := unreserved_append.mp hold
      obtain ⟨hbefore, -⟩ := unreserved_append.mp hbefore
      rw [Array.toList_push, List.append_assoc] at hliterals
      refine ⟨literal :: pieces, ofCode (kept ++ before) ++ .slot literals.size :: (ofCode behind ++ source),
        ofCode (kept ++ before) ++ .slot literals.size :: (ofCode behind ++ masked), hliterals, ?_, ?_, ?_,
        by simp [hsame], ?_⟩
      · refine clean_append.mpr ⟨clean_ofCode.mpr (unreserved_append.mpr ⟨hkept, hbefore⟩), ?_⟩
        exact clean_append.mpr ⟨clean_ofCode.mpr hbehind, hclean⟩
      · simp [hrender]
      · simp [hslots, List.range'_succ]
      · intro final hfinal
        have hliteral : literalAt final literals.size = literal := by
          obtain ⟨more, hmore⟩ := hfinal
          rw [literalAt, ← Array.getElem?_toList, ← hmore, hliterals]
          simp
        simp [hliteral, hfill final hfinal]
    · have hnew := hlexer comment index new hstrip (hold.of_subset hcomment.subset)
      refine ⟨pieces, ofCode (kept ++ old) ++ source, ofCode (kept ++ new) ++ masked, hliterals, ?_, ?_, ?_,
        by simp [hsame], ?_⟩
      · exact clean_append.mpr ⟨clean_ofCode.mpr (unreserved_append.mpr ⟨hkept, hnew⟩), hclean⟩
      · simp [hrender]
      · simp [hslots]
      · intro final hfinal
        simp [hfill final hfinal]

theorem unreserved_of_mask {lexer : Lexer} {stripComments : Bool} {masked : MaskedText}
    (h : mask lexer stripComments text = .ok masked) : Unreserved text :=
  not_or.mp (not_reserved_of_mask h)

/-- The templates of a scanned text and of its masked form. -/
theorem exists_templates_of_mask {lexer : Lexer} {stripComments : Bool} {masked : MaskedText}
    (hlexer : lexer.StripsClean) (h : mask lexer stripComments text = .ok masked) :
    ∃ source code : Template, code.Clean ∧ code.render = masked.text ∧
      code.slots = List.range masked.literals.size ∧ source.slots = code.slots ∧
      source.fill (literalAt masked.literals) = text := by
  obtain ⟨pieces, source, code, hliterals, hclean, hrender, hslots, hsame, hfill⟩ :=
    exists_templates_of_edits hlexer (unreserved_of_mask h) (edits_mask h)
  refine ⟨source, code, hclean, hrender, ?_, hsame, hfill _ List.prefix_rfl⟩
  have hsize : masked.literals.size = pieces.length := by
    rw [← Array.length_toList, hliterals]
    simp
  rw [hslots, hsize, List.range_eq_range']
  rfl

/-! ### A further search -/

/-- A piece is set aside that begins and ends with code. -/
def SetsClearAside (literals : Array (List Char)) (old new _rest : List Char)
    (literals' : Array (List Char)) : Prop :=
  ∃ before first middle last, Clear first ∧ Clear last ∧ old = before ++ (first ++ (middle ++ last)) ∧
    new = before ++ Placeholder.render literals.size ∧
    literals' = literals.push (first ++ (middle ++ last))

/-- The pieces that a further search sets aside are templates. With these in the place of the new slots, the
masked text has the template that it had before. -/
theorem exists_nested_of_edits {count : Nat} (hcount : count ≤ literals.size) {template : Template}
    (hclean : template.Clean) (hslots : ∀ index ∈ template.slots, index < count)
    (h : Edits SetsClearAside literals template.render out literals') :
    ∃ (pieces : List Template) (masked : Template),
      literals'.toList = literals.toList ++ pieces.map render ∧ (∀ piece ∈ pieces, piece.Clean) ∧
        masked.Clean ∧ masked.render = out ∧
        masked.slots.filter (count ≤ ·) = List.range' literals.size pieces.length ∧
        ∀ inner : Nat → Template, (∀ index < count, inner index = [.slot index]) →
          (∀ n piece, pieces[n]? = some piece → inner (literals.size + n) = piece) →
          masked.expand inner = template := by
  generalize htext : template.render = text at h
  induction h generalizing template with
  | keep kept =>
    refine ⟨[], template, by simp, by simp, hclean, htext, ?_, fun inner hinner _ => ?_⟩
    · simpa using hslots
    · exact expand_eq_self fun index hindex => hinner index (hslots index hindex)
  | @swap literals next literals' kept old new rest out hswap _ ih =>
    obtain ⟨before, first, middle, last, hfirst, hlast, rfl, rfl, rfl⟩ := hswap
    have hall : template.render = (kept ++ before) ++ (first ++ (middle ++ (last ++ rest))) := by
      simp [htext]
    obtain ⟨left, inside, rfl, hleft, hinside⟩ := exists_split hall hfirst
    obtain ⟨held, right, rfl, hheld, hright⟩ := exists_split hinside hlast
    simp only [clean_append] at hclean
    simp only [slots_append, slots_ofCode, List.append_nil, List.forall_mem_append] at hslots
    obtain ⟨pieces, masked, hliterals, hpieces, hmasked, hrender, hnew, hexpand⟩ :=
      ih (by rw [Array.size_push]; omega) hclean.2.2 hslots.2.2 hright
    refine ⟨(ofCode first ++ held ++ ofCode last) :: pieces, left ++ .slot literals.size :: masked,
      ?_, ?_, ?_, ?_, ?_, fun inner hinner hpiece => ?_⟩
    · simp [hliterals, hheld]
    · refine List.forall_mem_cons.mpr ⟨?_, hpieces⟩
      simp only [clean_append]
      exact ⟨⟨hclean.1.2, hclean.2.1.1⟩, hclean.2.1.2⟩
    · exact clean_append.mpr ⟨hclean.1.1, hmasked⟩
    · simp [hleft, hrender]
    · have hnone : left.slots.filter (count ≤ ·) = [] := by simpa using hslots.1
      rw [slots_append, slots_cons_slot, List.filter_append, hnone, List.nil_append,
        List.filter_cons_of_pos (by simpa using hcount), hnew, Array.size_push, List.length_cons,
        List.range'_succ]
    · have hself : left.expand inner = left :=
        expand_eq_self fun index hindex => hinner index (hslots.1 index hindex)
      have hfirstPiece : inner literals.size = ofCode first ++ held ++ ofCode last := hpiece 0 _ rfl
      have hrest : masked.expand inner = right := by
        apply hexpand inner hinner
        intro n piece hn
        rw [Array.size_push, Nat.add_assoc, Nat.add_comm 1 n]
        exact hpiece (n + 1) piece hn
      rw [expand_append, hself, expand_cons_slot, hfirstPiece, hrest]
      simp

end MaskedText

/-! ### Layouts -/

/-- How a text, what its scan leaves and what is set aside after the scan lie over each other. The text is
the template `source`, filled with the literals of the scan; the masked text is the template `code`. Slots
that the scan has not numbered stand for pieces of what it has left, each the template that `inner` gives,
and with these in their place `code` is what the scan has left. -/
structure Layout (scanned masked : MaskedText) (text : List Char) (inner : Nat → Template)
    (source code : Template) : Prop where
  text_eq : text = source.fill (literalAt scanned.literals)
  source_slots : source.slots = List.range scanned.literals.size
  scanned_text : scanned.text = (code.expand inner).render
  scanned_slots : (code.expand inner).slots = List.range scanned.literals.size
  masked_text : masked.text = code.render
  masked_slots : code.slots.filter (scanned.literals.size ≤ ·) =
    List.range' scanned.literals.size (masked.literals.size - scanned.literals.size)
  literals : scanned.literals.toList <+: masked.literals.toList
  inner_of_lt : ∀ index < scanned.literals.size, inner index = [.slot index]
  inner_of_le : ∀ index, scanned.literals.size ≤ index → index < masked.literals.size →
    masked.literals[index]? = some (inner index).render
  clean : code.Clean
  inner_clean : ∀ index, (inner index).Clean

namespace Layout

variable {scanned masked : MaskedText} {text : List Char} {inner : Nat → Template}
  {source code result : Template}

/-- The layout of a scan after which nothing is set aside. -/
theorem exists_of_mask {lexer : Lexer} {stripComments : Bool} (hlexer : lexer.StripsClean)
    (h : MaskedText.mask lexer stripComments text = .ok scanned) :
    ∃ source code : Template, code.slots = List.range scanned.literals.size ∧
      Layout scanned scanned text (fun index => [.slot index]) source code := by
  obtain ⟨source, code, hclean, hrender, hslots, hsame, hfill⟩ :=
    MaskedText.exists_templates_of_mask hlexer h
  have hself : code.expand (fun index => [.slot index]) = code := expand_eq_self fun _ _ => rfl
  refine ⟨source, code, hslots, ?_⟩
  exact {
    text_eq := hfill.symm
    source_slots := hsame.trans hslots
    scanned_text := by rw [hself, hrender]
    scanned_slots := by rw [hself, hslots]
    masked_text := hrender.symm
    masked_slots := by simp [hslots]
    literals := List.prefix_rfl
    inner_of_lt := fun _ _ => rfl
    inner_of_le := fun index hle hlt => absurd hlt (Nat.not_lt.mpr hle)
    clean := hclean
    inner_clean := clean_slot }

/-- A further search that sets aside pieces which begin and end with code makes a layout of one. -/
theorem exists_of_edits (h : Layout scanned scanned text (fun index => [.slot index]) source code)
    (hslots : code.slots = List.range scanned.literals.size)
    (hedits : Edits MaskedText.SetsClearAside scanned.literals scanned.text masked.text masked.literals) :
    ∃ (inner : Nat → Template) (code' : Template), Layout scanned masked text inner source code' := by
  rw [h.masked_text] at hedits
  obtain ⟨pieces, code', hliterals, hpieces, hclean, hrender, hnew, hexpand⟩ :=
    MaskedText.exists_nested_of_edits (Nat.le_refl _) h.clean (by simp [hslots]) hedits
  have hself : code.expand (fun index => [.slot index]) = code := expand_eq_self fun _ _ => rfl
  have hsize : masked.literals.size = scanned.literals.size + pieces.length := by
    rw [← Array.length_toList, hliterals]
    simp
  let inner (index : Nat) : Template :=
    if index < scanned.literals.size then [.slot index]
    else (pieces[index - scanned.literals.size]?).getD []
  have hlt : ∀ index < scanned.literals.size, inner index = [.slot index] :=
    fun index hindex => if_pos hindex
  have hle (n : Nat) : inner (scanned.literals.size + n) = (pieces[n]?).getD [] := by
    simp only [inner]
    rw [if_neg (by omega), Nat.add_sub_cancel_left]
  have hcode : code'.expand inner = code :=
    hexpand inner hlt fun n piece hpiece => by rw [hle, hpiece]; rfl
  refine ⟨inner, code', ?_⟩
  exact {
    text_eq := h.text_eq
    source_slots := h.source_slots
    scanned_text := by rw [hcode, h.masked_text]
    scanned_slots := by rw [hcode, hslots]
    masked_text := hrender.symm
    masked_slots := by rw [hnew, hsize, Nat.add_sub_cancel_left]
    literals := ⟨_, hliterals.symm⟩
    inner_of_lt := hlt
    inner_of_le := by
      intro index hle' hindex
      obtain ⟨n, rfl⟩ := Nat.exists_eq_add_of_le hle'
      have hn : n < pieces.length := by omega
      rw [← Array.getElem?_toList, hliterals, List.getElem?_append_right (by simp), hle]
      simp [hn]
    clean := hclean
    inner_clean := by
      intro index
      by_cases hindex : index < scanned.literals.size
      · rw [hlt index hindex]
        exact clean_slot index
      · obtain ⟨n, rfl⟩ := Nat.exists_eq_add_of_le (Nat.not_lt.mp hindex)
        rw [hle]
        cases hpiece : pieces[n]? with
        | none => exact unreserved_nil
        | some piece => exact hpieces piece (List.mem_of_getElem? hpiece) }

/-- The literals of the scan are pieces of the text, so they look like no placeholders. -/
theorem unreserved_literalAt (h : Layout scanned masked text inner source code)
    (htext : Unreserved text) (index : Nat) : Unreserved (literalAt scanned.literals index) := by
  by_cases hindex : index < scanned.literals.size
  · have hslot : index ∈ source.slots := by simpa [h.source_slots] using hindex
    rw [h.text_eq] at htext
    exact htext.of_subset (subset_fill hslot)
  · have hnone : literalAt scanned.literals index = [] := by
      rw [literalAt, Array.getElem?_eq_none (by omega)]
      rfl
    rw [hnone]
    exact unreserved_nil

/-- What is set aside after the scan changes no literal of the scan. -/
theorem literalAt_eq (h : Layout scanned masked text inner source code) {index : Nat}
    (hindex : index < scanned.literals.size) :
    literalAt masked.literals index = literalAt scanned.literals index := by
  obtain ⟨more, hmore⟩ := h.literals
  have hget : masked.literals[index]? = scanned.literals[index]? := by
    rw [← Array.getElem?_toList, ← hmore, List.getElem?_append_left (by simpa using hindex),
      Array.getElem?_toList]
  rw [literalAt, hget, literalAt]

/-- The slots of a masked text are those of its literals. -/
theorem lt_of_mem_slots (h : Layout scanned masked text inner source code) {index : Nat}
    (hindex : index ∈ code.slots) (hle : scanned.literals.size ≤ index) :
    index < masked.literals.size := by
  have hmem : index ∈ code.slots.filter (scanned.literals.size ≤ ·) := by
    simpa [List.mem_filter] using ⟨hindex, hle⟩
  rw [h.masked_slots, List.mem_range'_1] at hmem
  omega

/-- What is left of the slots of the code has, once filled in, what is left of those of the text. -/
theorem keepsSlots_source (h : Layout scanned masked text inner source code) {mayDrop : Prop}
    (hkeeps : KeepsSlots mayDrop result code) : KeepsSlots mayDrop (result.expand inner) source := by
  have hslots : (code.expand inner).slots = source.slots :=
    h.scanned_slots.trans h.source_slots.symm
  obtain ⟨hsublist, heq⟩ := hkeeps.expand inner
  rw [hslots] at hsublist heq
  exact ⟨hsublist, heq⟩

/-- Restoring fills every slot that is left, and the slots in what stands there. -/
theorem unmask_render (h : Layout scanned masked text inner source code) (htext : Unreserved text)
    (hclean : result.Clean) {mayDrop : Prop} (hkeeps : KeepsSlots mayDrop result code) :
    masked.unmask result.render = (result.expand inner).fill (literalAt scanned.literals) := by
  have hsize : scanned.literals.size ≤ masked.literals.size := by
    simpa using h.literals.length_le
  have hinner : (result.expand inner).slots.Sublist (List.range scanned.literals.size) := by
    rw [← h.scanned_slots]
    exact (hkeeps.expand inner).sublist
  have houter : FillsIn masked.literals
      (result.slots.filter (scanned.literals.size ≤ ·)).length result.render
      (result.expand inner).render := by
    apply fillsIn_expand
    · intro index hindex hle
      have hle : scanned.literals.size ≤ index := by simpa using hle
      rw [literalAt, h.inner_of_le index hle (h.lt_of_mem_slots (hkeeps.sublist.subset hindex) hle)]
      rfl
    · intro index hindex hlt
      exact h.inner_of_lt index (by simpa using hlt)
  have hfill : (result.expand inner).fill (literalAt masked.literals) =
      (result.expand inner).fill (literalAt scanned.literals) :=
    fill_congr fun index hindex => h.literalAt_eq (by simpa using hinner.subset hindex)
  have hfills := houter.trans (fillsIn_fill masked.literals (result.expand inner))
  rw [hfill] at hfills
  have hend : Unreserved ((result.expand inner).fill (literalAt scanned.literals)) :=
    (hclean.expand h.inner_clean).unreserved_fill (h.unreserved_literalAt htext)
  refine MaskedText.fillIn_eq hfills hend.1 ?_
  have hlater := (hkeeps.sublist.filter (scanned.literals.size ≤ ·)).length_le
  have hearlier := hinner.length_le
  rw [h.masked_slots, List.length_range'] at hlater
  rw [List.length_range] at hearlier
  omega

/-- Code divides a masked text: what stands before it and what stands behind it are restored by themselves. -/
theorem unmask_around (h : Layout scanned masked text inner source code) (htext : Unreserved text)
    (hclean : result.Clean) (hslots : result.slots.Sublist code.slots) {left front mid back right : List Char}
    (hrender : result.render = left ++ (front ++ (mid ++ (back ++ right))))
    (hpiece : Clear (front ++ (mid ++ back))) :
    masked.unmask result.render = masked.unmask (left ++ front) ++ (mid ++ masked.unmask (back ++ right)) := by
  have hsplit : result.render = left ++ (front ++ (mid ++ back) ++ right) := by simp [hrender]
  obtain ⟨first, last, rfl, rfl, rfl⟩ := exists_split hsplit hpiece
  obtain ⟨hfront, hlast⟩ := clean_append.mp hclean
  obtain ⟨hfirst, hcode⟩ := clean_append.mp hfront
  obtain ⟨hfrontCode, hrest⟩ := unreserved_append.mp (clean_ofCode.mp hcode)
  simp only [slots_append, slots_ofCode, List.append_nil] at hslots
  have hkeeps : ∀ {part : Template}, part.slots.Sublist code.slots → KeepsSlots True part code := fun hpart =>
    ⟨hpart, fun hnot => absurd trivial hnot⟩
  have hwhole := h.unmask_render htext hclean (hkeeps (by simpa using hslots))
  have hfirst' : (first ++ ofCode front).Clean := clean_append.mpr ⟨hfirst, clean_ofCode.mpr hfrontCode⟩
  have hlast' : (ofCode back ++ last).Clean :=
    clean_append.mpr ⟨clean_ofCode.mpr (unreserved_append.mp hrest).2, hlast⟩
  have hbefore := h.unmask_render htext hfirst' (hkeeps (by simpa using (List.sublist_append_left _ _).trans hslots))
  have hbehind := h.unmask_render htext hlast' (hkeeps (by simpa using (List.sublist_append_right _ _).trans hslots))
  simp only [render_append, render_ofCode] at hwhole hbefore hbehind
  rw [render_append, render_append, render_ofCode, hwhole, hbefore, hbehind]
  simp [fill_expand]

end Layout

end Minifier
