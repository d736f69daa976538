import Minifier.Text.Digit
import Minifier.Proofs.Pattern.Reach

/-!
What a text says apart from its blanks: the characters that are no blanks, and the words, which are the
longest runs of word characters. Both are read off the outline of a text. It lists the characters that
are no blanks, each with whether it goes on with a word; so it can be taken piece by piece, given
only whether a word is open before a piece.
-/

namespace Minifier.Text

/-- The code points of the blanks. -/
private def blankCodes : List Nat :=
  [9, 10, 11, 12, 13, 0x20, 0x85, 0xA0, 0x1680, 0x2000, 0x2001, 0x2002, 0x2003, 0x2004, 0x2005,
   0x2006, 0x2007, 0x2008, 0x2009, 0x200A, 0x2028, 0x2029, 0x202F, 0x205F, 0x3000]

private theorem of_isBlank {accepts : Char → Bool} (hcodes : ∀ n ∈ blankCodes, accepts (Char.ofNat n) = false) {c : Char}
    (h : isBlank c = true) : accepts c = false := by
  have hcode : c.toNat ∈ blankCodes := by
    simp only [isBlank, Bool.or_eq_true, Bool.and_eq_true, decide_eq_true_eq, beq_iff_eq] at h
    simp only [blankCodes, List.mem_cons, List.not_mem_nil, or_false]
    omega
  have hblank := hcodes _ hcode
  rwa [Char.ofNat_toNat] at hblank

/-- No blank is a word character. -/
theorem isWord_of_isBlank {c : Char} (h : isBlank c = true) : isWord c = false := of_isBlank (by decide +kernel) h

/-- No blank is a digit. -/
theorem isDecimalDigit_of_isBlank {c : Char} (h : isBlank c = true) : isDecimalDigit c = false :=
  of_isBlank (by decide +kernel) h

theorem isWord_of_isDigit {c : Char} (h : c.isDigit = true) : isWord c = true := by
  have hascii : c.toNat < 128 := by
    simp only [Char.isDigit, Bool.and_eq_true, decide_eq_true_eq] at h
    have hlast : c.toNat ≤ 57 := UInt32.le_iff_toNat_le.mp h.2
    omega
  rw [isWord, if_pos hascii, Char.isAlphanum, h, Bool.or_true, Bool.true_or]

theorem not_isBlank_of_isWord {c : Char} (h : isWord c = true) : ¬ isBlank c = true := by
  intro hblank
  rw [isWord_of_isBlank hblank] at h
  cases h

/-! ### Characters and words -/

/-- The characters of a text that are no blanks. -/
def nonBlank (text : List Char) : List Char := text.filter fun c => !isBlank c

/-- The words of a text, the longest runs of word characters. -/
def words (text : List Char) : List (List Char) :=
  (cutAt (fun c => !isWord c) text).filter (· ≠ [])

/-- Two texts differ in blanks only, and where a blank ends a word in one of them, the word ends in the
other as well. -/
structure SameWords (text other : List Char) : Prop where
  nonBlank : nonBlank text = nonBlank other
  words : words text = words other

/-! ### Cutting -/

private theorem cutAt_go_eq (p : Char → Bool) (text piece : List Char) (done : List (List Char)) :
    cutAt.go p text piece done = done.reverse ++ text.splitOnPPrepend p piece := by
  induction text generalizing piece done with
  | nil => simp [cutAt.go]
  | cons c rest ih =>
    by_cases hc : p c = true
    · rw [cutAt.go, if_pos hc, ih, List.splitOnPPrepend_cons_pos hc]
      simp
    · rw [cutAt.go, if_neg hc, ih, List.splitOnPPrepend_cons_neg (Bool.eq_false_iff.mpr hc)]

theorem cutAt_eq_splitOnP (p : Char → Bool) (text : List Char) : cutAt p text = text.splitOnP p :=
  cutAt_go_eq p text [] []

/-- The pieces between word characters. -/
private def pieces (text : List Char) : List (List Char) := cutAt (fun c => !isWord c) text

private theorem pieces_cons_of_not_isWord {c : Char} (h : isWord c = false) (rest : List Char) :
    pieces (c :: rest) = [] :: pieces rest := by
  simp [pieces, cutAt_eq_splitOnP, List.splitOnP_cons_eq_if_modifyHead, h]

private theorem exists_pieces_cons {c : Char} (h : isWord c = true) (rest : List Char) :
    ∃ first more, pieces rest = first :: more ∧ pieces (c :: rest) = (c :: first) :: more := by
  obtain ⟨first, more, hrest⟩ := List.exists_cons_of_ne_nil (List.splitOnP_ne_nil (fun c => !isWord c) rest)
  refine ⟨first, more, by rw [pieces, cutAt_eq_splitOnP, hrest], ?_⟩
  simp [pieces, cutAt_eq_splitOnP, List.splitOnP_cons_eq_if_modifyHead, hrest, h]

private theorem words_eq_filter (text : List Char) : words text = (pieces text).filter (· ≠ []) := rfl

theorem words_cons_of_not_isWord {c : Char} (h : isWord c = false) (rest : List Char) :
    words (c :: rest) = words rest := by
  rw [words_eq_filter, pieces_cons_of_not_isWord h, words_eq_filter]
  rfl

/-- Before something else than a word character, a word character is a word. -/
theorem words_cons_of_last {c : Char} {rest : List Char} (hc : isWord c = true)
    (hrest : rest.head?.any isWord = false) : words (c :: rest) = [c] :: words rest := by
  obtain ⟨first, more, hpieces, hcons⟩ := exists_pieces_cons hc rest
  have hfirst : first = [] := by
    cases rest with
    | nil => exact (List.cons.inj hpieces).1.symm
    | cons d rest =>
      rw [pieces_cons_of_not_isWord hrest] at hpieces
      exact (List.cons.inj hpieces).1.symm
  subst hfirst
  simp [words_eq_filter, hpieces, hcons]

/-- Before another word character, a word character begins the word of that one. -/
theorem exists_words_cons {c d : Char} (hc : isWord c = true) (hd : isWord d = true)
    (rest : List Char) : ∃ word more, words (d :: rest) = word :: more ∧
      words (c :: d :: rest) = (c :: word) :: more := by
  obtain ⟨first, more, hpieces, hcons⟩ := exists_pieces_cons hc (d :: rest)
  obtain ⟨first', more', -, hcons'⟩ := exists_pieces_cons hd rest
  obtain ⟨rfl, rfl⟩ := List.cons.inj (hcons'.symm.trans hpieces)
  exact ⟨d :: first', more'.filter (· ≠ []), by simp [words_eq_filter, hpieces],
    by simp [words_eq_filter, hcons]⟩

/-! ### Outlines -/

/-- The characters that are no blanks, each with whether it goes on with a word, for a text with a
character before it or none. -/
def outline : Option Char → List Char → List (Char × Bool)
  | _, [] => []
  | prev, c :: rest =>
    if isBlank c then outline (some c) rest
    else (c, prev.any isWord && isWord c) :: outline (some c) rest

variable {prev other : Option Char} {text rest : List Char}

theorem outline_append (prev : Option Char) (text rest : List Char) :
    outline prev (text ++ rest) = outline prev text ++ outline (text.getLast?.or prev) rest := by
  induction text generalizing prev with
  | nil => rfl
  | cons c text ih =>
    rw [List.cons_append, outline, outline, ih, getLast?_cons_or]
    split <;> rfl

/-- Only whether a word is open matters. -/
theorem outline_congr (h : prev.any isWord = other.any isWord) (text : List Char) :
    outline prev text = outline other text := by
  cases text with
  | nil => rfl
  | cons c text => rw [outline, outline, h]

/-- It does not matter either where the text begins with no word character. -/
theorem outline_eq_of_head (h : text.head?.any isWord = false) :
    outline prev text = outline other text := by
  cases text with
  | nil => rfl
  | cons c text =>
    have hc : isWord c = false := h
    rw [outline, outline, hc, Bool.and_false, Bool.and_false]

theorem outline_of_blank (h : ∀ c ∈ text, isBlank c = true) : outline prev text = [] := by
  induction text generalizing prev with
  | nil => rfl
  | cons c text ih =>
    rw [List.forall_mem_cons] at h
    rw [outline, if_pos h.1, ih h.2]

/-- Characters that are in no word are listed one by one. -/
theorem outline_of_not_isWord (h : ∀ c ∈ text, isWord c = false) :
    outline prev text = (nonBlank text).map fun c => (c, false) := by
  induction text generalizing prev with
  | nil => rfl
  | cons c text ih =>
    rw [List.forall_mem_cons] at h
    rw [outline, ih h.2, h.1, Bool.and_false]
    by_cases hc : isBlank c = true <;> simp [nonBlank, hc]

theorem nonBlank_eq (prev : Option Char) (text : List Char) :
    nonBlank text = (outline prev text).map Prod.fst := by
  induction text generalizing prev with
  | nil => rfl
  | cons c text ih =>
    rw [outline]
    by_cases hc : isBlank c = true
    · rw [if_pos hc, ← ih]
      simp [nonBlank, hc]
    · rw [if_neg hc, List.map_cons, ← ih]
      simp [nonBlank, hc]

/-- A character of an outline that goes on with a word at the very beginning begins the text. -/
private theorem exists_of_head?_outline {d : Char} (h : (outline prev text).head? = some (d, true)) :
    ∃ rest, prev.any isWord = true ∧ isWord d = true ∧ text = d :: rest := by
  induction text generalizing prev with
  | nil => cases h
  | cons c text ih =>
    rw [outline] at h
    split at h
    · rename_i hblank
      obtain ⟨rest, hword, -⟩ := ih h
      exact absurd hblank (not_isBlank_of_isWord hword)
    · obtain ⟨rfl, hword⟩ := Prod.mk.inj (Option.some.inj h)
      rw [Bool.and_eq_true] at hword
      exact ⟨text, hword.1, hword.2, rfl⟩

/-- The words of an outline: a word character begins the word that the next one goes on with, or is
one by itself. -/
private def wordsOf : List (Char × Bool) → List (List Char)
  | [] => []
  | (c, _) :: rest =>
    if isWord c then
      match rest.head?, wordsOf rest with
      | some (_, true), word :: more => (c :: word) :: more
      | _, more => [c] :: more
    else wordsOf rest

private theorem words_eq (prev : Option Char) (text : List Char) :
    words text = wordsOf (outline prev text) := by
  induction text generalizing prev with
  | nil => rfl
  | cons c text ih =>
    rw [outline]
    by_cases hc : isWord c = true
    · rw [if_neg (not_isBlank_of_isWord hc), wordsOf, if_pos hc]
      split
      · rename_i d word more hhead hwords
        obtain ⟨rest, -, hd, rfl⟩ := exists_of_head?_outline hhead
        obtain ⟨word', more', hwords', hcons⟩ := exists_words_cons hc hd rest
        rw [hcons]
        rw [ih (some c), hwords] at hwords'
        obtain ⟨rfl, rfl⟩ := List.cons.inj hwords'
        rfl
      · rename_i hnone
        rw [← ih]
        refine words_cons_of_last hc ?_
        cases text with
        | nil => rfl
        | cons d text =>
          refine Bool.eq_false_iff.mpr fun hd => ?_
          have hd : isWord d = true := hd
          obtain ⟨word, more, hwords, -⟩ := exists_words_cons hc hd text
          rw [ih (some c)] at hwords
          refine hnone d word more ?_ hwords
          rw [outline, if_neg (not_isBlank_of_isWord hd)]
          simp [hc, hd]
    · rw [Bool.not_eq_true] at hc
      rw [words_cons_of_not_isWord hc]
      split
      · exact ih _
      · rw [wordsOf, if_neg (by simp [hc])]
        exact ih _

/-- Texts of one outline, each from its beginning. -/
def SameOutline (text other : List Char) : Prop := outline none text = outline none other

theorem SameOutline.refl (text : List Char) : SameOutline text text := Eq.refl _

theorem SameOutline.trans {first second third : List Char} (h : SameOutline first second)
    (h' : SameOutline second third) : SameOutline first third :=
  Eq.trans h h'

/-- Texts of one outline say the same. -/
theorem SameOutline.sameWords {other : List Char} (h : SameOutline text other) :
    SameWords text other where
  nonBlank := by rw [nonBlank_eq none, nonBlank_eq none, h]
  words := by rw [words_eq none, words_eq none, h]

/-! ### Trimming -/

theorem sameOutline_dropWhile (text : List Char) : SameOutline text (text.dropWhile isBlank) := by
  induction text with
  | nil => exact .refl _
  | cons c text ih =>
    rw [List.dropWhile_cons]
    split
    · rename_i hblank
      have hclosed : (some c).any isWord = (none : Option Char).any isWord :=
        isWord_of_isBlank hblank
      rw [SameOutline, outline, if_pos hblank, outline_congr hclosed]
      exact ih
    · exact .refl _

theorem sameOutline_dropTail (text : List Char) : SameOutline text (dropTail isBlank text) := by
  have htext : text = dropTail isBlank text ++ (text.reverse.takeWhile isBlank).reverse := by
    rw [dropTail, ← List.reverse_append, List.takeWhile_append_dropWhile, List.reverse_reverse]
  have htail : ∀ c ∈ (text.reverse.takeWhile isBlank).reverse, isBlank c = true :=
    fun c hc => (List.all_eq_true.mp List.all_takeWhile) c (List.mem_reverse.mp hc)
  have happend := outline_append none (dropTail isBlank text) (text.reverse.takeWhile isBlank).reverse
  rw [outline_of_blank htail, List.append_nil, ← htext] at happend
  exact happend

theorem sameOutline_trim (text : List Char) : SameOutline text (trim text) :=
  (sameOutline_dropWhile text).trans (sameOutline_dropTail _)

end Minifier.Text
