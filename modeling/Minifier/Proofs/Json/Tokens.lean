import Minifier.Proofs.Json.Source
import Mathlib.Tactic.IntervalCases

/-!
Reading blanks, strings and integers. Of the text that stands in front, a reader takes exactly what
belongs to it, and gives what is meant.
-/

namespace Minifier.Json

/-! ### Blanks -/

theorem skipBlanks_append (blanks : Blanks) (text : List Char) :
    skipBlanks (blanks.chars ++ text) = skipBlanks text := by
  refine List.dropWhile_append_of_pos fun c hc => ?_
  rcases blanks.blank c hc with rfl | rfl | rfl | rfl <;> rfl

theorem skipBlanks_cons {c : Char} (h : isJsonBlank c = false) (text : List Char) :
    skipBlanks (c :: text) = c :: text := by
  rw [skipBlanks, List.dropWhile_cons_of_neg]
  rw [h]
  exact Bool.false_ne_true

/-! ### Strings -/

theorem hexValue?_char (digit : HexDigit) : hexValue? digit.char = some digit.value.val := by
  obtain ⟨value, isUpper⟩ := digit
  revert value isUpper
  decide

theorem readHex_chars (a b c d : HexDigit) (rest : List Char) :
    readHex (a.char :: b.char :: c.char :: d.char :: rest) = .ok (codeUnit a b c d, rest) := by
  simp only [readHex, hexValue?_char, codeUnit]

theorem readEscape_letter (letter : Letter) (rest : List Char) :
    readEscape (letter.char :: rest) = .ok (letter.meaning, 1) := by
  cases letter <;> rfl

/-- A code unit that is not half a pair is a character. -/
theorem readEscape_unit {a b c d : HexDigit} (hlow : ¬ isLowUnit (codeUnit a b c d))
    (hhigh : ¬ isHighUnit (codeUnit a b c d)) (rest : List Char) :
    readEscape ('u' :: a.char :: b.char :: c.char :: d.char :: rest) =
      .ok (Char.ofNat (codeUnit a b c d), 5) := by
  have hplain : codeUnit a b c d < 0xD800 ∨ 0xDBFF < codeUnit a b c d := by
    rw [isHighUnit] at hhigh
    omega
  have hread : readUnicodeEscape (a.char :: b.char :: c.char :: d.char :: rest) =
      .ok (Char.ofNat (codeUnit a b c d), 4) := by
    rw [readUnicodeEscape, readHex_chars]
    exact (if_neg hlow).trans (if_pos hplain)
  rw [readEscape, hread]
  rfl

/-- Two halves of a pair are a character. -/
theorem readEscape_pair {a b c d a' b' c' d' : HexDigit} (hhigh : isHighUnit (codeUnit a b c d))
    (hlow : isLowUnit (codeUnit a' b' c' d')) (rest : List Char) :
    readEscape ('u' :: a.char :: b.char :: c.char :: d.char ::
        '\\' :: 'u' :: a'.char :: b'.char :: c'.char :: d'.char :: rest) =
      .ok (pairedChar (codeUnit a b c d) (codeUnit a' b' c' d'), 11) := by
  have hnotLow : ¬ (0xDC00 ≤ codeUnit a b c d ∧ codeUnit a b c d ≤ 0xDFFF) := by
    rw [isHighUnit] at hhigh
    omega
  have hnotPlain : ¬ (codeUnit a b c d < 0xD800 ∨ 0xDBFF < codeUnit a b c d) := by
    rw [isHighUnit] at hhigh
    omega
  have hread : readUnicodeEscape (a.char :: b.char :: c.char :: d.char ::
        '\\' :: 'u' :: a'.char :: b'.char :: c'.char :: d'.char :: rest) =
      .ok (pairedChar (codeUnit a b c d) (codeUnit a' b' c' d'), 10) := by
    rw [readUnicodeEscape, readHex_chars]
    refine (if_neg hnotLow).trans ((if_neg hnotPlain).trans ?_)
    simp only [readHex_chars]
    exact if_pos hlow
  rw [readEscape, hread]
  rfl

/-- Characters that belong to the last escape are passed over. -/
theorem readStringChars_skip (skipped rest read : List Char) :
    readStringChars skipped.length (skipped ++ rest) read = readStringChars 0 rest read := by
  induction skipped with
  | nil => rfl
  | cons c skipped ih => exact ih

/-- An escape is read as the character that it stands for. -/
theorem readStringChars_escape (escape : List Char) {c : Char} (rest read : List Char)
    (h : readEscape (escape ++ rest) = .ok (c, escape.length)) :
    readStringChars 0 ('\\' :: (escape ++ rest)) read = readStringChars 0 rest (c :: read) := by
  rw [readStringChars, if_neg (by decide), if_pos rfl, h]
  exact readStringChars_skip escape rest (c :: read)

theorem readStringChars_plain {c : Char} (allowed : c ≠ '"' ∧ c ≠ '\\' ∧ 32 ≤ c.toNat)
    (rest read : List Char) :
    readStringChars 0 (c :: rest) read = readStringChars 0 rest (c :: read) := by
  rw [readStringChars, if_neg allowed.1, if_neg allowed.2.1, if_neg (Nat.not_lt.mpr allowed.2.2)]

/-- The items of a string are read as its characters. The cases are those of what items stand for. -/
theorem readStringChars_items {items : List Item} {chars : List Char}
    (h : Item.chars? items = some chars) (rest read : List Char) :
    readStringChars 0 (items.flatMap Item.text ++ '"' :: rest) read =
      .ok (read.reverse ++ chars, rest) := by
  induction items using Item.chars?.induct generalizing chars read with
  | case1 =>
    obtain rfl : [] = chars := by simpa [Item.chars?] using h
    simp [readStringChars]
  | case2 c allowed items ih =>
    obtain ⟨others, hothers, rfl⟩ := Option.map_eq_some_iff.mp h
    refine (readStringChars_plain allowed _ read).trans ((ih hothers _).trans ?_)
    simp
  | case3 letter items ih =>
    obtain ⟨others, hothers, rfl⟩ := Option.map_eq_some_iff.mp h
    have hescape : readEscape ([letter.char] ++ (items.flatMap Item.text ++ '"' :: rest)) =
        .ok (letter.meaning, 1) := readEscape_letter letter _
    refine (readStringChars_escape [letter.char] _ read hescape).trans ((ih hothers _).trans ?_)
    simp
  -- Half a pair of surrogates stands for no character.
  | case4 a b c d items hlow =>
    rw [Item.chars?_unit, if_pos hlow] at h
    cases h
  | case5 a b c d hnotLow hhigh a' b' c' d' items hlow ih =>
    rw [Item.chars?_unit, if_neg hnotLow, if_pos hhigh] at h
    obtain ⟨others, hothers, rfl⟩ := Option.map_eq_some_iff.mp ((if_pos hlow).symm.trans h)
    have hescape := readEscape_pair hhigh hlow (items.flatMap Item.text ++ '"' :: rest)
    refine (readStringChars_escape ['u', a.char, b.char, c.char, d.char,
      '\\', 'u', a'.char, b'.char, c'.char, d'.char] _ read hescape).trans ((ih hothers _).trans ?_)
    simp
  | case6 a b c d hnotLow hhigh a' b' c' d' items hnotLow' =>
    rw [Item.chars?_unit, if_neg hnotLow, if_pos hhigh] at h
    cases (if_neg hnotLow').symm.trans h
  | case7 a b c d items hnotLow hhigh hother =>
    rw [Item.chars?_unit, if_neg hnotLow, if_pos hhigh] at h
    rcases items with _ | ⟨_ | _ | ⟨a', b', c', d'⟩, items⟩
    · cases h
    · cases h
    · cases h
    · exact (hother a' b' c' d' items rfl).elim
  | case8 a b c d items hnotLow hnotHigh ih =>
    rw [Item.chars?_unit, if_neg hnotLow, if_neg hnotHigh] at h
    obtain ⟨others, hothers, rfl⟩ := Option.map_eq_some_iff.mp h
    have hescape := readEscape_unit hnotLow hnotHigh (items.flatMap Item.text ++ '"' :: rest)
    refine (readStringChars_escape ['u', a.char, b.char, c.char, d.char] _ read hescape).trans
      ((ih hothers _).trans ?_)
    simp

theorem readString_items {items : List Item} {value : String} (h : Item.string? items = some value)
    (rest : List Char) :
    readString (items.flatMap Item.text ++ '"' :: rest) = .ok (value, rest) := by
  obtain ⟨chars, hchars, rfl⟩ := Option.map_eq_some_iff.mp h
  rw [readString, readStringChars_items hchars]
  rfl

/-! ### Integers -/

/-- What may stand after an integer: nothing that could go on with the number. -/
def Ends (rest : List Char) : Prop :=
  ∀ c ∈ rest.head?, c.isDigit = false ∧ c ≠ '.' ∧ c ≠ 'e' ∧ c ≠ 'E'

theorem Ends.startsWithDigit {rest : List Char} (h : Ends rest) : startsWithDigit rest = false := by
  cases rest with
  | nil => rfl
  | cons c rest => exact (h c rfl).1

/-- Digits are taken as long as the number that they write fits a machine word. -/
theorem takeDigits_append {digits : List Char} (hdigits : ∀ d ∈ digits, d.isDigit = true)
    {start : Nat} (hfits : Nat.ofDigitChars 10 digits start ≤ wordMax) (count : Nat) {rest : List Char}
    (hrest : startsWithDigit rest = false) :
    takeDigits start count (digits ++ rest) =
      (Nat.ofDigitChars 10 digits start, count + digits.length, rest) := by
  induction digits generalizing start count with
  | nil =>
    cases rest with
    | nil => rfl
    | cons c rest =>
      have hc : c.isDigit = false := hrest
      simp [takeDigits, hc]
  | cons d digits ih =>
    rw [List.forall_mem_cons] at hdigits
    rw [Nat.ofDigitChars_cons] at hfits
    have hlonger : start * 10 + (d.toNat - 48) ≤ wordMax := by
      rw [Nat.ofDigitChars_eq_ofDigitChars_zero] at hfits
      have hpower : 0 < 10 ^ digits.length := Nat.pow_pos (by decide)
      have hle := Nat.le_mul_of_pos_left (10 * start + (d.toNat - '0'.toNat)) hpower
      rw [Nat.mul_comm start]
      exact (hle.trans (Nat.le_add_right _ _)).trans hfits
    rw [List.cons_append, takeDigits]
    simp only [hdigits.1, hlonger, decide_true, Bool.and_self, if_true]
    rw [Nat.mul_comm start]
    refine (ih hdigits.2 hfits (count + 1)).trans ?_
    rw [Nat.ofDigitChars_cons, List.length_cons, Nat.add_assoc, Nat.add_comm 1]

/-- No zero stands in front of the other digits of a number. -/
theorem exists_toDigits_eq_cons {n : Nat} (h : 0 < n) :
    ∃ d digits, Nat.toDigits 10 n = d :: digits ∧ d ≠ '0' := by
  induction n using Nat.strong_induction_on with
  | h n ih =>
    rcases Nat.lt_or_ge n 10 with hlt | hge
    · refine ⟨n.digitChar, [], Nat.toDigits_of_lt_base hlt, ?_⟩
      interval_cases n <;> decide
    · obtain ⟨d, digits, hdigits, hd⟩ := ih (n / 10) (by omega) (by omega)
      refine ⟨d, digits ++ [(n % 10).digitChar], ?_, hd⟩
      rw [Nat.toDigits_of_base_le (by decide) hge, hdigits, List.cons_append]

/-- After an integer that ends, its digits are the whole number. -/
theorem readAfterInteger_ends (isNegative : Bool) (n : Nat) {rest : List Char} (h : Ends rest) :
    readAfterInteger isNegative n rest =
      if !isNegative then .ok (.natural n, rest)
      else if 1 ≤ n ∧ n ≤ Nat.pow 2 63 then .ok (.negative n, rest)
      else .ok (.real true (.ofNat n), rest) := by
  rw [readAfterInteger.eq_def]
  split
  · exact absurd rfl (h '.' rfl).2.1
  · exact absurd rfl (h 'e' rfl).2.2.1
  · exact absurd rfl (h 'E' rfl).2.2.2
  · rfl

theorem readNumber_toDigits (isNegative : Bool) {n : Nat} (hfits : n ≤ wordMax) {rest : List Char}
    (h : Ends rest) :
    readNumber isNegative (Nat.toDigits 10 n ++ rest) = readAfterInteger isNegative n rest := by
  rcases Nat.eq_zero_or_pos n with rfl | hpos
  · rw [Nat.toDigits_zero, List.singleton_append, readNumber, if_pos rfl, h.startsWithDigit]
    rfl
  · obtain ⟨d, digits, hdigits, hd⟩ := exists_toDigits_eq_cons hpos
    have hall : ∀ d ∈ Nat.toDigits 10 n, d.isDigit = true := fun d hmem =>
      Nat.isDigit_of_mem_toDigits (by decide) (by decide) hmem
    have hvalue : Nat.ofDigitChars 10 digits (d.toNat - 48) = n := by
      have hten := Nat.ofDigitChars_ten_toDigits (n := n)
      rw [hdigits, Nat.ofDigitChars_cons, Nat.mul_zero, Nat.zero_add] at hten
      exact hten
    rw [hdigits, List.forall_mem_cons] at hall
    rw [hdigits, List.cons_append, readNumber, if_neg hd, hall.1]
    simp only [Bool.not_true, Bool.false_eq_true, if_false]
    rw [takeDigits_append hall.2 (by rw [hvalue]; exact hfits) 0 h.startsWithDigit, hvalue]
    simp only [h.startsWithDigit, Bool.false_eq_true, if_false]

end Minifier.Json
