import Minifier.Proofs.Json.Reading

/-!
The number tokens of a text, found without reading it. Quotes are all that has to be told apart for that: in a
string no number begins, and a backslash takes the next character along. A reader that goes over blanks,
punctuation or a string goes over no number, and one that comes to a number goes over one token.
-/

namespace Minifier.Json

/-- A character that may stand in a number. -/
def isNumberChar (c : Char) : Bool := c.isDigit || ['-', '+', '.', 'e', 'E'].contains c

/-- A character that a number may begin with. -/
def opensNumber (c : Char) : Bool := c.isDigit || c == '-'

/-- The number tokens from a place on; `quoted` tells that it is in a string, and `skip` counts characters that
belong to the last token or escape. -/
def numbersFrom : (quoted : Bool) → (skip : Nat) → List Char → List (List Char)
  | _, _, [] => []
  | quoted, skip + 1, _ :: rest => numbersFrom quoted skip rest
  | true, 0, c :: rest =>
    if c = '"' then numbersFrom false 0 rest else numbersFrom true (if c = '\\' then 1 else 0) rest
  | false, 0, c :: rest =>
    if c = '"' then numbersFrom true 0 rest
    else if opensNumber c then
      (c :: rest.takeWhile isNumberChar) :: numbersFrom false (rest.takeWhile isNumberChar).length rest
    else numbersFrom false 0 rest

/-- The number tokens of a text: outside its strings, a digit or a minus sign opens one, and it goes on as long
as its characters may stand in a number. -/
def numberTokens (text : List Char) : List (List Char) := numbersFrom false 0 text

/-- A token that writes an integer which fits a machine word, with a sign or without. Minus zero is none. -/
def IsWordInteger (token : List Char) : Prop :=
  ∃ n : Int, (-2 ^ 63 ≤ n ∧ n < 2 ^ 64) ∧ token = (if n < 0 then ['-'] else []) ++ Nat.toDigits 10 n.natAbs

/-- All numbers of a text are integers that fit machine words. -/
def Integers (text : List Char) : Prop := ∀ token ∈ numberTokens text, IsWordInteger token

example : numberTokens "[-12, \"3\\\"4\", true, 5e6]".toList = ["-12".toList, "5e6".toList] := by decide

theorem numbersFrom_skip (quoted : Bool) (skipped rest : List Char) :
    numbersFrom quoted skipped.length (skipped ++ rest) = numbersFrom quoted 0 rest := by
  induction skipped with
  | nil => rfl
  | cons c skipped ih =>
    rw [List.length_cons, List.cons_append, numbersFrom]
    exact ih

/-! ### Success -/

section Except

variable {ε α β : Type} {result : Except ε α}

theorem exists_of_bind_eq_ok {next : α → Except ε β} {b : β} (h : result >>= next = .ok b) :
    ∃ a, result = .ok a ∧ next a = .ok b := by
  cases result with
  | error error => cases h
  | ok a => exact ⟨a, rfl, h⟩

theorem exists_of_map_eq_ok {f : α → β} {b : β} (h : result.map f = .ok b) : ∃ a, result = .ok a ∧ f a = b := by
  cases result with
  | error error => cases h
  | ok a => exact ⟨a, rfl, Except.ok.inj h⟩

end Except

/-! ### Outside strings -/

namespace Integers

variable {c : Char} {text rest : List Char}

theorem of_cons (h : Integers (c :: rest)) (hquote : c ≠ '"') (hopens : opensNumber c = false) :
    Integers rest := by
  intro token htoken
  apply h
  rw [numberTokens, numbersFrom, if_neg hquote, hopens]
  exact htoken

theorem of_append (h : Integers (text ++ rest)) (htext : ∀ c ∈ text, c ≠ '"' ∧ opensNumber c = false) :
    Integers rest := by
  induction text with
  | nil => exact h
  | cons c text ih =>
    rw [List.forall_mem_cons] at htext
    exact ih (h.of_cons htext.1.1 htext.1.2) htext.2

theorem skipBlanks (h : Integers text) : Integers (skipBlanks text) := by
  rw [← List.takeWhile_append_dropWhile (p := isJsonBlank) (l := text)] at h
  apply h.of_append
  intro c hc
  have hblank := List.all_eq_true.mp List.all_takeWhile c hc
  simp only [isJsonBlank, Bool.or_eq_true, beq_iff_eq] at hblank
  rcases hblank with ((rfl | rfl) | rfl) | rfl <;> decide

/-- Where a number begins stands an integer, with nothing after it that could go on with the number. -/
theorem exists_integer (h : Integers (c :: rest)) (hopens : opensNumber c = true) :
    ∃ n fits left, c :: rest = (Source.integer n fits).text ++ left ∧ Ends left ∧ Integers left := by
  have hquote : c ≠ '"' := by
    rintro rfl
    exact absurd hopens (by decide)
  have hskip := numbersFrom_skip false (rest.takeWhile isNumberChar) (rest.dropWhile isNumberChar)
  rw [List.takeWhile_append_dropWhile] at hskip
  rw [Integers, numberTokens, numbersFrom, if_neg hquote, if_pos hopens, hskip, List.forall_mem_cons] at h
  obtain ⟨⟨n, fits, htoken⟩, hleft⟩ := h
  refine ⟨n, fits, rest.dropWhile isNumberChar, ?_, ?_, hleft⟩
  · rw [Source.text, ← htoken, List.cons_append, List.takeWhile_append_dropWhile]
  · intro d hd
    have hend : isNumberChar d = false := by
      have hnot := List.head?_dropWhile_not isNumberChar rest
      rw [Option.mem_def.mp hd] at hnot
      simpa using hnot
    simp only [isNumberChar, List.contains_cons, Bool.or_eq_false_iff, beq_eq_false_iff_ne] at hend
    obtain ⟨hdigit, -, -, hpoint, he, hE, -⟩ := hend
    exact ⟨hdigit, hpoint, he, hE⟩

end Integers

/-! ### In strings -/

theorem numbersFrom_plain {c : Char} (hquote : c ≠ '"') (hbackslash : c ≠ '\\') (rest : List Char) :
    numbersFrom true 0 (c :: rest) = numbersFrom true 0 rest := by
  rw [numbersFrom, if_neg hquote, if_neg hbackslash]

theorem numbersFrom_backslash (c : Char) (rest : List Char) :
    numbersFrom true 0 ('\\' :: c :: rest) = numbersFrom true 0 rest := by
  rw [numbersFrom, if_neg (by decide), if_pos rfl, numbersFrom]

theorem numbersFrom_quote (rest : List Char) : numbersFrom true 0 ('"' :: rest) = numberTokens rest := by
  rw [numbersFrom, if_pos rfl, numberTokens]

theorem numberTokens_quote (rest : List Char) : numberTokens ('"' :: rest) = numbersFrom true 0 rest := by
  rw [numberTokens, numbersFrom, if_pos rfl]

theorem hexValue?_ne {c : Char} {n : Nat} (h : hexValue? c = some n) : c ≠ '"' ∧ c ≠ '\\' := by
  have hnone : hexValue? '"' = none ∧ hexValue? '\\' = none := by decide
  constructor
  · rintro rfl
    exact nomatch hnone.1.symm.trans h
  · rintro rfl
    exact nomatch hnone.2.symm.trans h

theorem exists_of_readHex {text rest : List Char} {unit : Nat} (h : readHex text = .ok (unit, rest)) :
    ∃ digits, text = digits ++ rest ∧ digits.length = 4 ∧
      ∀ more, numbersFrom true 0 (digits ++ more) = numbersFrom true 0 more := by
  unfold readHex at h
  split at h
  · rename_i a b c d more
    split at h
    · rename_i w x y z ha hb hc hd
      obtain ⟨-, rfl⟩ := Prod.mk.inj (Except.ok.inj h)
      refine ⟨[a, b, c, d], rfl, rfl, fun more => ?_⟩
      have hall := fun e n (he : hexValue? e = some n) => hexValue?_ne he
      simp only [List.cons_append, List.nil_append]
      rw [numbersFrom_plain (hall _ _ ha).1 (hall _ _ ha).2, numbersFrom_plain (hall _ _ hb).1 (hall _ _ hb).2,
        numbersFrom_plain (hall _ _ hc).1 (hall _ _ hc).2, numbersFrom_plain (hall _ _ hd).1 (hall _ _ hd).2]
    · cases h
  · split at h <;> cases h

/-- The hexadecimal digits of a character, and those of a second half behind a backslash and a letter. -/
theorem exists_of_readUnicodeEscape {text : List Char} {c : Char} {used : Nat}
    (h : readUnicodeEscape text = .ok (c, used)) :
    ∃ escape more, text = escape ++ more ∧ escape.length = used ∧ 4 ≤ used ∧
      numbersFrom true 0 text = numbersFrom true 0 more := by
  unfold readUnicodeEscape at h
  obtain ⟨⟨unit, rest⟩, hhex, hunit⟩ := exists_of_bind_eq_ok h
  obtain ⟨digits, rfl, hlength, hdigits⟩ := exists_of_readHex hhex
  simp only at hunit
  split at hunit
  · cases hunit
  · split at hunit
    · obtain ⟨-, rfl⟩ := Prod.mk.inj (Except.ok.inj hunit)
      exact ⟨digits, rest, rfl, hlength, le_rfl, hdigits rest⟩
    · split at hunit
      · cases hunit
      · cases hunit
      · obtain ⟨⟨unit', rest'⟩, hhex', hlow⟩ := exists_of_bind_eq_ok hunit
        obtain ⟨digits', rfl, hlength', hdigits'⟩ := exists_of_readHex hhex'
        simp only at hlow
        split at hlow
        · obtain ⟨-, rfl⟩ := Prod.mk.inj (Except.ok.inj hlow)
          refine ⟨digits ++ '\\' :: 'u' :: digits', rest', by simp, by simp [hlength, hlength'], by omega, ?_⟩
          rw [hdigits, numbersFrom_backslash, hdigits']
        · cases hlow
      · cases hunit
      · cases hunit

end Minifier.Json
