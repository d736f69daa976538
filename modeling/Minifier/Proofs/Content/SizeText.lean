import Mathlib.Algebra.Order.Field.Rat
import Mathlib.Data.Rat.Cast.Order
import Mathlib.Tactic.IntervalCases
import Mathlib.Tactic.Linarith
import Mathlib.Tactic.LinearCombination
import Mathlib.Tactic.Ring
import Minifier.Content.Estimate
import Minifier.Number.Decimal

/-!
Sizes in words, read back as a number and a unit. Sizes of so many bytes are exact in binary, so the number is the tenth
nearest to the size in its unit, and the even one of two. The unit is the largest one that the size reaches. It is chosen
before the number is rounded, so the number is 1024 just below the next unit, and less everywhere else.
-/

namespace Minifier

/-! ### Exact numbers -/

namespace Binary64

variable {n num den : Nat}

theorem roundNearest_one (n : Nat) : roundNearest n 1 = n := by simp [roundNearest, Nat.mod_one]

/-- A quotient keeps its nearest integer if both sides are multiplied. -/
theorem roundNearest_mul_right (num den : Nat) {factor : Nat} (hfactor : 0 < factor) :
    roundNearest (num * factor) (den * factor) = roundNearest num den := by
  have htwice : 2 * (num % den * factor) = 2 * (num % den) * factor := by rw [Nat.mul_assoc]
  rw [roundNearest, roundNearest, Nat.mul_div_mul_right _ _ hfactor, Nat.mul_mod_mul_right, htwice]
  simp only [gt_iff_lt, Nat.mul_lt_mul_right hfactor, Nat.mul_left_inj hfactor.ne']

/-- The nearest integer is off by half at most, and only where it is even. -/
theorem roundNearest_bounds (num : Nat) (hden : 0 < den) :
    2 * (roundNearest num den * den) ≤ 2 * num + den ∧ 2 * num ≤ 2 * (roundNearest num den * den) + den ∧
      (2 * (roundNearest num den * den) = 2 * num + den ∨ 2 * num = 2 * (roundNearest num den * den) + den →
        roundNearest num den % 2 = 0) := by
  have hdivision := Nat.div_add_mod num den
  have hremainder := Nat.mod_lt num hden
  rw [Nat.mul_comm] at hdivision
  rw [roundNearest]
  split_ifs with hup
  · rw [Nat.add_mul]
    omega
  · omega

theorem roundNearest_mono {num num' : Nat} (hden : 0 < den) (h : num ≤ num') :
    roundNearest num den ≤ roundNearest num' den := by
  by_contra hlt
  have hbounds := roundNearest_bounds num hden
  have hbounds' := roundNearest_bounds num' hden
  have hstep : (roundNearest num' den + 1) * den ≤ roundNearest num den * den :=
    Nat.mul_le_mul_right den (by omega)
  rw [Nat.add_mul, Nat.one_mul] at hstep
  obtain rfl : num = num' := by omega
  exact hlt (Nat.le_refl _)

/-- An integer with at most 53 binary digits lies on a grid that is at least as fine as the integers. -/
theorem gridFor_le_zero (hpos : 0 < n) (h : n < 2 ^ 53) : gridFor n 1 ≤ 0 := by
  have hlog : n.log2 < 53 := (Nat.log2_lt hpos.ne').mpr h
  have hone : Nat.log2 1 = 0 := by decide
  rw [gridFor, hone]
  dsimp only
  by_cases hfull : n.log2 = 52
  · rw [hfull]
    have hfits : n < Nat.pow 2 53 * 1 * Nat.pow 2 0 := by simpa using h
    simp [hfits]
    split_ifs <;> omega
  · split_ifs <;> omega

theorem num_eq {mantissa : Nat} {exponent : Int} (h : exponent ≤ 0) : Binary64.num ⟨mantissa, exponent⟩ = mantissa := by
  rw [Binary64.num]
  split_ifs with hzero
  · obtain rfl : exponent = 0 := Int.le_antisymm h hzero
    exact Nat.mul_one mantissa
  · rfl

theorem den_eq {mantissa : Nat} {exponent : Int} (h : exponent ≤ 0) :
    Binary64.den ⟨mantissa, exponent⟩ = 2 ^ (-exponent).toNat := by
  rw [Binary64.den]
  split_ifs with hzero
  · obtain rfl : exponent = 0 := Int.le_antisymm h hzero
    rfl
  · rfl

/-- Every integer below `2 ^ 53` is a number of the format. -/
theorem num_ofNat (hpos : 0 < n) (h : n < 2 ^ 53) : (ofNat n).num = n * (ofNat n).den ∧ 0 < (ofNat n).den := by
  have hgrid := gridFor_le_zero hpos h
  obtain ⟨fine, hfine⟩ : ∃ fine : Nat, gridFor n 1 = -(fine : Int) :=
    ⟨(-gridFor n 1).toNat, by omega⟩
  have honGrid : onGrid n 1 (gridFor n 1) = n * 2 ^ fine := by
    rw [onGrid, hfine]
    split_ifs with hzero
    · obtain rfl : fine = 0 := by omega
      simp [roundNearest_one]
    · rw [neg_neg, Int.toNat_natCast, roundNearest_one]
      rfl
  have hrounded : ofNat n = normal (n * 2 ^ fine) (-(fine : Int)) := by
    rw [ofNat, ofQuotient?, if_neg hpos.ne']
    dsimp only
    rw [honGrid, hfine, if_neg, Option.getD_some]
    rw [normal]
    split_ifs
    all_goals
      dsimp only
      omega
  rw [hrounded, normal]
  split_ifs with hfull
  · -- the grid is finer than the integers, so it can be made coarser by one step
    obtain ⟨less, rfl⟩ : ∃ less, fine = less + 1 := by
      refine ⟨fine - 1, (Nat.succ_pred ?_).symm⟩
      rintro rfl
      rw [Nat.pow_zero, Nat.mul_one] at hfull
      exact absurd hfull h.ne
    have hless : -((less + 1 : Nat) : Int) + 1 = -(less : Int) := by omega
    have hhalf : Nat.pow 2 52 = n * 2 ^ less := by
      have hpow : Nat.pow 2 53 = 2 ^ 53 := rfl
      rw [hpow, Nat.pow_succ, ← Nat.mul_assoc] at hfull
      change 2 ^ 52 = n * 2 ^ less
      omega
    rw [hless, num_eq (by omega), den_eq (by omega), neg_neg, Int.toNat_natCast]
    exact ⟨hhalf, Nat.two_pow_pos less⟩
  · rw [num_eq (by omega), den_eq (by omega), neg_neg, Int.toNat_natCast]
    exact ⟨rfl, Nat.two_pow_pos fine⟩

end Binary64

namespace Estimate

variable {n : Nat}

/-! ### Printed sizes -/

/-- The unit of a size is the largest that it reaches, of those that are left. -/
theorem unitOf_eq {size : Binary64} (hsize : size.num = n * size.den) (hden : 0 < size.den) (further index : Nat)
    (hreached : 1024 ^ index ≤ n) : ∃ unit, unitOf size further index (1024 ^ index) = (unit, 1024 ^ unit) ∧
      index ≤ unit ∧ unit ≤ index + further ∧ 1024 ^ unit ≤ n ∧ (unit < index + further → n < 1024 ^ (unit + 1)) := by
  induction further generalizing index with
  | zero => exact ⟨index, rfl, Nat.le_refl _, Nat.le_refl _, hreached, fun h => absurd h (Nat.lt_irrefl _)⟩
  | succ further ih =>
    have hnext : 1024 ^ index * 1024 * size.den ≤ size.num ↔ 1024 ^ (index + 1) ≤ n := by
      rw [hsize, Nat.mul_le_mul_right_iff hden, Nat.pow_succ]
    rw [unitOf]
    split_ifs with hreaches
    · obtain ⟨unit, hunit, hle, hlast, hrest⟩ := ih (index + 1) (hnext.mp hreaches)
      rw [← Nat.pow_succ]
      exact ⟨unit, hunit, by omega, by omega, hrest.1, fun h => hrest.2 (by omega)⟩
    · exact ⟨index, rfl, Nat.le_refl _, by omega, hreached, fun _ => Nat.not_le.mp (mt hnext.mpr hreaches)⟩

/-- A number of tenths, as it is written. -/
def tenthsText (tenths : Nat) : List Char :=
  if tenths % 10 = 0 then Decimal.digitChars (tenths / 10)
  else Decimal.digitChars (tenths / 10) ++ ['.', Nat.digitChar (tenths % 10)]

theorem digitChars_mod (tenths : Nat) : Decimal.digitChars (tenths % 10) = [Nat.digitChar (tenths % 10)] :=
  Nat.toDigits_of_lt_base (Nat.mod_lt _ (by decide))

theorem fixed_one (num den : Nat) : Decimal.fixed num den 1 =
    Decimal.digitChars (Binary64.roundNearest (num * 10) den / 10) ++
      ['.', Nat.digitChar (Binary64.roundNearest (num * 10) den % 10)] := by
  have hten : Nat.pow 10 1 = 10 := rfl
  rw [Decimal.fixed, hten]
  dsimp only
  rw [if_neg (by decide), digitChars_mod]
  simp

theorem digitChar_eq_zero {digit : Nat} (h : digit < 10) : Nat.digitChar digit = '0' ↔ digit = 0 := by
  interval_cases digit <;> decide

/-- Without a fraction that is zero, the tenths are written. -/
theorem dropZero_fixed (num den : Nat) :
    (if ['.', '0'].isSuffixOf (Decimal.fixed num den 1) then
      (Decimal.fixed num den 1).take ((Decimal.fixed num den 1).length - 2) else Decimal.fixed num den 1) =
        tenthsText (Binary64.roundNearest (num * 10) den) := by
  have hzero := digitChar_eq_zero (Nat.mod_lt (Binary64.roundNearest (num * 10) den) (Nat.succ_pos 9))
  rw [fixed_one, tenthsText]
  by_cases hfraction : Binary64.roundNearest (num * 10) den % 10 = 0
  · rw [if_pos hfraction, hzero.mpr hfraction, if_pos (by simp)]
    simp
  · rw [if_neg hfraction, if_neg]
    intro hsuffix
    obtain ⟨front, hfront⟩ := List.isSuffixOf_iff_suffix.mp hsuffix
    have hends := List.append_inj_right' hfront rfl
    rw [List.cons.injEq, List.cons.injEq] at hends
    exact hfraction (hzero.mp hends.2.1.symm)

/-- A size from 1024 on is written in tenths of the largest unit that it reaches. -/
theorem exists_formatSize (hlow : 1024 ≤ n) (hhigh : n < 2 ^ 50) : ∃ unit, 1 ≤ unit ∧ unit ≤ 4 ∧ 1024 ^ unit ≤ n ∧
    n < 1024 ^ (unit + 1) ∧ (formatSize n).toList =
      tenthsText (Binary64.roundNearest (10 * n) (1024 ^ unit)) ++ ' ' :: (units[unit]?.getD "").toList := by
  obtain ⟨hnum, hden⟩ := Binary64.num_ofNat (Nat.lt_of_lt_of_le (by decide) hlow)
    (hhigh.trans (Nat.pow_lt_pow_right (by decide) (by decide)))
  obtain ⟨unit, hunit, -, hlast, hreached, hnext⟩ :=
    unitOf_eq hnum hden 4 0 (Nat.le_trans (by decide) hlow)
  have hfirst : 1 ≤ unit := by
    by_contra hzero
    obtain rfl : unit = 0 := by omega
    have hbelow := hnext (by decide)
    omega
  have habove : n < 1024 ^ (unit + 1) := by
    rcases Nat.lt_or_ge unit 4 with hlt | hge
    · exact hnext (by omega)
    · obtain rfl : unit = 4 := by omega
      exact hhigh.trans_eq (by decide)
  refine ⟨unit, hfirst, by omega, hreached, habove, ?_⟩
  have hround : Binary64.roundNearest ((Binary64.ofNat n).num * 10) ((Binary64.ofNat n).den * 1024 ^ unit) =
      Binary64.roundNearest (10 * n) (1024 ^ unit) := by
    rw [hnum, Nat.mul_comm (Binary64.ofNat n).den, Nat.mul_right_comm, Binary64.roundNearest_mul_right _ _ hden,
      Nat.mul_comm n]
  have hsplit : unitOf (Binary64.ofNat n) 4 0 1 = (unit, 1024 ^ unit) := hunit
  rw [formatSize, if_neg (by omega)]
  dsimp only
  rw [hsplit]
  dsimp only
  rw [dropZero_fixed, hround, String.toList_append, String.toList_append,
    @String.toList_ofList (tenthsText (Binary64.roundNearest (10 * n) (1024 ^ unit)))]
  simp

/-! ### Reading -/

/-- The number that digits write. -/
def readDigits (text : List Char) : Option Nat :=
  if text ≠ [] ∧ text.all Char.isDigit then some (Nat.ofDigitChars 10 text 0) else none

/-- The number that a text writes, with or without a fraction. -/
def readNumber (text : List Char) : Option ℚ :=
  match text.splitOn '.' with
  | [whole] => (readDigits whole).map Nat.cast
  | [whole, fraction] =>
    match readDigits whole, readDigits fraction with
    | some whole, some part => some (whole + part / 10 ^ fraction.length)
    | _, _ => none
  | _ => none

/-- The bytes of the units. -/
def unitBytes : List (List Char × Nat) :=
  [("B".toList, 1), ("KB".toList, 1024), ("MB".toList, 1024 ^ 2), ("GB".toList, 1024 ^ 3), ("TB".toList, 1024 ^ 4)]

/-- The number and the unit, in bytes, that a size in words names. -/
def readSize (text : String) : Option (ℚ × Nat) :=
  match text.toList.splitOn ' ' with
  | [number, unit] =>
    match readNumber number, unitBytes.lookup unit with
    | some number, some unit => some (number, unit)
    | _, _ => none
  | _ => none

theorem readDigits_digitChars (n : Nat) : readDigits (Decimal.digitChars n) = some n := by
  have hdigits : (Decimal.digitChars n).all Char.isDigit = true :=
    List.all_eq_true.mpr fun _ hd => Nat.isDigit_of_mem_toDigits (by decide) (by decide) hd
  rw [readDigits, if_pos ⟨Nat.toDigits_ne_nil, hdigits⟩]
  exact congrArg some Nat.ofDigitChars_ten_toDigits

theorem not_mem_digitChars {c : Char} (hc : c.isDigit = false) (n : Nat) : c ∉ Decimal.digitChars n := by
  intro hmem
  rw [Nat.isDigit_of_mem_toDigits (by decide) (by decide) hmem] at hc
  exact Bool.noConfusion hc

theorem not_mem_tenthsText (tenths : Nat) : ' ' ∉ tenthsText tenths := by
  have hwhole := not_mem_digitChars (c := ' ') (by decide) (tenths / 10)
  have hpart := not_mem_digitChars (c := ' ') (by decide) (tenths % 10)
  rw [tenthsText]
  split_ifs
  · exact hwhole
  · rw [digitChars_mod] at hpart
    simp only [List.mem_append, List.mem_cons, not_or] at hpart ⊢
    exact ⟨hwhole, by decide, hpart⟩

/-- Tenths are read as they are written. -/
theorem readNumber_tenthsText (tenths : Nat) : readNumber (tenthsText tenths) = some ((tenths : ℚ) / 10) := by
  have hpoint (n : Nat) : (Decimal.digitChars n).splitOn '.' = [Decimal.digitChars n] :=
    List.splitOn_eq_singleton (not_mem_digitChars (by decide) n)
  have hsplit : (tenths : ℚ) = 10 * (tenths / 10 : Nat) + (tenths % 10 : Nat) := by
    exact_mod_cast (Nat.div_add_mod tenths 10).symm
  rw [tenthsText]
  split_ifs with hwhole
  · rw [readNumber, hpoint]
    dsimp only
    rw [readDigits_digitChars, Option.map_some, hsplit, hwhole]
    refine congrArg some ?_
    push_cast
    ring
  · rw [readNumber, List.splitOn_append_cons_self, hpoint, ← digitChars_mod, hpoint]
    dsimp only [List.cons_append, List.nil_append]
    rw [readDigits_digitChars, readDigits_digitChars, digitChars_mod, hsplit, List.length_singleton]
    refine congrArg some ?_
    ring

/-- A size from 1024 on is read as the nearest tenth of its unit. -/
theorem exists_readSize (hlow : 1024 ≤ n) (hhigh : n < 2 ^ 50) : ∃ unit, 1 ≤ unit ∧ unit ≤ 4 ∧ 1024 ^ unit ≤ n ∧
    n < 1024 ^ (unit + 1) ∧ readSize (formatSize n) =
      some ((Binary64.roundNearest (10 * n) (1024 ^ unit) : ℚ) / 10, 1024 ^ unit) := by
  obtain ⟨unit, hfirst, hlast, hreached, hnext, htext⟩ := exists_formatSize hlow hhigh
  refine ⟨unit, hfirst, hlast, hreached, hnext, ?_⟩
  have hunit : (units[unit]?.getD "").toList.splitOn ' ' = [(units[unit]?.getD "").toList] ∧
      unitBytes.lookup (units[unit]?.getD "").toList = some (1024 ^ unit) := by
    interval_cases unit <;> decide
  rw [readSize, htext, List.splitOn_append_cons_self, List.splitOn_eq_singleton (not_mem_tenthsText _), hunit.1]
  dsimp only [List.cons_append, List.nil_append]
  rw [readNumber_tenthsText, hunit.2]

/-- The tenths of a size that reaches its unit but not the next one. -/
theorem roundNearest_tenths {unit : Nat} (hunit : 0 < unit) (hreached : unit ≤ n) (hnext : n < 1024 * unit) :
    10 ≤ Binary64.roundNearest (10 * n) unit ∧ Binary64.roundNearest (10 * n) unit ≤ 10240 ∧
      (Binary64.roundNearest (10 * n) unit < 10240 ↔ 20 * n < 20479 * unit) := by
  obtain ⟨hlow, hhigh, htie⟩ := Binary64.roundNearest_bounds (10 * n) hunit
  generalize Binary64.roundNearest (10 * n) unit = tenths at hlow hhigh htie
  have hbelow {bound : Nat} (h : tenths ≤ bound) : tenths * unit ≤ bound * unit := Nat.mul_le_mul_right unit h
  have habove {bound : Nat} (h : bound ≤ tenths) : bound * unit ≤ tenths * unit := Nat.mul_le_mul_right unit h
  refine ⟨?_, ?_, fun hlt => ?_, fun hlt => ?_⟩
  · by_contra hfew
    have hproduct := hbelow (Nat.le_of_lt_succ (Nat.not_le.mp hfew))
    omega
  · by_contra hmany
    have hproduct := habove (Nat.succ_le_of_lt (Nat.not_le.mp hmany))
    omega
  · -- just below the boundary 10239.5 the tenths are 10239, and on it the even 10240
    have hproduct := hbelow (Nat.le_of_lt_succ hlt)
    by_contra hge
    have heven := htie (Or.inr (by omega))
    have hodd : tenths = 10239 := by
      by_contra hne
      have hproduct : tenths * unit ≤ 10238 * unit := hbelow (by omega)
      omega
    omega
  · by_contra hmany
    have hproduct := habove (Nat.not_lt.mp hmany)
    omega

/-- A larger size has more bytes in print, or as many: it has more tenths of the same unit, or at least one of a larger
unit, which is as much as 1024 of the smaller one. -/
theorem tenths_mono {m less unit : Nat} (hle : m ≤ n) (hless : 1024 ^ less ≤ m) (hlessNext : m < 1024 ^ (less + 1))
    (hunit : 1024 ^ unit ≤ n) (hunitNext : n < 1024 ^ (unit + 1)) :
    Binary64.roundNearest (10 * m) (1024 ^ less) * 1024 ^ less ≤
      Binary64.roundNearest (10 * n) (1024 ^ unit) * 1024 ^ unit := by
  have hpos (k : Nat) : 0 < 1024 ^ k := Nat.pow_pos (by decide)
  have horder : less ≤ unit :=
    Nat.le_of_lt_succ ((Nat.pow_lt_pow_iff_right (by decide)).mp (hless.trans_lt (hle.trans_lt hunitNext)))
  rcases Nat.eq_or_lt_of_le horder with rfl | hlt
  · exact Nat.mul_le_mul_right _ (Binary64.roundNearest_mono (hpos less) (Nat.mul_le_mul_left 10 hle))
  · rw [Nat.pow_succ, Nat.mul_comm] at hlessNext hunitNext
    have hmost := (roundNearest_tenths (hpos less) hless hlessNext).2.1
    have hleast := (roundNearest_tenths (hpos unit) hunit hunitNext).1
    calc
      Binary64.roundNearest (10 * m) (1024 ^ less) * 1024 ^ less ≤ 10240 * 1024 ^ less := Nat.mul_le_mul_right _ hmost
      _ = 10 * 1024 ^ (less + 1) := by rw [Nat.pow_succ]; ring
      _ ≤ 10 * 1024 ^ unit := Nat.mul_le_mul_left 10 (Nat.pow_le_pow_right (by decide) hlt)
      _ ≤ Binary64.roundNearest (10 * n) (1024 ^ unit) * 1024 ^ unit := Nat.mul_le_mul_right _ hleast

/-- A rounded quotient is off by half a tenth at most, and then it is even. -/
theorem abs_tenths_sub_le {unit : Nat} (hunit : 0 < unit) (n : Nat) :
    |(Binary64.roundNearest (10 * n) unit : ℚ) / 10 - n / unit| ≤ 1 / 20 ∧
      (|(Binary64.roundNearest (10 * n) unit : ℚ) / 10 - n / unit| = 1 / 20 →
        Binary64.roundNearest (10 * n) unit % 2 = 0) := by
  obtain ⟨hlow, hhigh, htie⟩ := Binary64.roundNearest_bounds (10 * n) hunit
  generalize Binary64.roundNearest (10 * n) unit = tenths at hlow hhigh htie
  have hpos : (0 : ℚ) < unit := by exact_mod_cast hunit
  obtain ⟨quotient, hquotient⟩ : ∃ quotient : ℚ, (n : ℚ) / unit = quotient := ⟨_, rfl⟩
  have hn : (n : ℚ) = quotient * unit := (div_eq_iff hpos.ne').mp hquotient
  have hlow : (2 * (tenths * unit) : ℚ) ≤ 2 * (10 * n) + unit := by exact_mod_cast hlow
  have hhigh : (2 * (10 * n) : ℚ) ≤ 2 * (tenths * unit) + unit := by exact_mod_cast hhigh
  have hlow : 2 * (tenths : ℚ) ≤ 20 * quotient + 1 := by
    refine le_of_mul_le_mul_right ?_ hpos
    linarith
  have hhigh : 20 * quotient ≤ 2 * (tenths : ℚ) + 1 := by
    refine le_of_mul_le_mul_right ?_ hpos
    linarith
  rw [hquotient]
  refine ⟨abs_le.mpr ⟨by linarith, by linarith⟩, fun heq => htie ?_⟩
  rcases (abs_eq (by norm_num)).mp heq with habove | hbelow
  · left
    have hproduct : (2 * (tenths * unit) : ℚ) = 2 * (10 * n) + unit := by
      rw [hn]
      linear_combination 20 * unit * habove
    exact_mod_cast hproduct
  · right
    have hproduct : (2 * (10 * n) : ℚ) = 2 * (tenths * unit) + unit := by
      rw [hn]
      linear_combination (-20) * unit * hbelow
    exact_mod_cast hproduct

/-- A size from 1024 bytes up to `2 ^ 50` is printed in the largest unit that it reaches, as the tenth nearest to its
quotient by the unit, the even one of two. The number is at least one. It is 1024 where at most a twentieth of the unit is
missing to the next one, and below that everywhere else. A larger size is never printed as a smaller one. -/
theorem formatSize_nearest (hlow : 1024 ≤ n) (hhigh : n < 2 ^ 50) :
    ∃ (shown : ℚ) (unit : Nat), readSize (formatSize n) = some (shown, unit) ∧
      unit ∈ [1024, 1024 ^ 2, 1024 ^ 3, 1024 ^ 4] ∧ unit ≤ n ∧ n < 1024 * unit ∧
      1 ≤ shown ∧ (shown < 1024 ↔ 20 * n < 20479 * unit) ∧ (shown = 1024 ↔ 20479 * unit ≤ 20 * n) ∧
      |shown - n / unit| ≤ 1 / 20 ∧
      (∃ tenths : Nat, shown = tenths / 10 ∧ (|shown - n / unit| = 1 / 20 → tenths % 2 = 0)) ∧
      ∀ m, 1024 ≤ m → m ≤ n → ∀ less lessUnit, readSize (formatSize m) = some (less, lessUnit) →
        less * lessUnit ≤ shown * unit := by
  obtain ⟨unit, hfirst, hlast, hreached, hnext, hread⟩ := exists_readSize hlow hhigh
  have hpos : 0 < 1024 ^ unit := Nat.pow_pos (by decide)
  have hbelow : n < 1024 * 1024 ^ unit := by rwa [Nat.mul_comm, ← Nat.pow_succ]
  obtain ⟨hleast, hmost, hfull⟩ := roundNearest_tenths hpos hreached hbelow
  obtain ⟨hnear, htie⟩ := abs_tenths_sub_le hpos n
  have hcompare (tenths : Nat) : ((tenths : ℚ) / 10 < 1024 ↔ tenths < 10240) ∧
      ((tenths : ℚ) / 10 = 1024 ↔ tenths = 10240) := by
    have hbound : (1024 : ℚ) * 10 = (10240 : Nat) := by norm_num
    rw [div_lt_iff₀ (by norm_num), div_eq_iff (by norm_num), hbound, Nat.cast_lt, Nat.cast_inj]
    exact ⟨Iff.rfl, Iff.rfl⟩
  refine ⟨_, _, hread, ?_, hreached, hbelow, ?_, (hcompare _).1.trans hfull, ?_, hnear, ⟨_, rfl, htie⟩,
    fun m hm hle less lessUnit hless => ?_⟩
  · interval_cases unit <;> decide
  · have hten : (10 : ℚ) ≤ Binary64.roundNearest (10 * n) (1024 ^ unit) := by exact_mod_cast hleast
    rw [le_div_iff₀ (by norm_num)]
    linarith
  · rw [(hcompare _).2]
    omega
  · obtain ⟨smaller, -, -, hsmaller, hsmallerNext, hreadSmaller⟩ := exists_readSize hm (hle.trans_lt hhigh)
    rw [hreadSmaller, Option.some.injEq, Prod.mk.injEq] at hless
    obtain ⟨rfl, rfl⟩ := hless
    have hmono : ((Binary64.roundNearest (10 * m) (1024 ^ smaller) * 1024 ^ smaller : Nat) : ℚ) ≤
        (Binary64.roundNearest (10 * n) (1024 ^ unit) * 1024 ^ unit : Nat) := by
      exact_mod_cast tenths_mono hle hsmaller hsmallerNext hreached hnext
    rw [Nat.cast_mul, Nat.cast_mul] at hmono
    rw [div_mul_eq_mul_div, div_mul_eq_mul_div]
    exact div_le_div_of_nonneg_right hmono (by norm_num)

/-- A size in the middle between two tenths is printed with the even one. -/
theorem formatSize_nearest_middle :
    readSize (formatSize 1280) = some (6 / 5, 1024) ∧ |(6 / 5 : ℚ) - (1280 : Nat) / (1024 : Nat)| ≤ 1 / 20 ∧
      ∀ m, 1024 ≤ m → m ≤ 1280 → ∀ less lessUnit, readSize (formatSize m) = some (less, lessUnit) →
        less * lessUnit ≤ 6 / 5 * (1024 : Nat) := by
  have hmiddle : readSize (formatSize 1280) = some (6 / 5, 1024) := by decide +kernel
  obtain ⟨shown, unit, hread, -, -, -, -, -, -, hnear, -, hmono⟩ :=
    formatSize_nearest (show 1024 ≤ 1280 by decide) (by decide)
  rw [hmiddle, Option.some.injEq, Prod.mk.injEq] at hread
  obtain ⟨rfl, rfl⟩ := hread
  exact ⟨hmiddle, hnear, hmono⟩

/-- A byte below the next unit the number is as large as that unit. -/
theorem formatSize_fullUnit : formatSize 1048575 = "1024 KB" ∧ readSize "1024 KB" = some (1024, 1024) := by
  decide +kernel

end Estimate

end Minifier
