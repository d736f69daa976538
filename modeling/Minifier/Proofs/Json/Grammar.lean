import Minifier.Proofs.Json.Tokens
import Minifier.Proofs.Json.Writing

/-!
The grammar of JSON without blanks. Whatever value is written, with numbers of any kind, what is written is a
text of the grammar, and so it stands on one line.
-/

namespace Minifier.Json

/-! ### The grammar -/

def IsDigits (text : List Char) : Prop := text ≠ [] ∧ ∀ c ∈ text, c.isDigit = true

/-- Digits without a zero in front of others. -/
inductive IsInteger : List Char → Prop where
  | zero : IsInteger ['0']
  | positive {d : Char} {digits : List Char} : d ≠ '0' → IsDigits (d :: digits) → IsInteger (d :: digits)

inductive IsFraction : List Char → Prop where
  | none : IsFraction []
  | some {digits : List Char} : IsDigits digits → IsFraction ('.' :: digits)

inductive IsExponent : List Char → Prop where
  | none : IsExponent []
  | some {sign : Char} {digits : List Char} : sign = '+' ∨ sign = '-' → IsDigits digits →
      IsExponent ('e' :: sign :: digits)

/-- A number without a sign. -/
inductive IsSize : List Char → Prop where
  | intro {integer fraction exponent : List Char} : IsInteger integer → IsFraction fraction →
      IsExponent exponent → IsSize (integer ++ fraction ++ exponent)

/-- The text of one value, with no blanks between its parts. -/
inductive IsText : List Char → Prop where
  | null : IsText ['n', 'u', 'l', 'l']
  | true : IsText ['t', 'r', 'u', 'e']
  | false : IsText ['f', 'a', 'l', 's', 'e']
  | natural {text : List Char} : IsSize text → IsText text
  | negative {text : List Char} : IsSize text → IsText ('-' :: text)
  | string (items : List Item) : IsText (Item.quoted items)
  | array (elements : List (List Char)) : (∀ element ∈ elements, IsText element) →
      IsText ('[' :: ([','].intercalate elements ++ [']']))
  | object (members : List (List Item × List Char)) : (∀ member ∈ members, IsText member.2) →
      IsText ('\x7b' ::
        ([','].intercalate (members.map fun member => Item.quoted member.1 ++ ':' :: member.2) ++ ['\x7d']))

theorem IsSize.pointed {integer fraction : List Char} (hinteger : IsInteger integer)
    (hfraction : IsDigits fraction) : IsSize (integer ++ '.' :: fraction) := by
  rw [← List.append_nil (integer ++ '.' :: fraction)]
  exact .intro hinteger (.some hfraction) .none

/-! ### Numbers as they are written -/

theorem isDigits_toDigits (n : Nat) : IsDigits (Nat.toDigits 10 n) :=
  ⟨Nat.toDigits_ne_nil, fun _ hd => Nat.isDigit_of_mem_toDigits (by decide) (by decide) hd⟩

theorem isDigits_append_right {first second : List Char} (hfirst : ∀ c ∈ first, c.isDigit = true)
    (hsecond : IsDigits second) : IsDigits (first ++ second) := by
  refine ⟨by simp [hsecond.1], fun c hc => ?_⟩
  rw [List.mem_append] at hc
  rcases hc with hc | hc
  · exact hfirst c hc
  · exact hsecond.2 c hc

theorem isDigits_drop {digits : List Char} (h : IsDigits digits) {count : Nat} (hcount : count < digits.length) :
    IsDigits (digits.drop count) := by
  refine ⟨?_, fun c hc => h.2 c (List.mem_of_mem_drop hc)⟩
  rw [ne_eq, List.drop_eq_nil_iff]
  omega

/-- The digits of a positive number, as far as they are taken and with others behind them. -/
theorem isInteger_take_append {n count : Nat} (hn : n ≠ 0) (hcount : count ≠ 0) {more : List Char}
    (hmore : ∀ c ∈ more, c.isDigit = true) : IsInteger ((Nat.toDigits 10 n).take count ++ more) := by
  obtain ⟨d, digits, hdigits, hd⟩ := exists_toDigits_eq_cons (Nat.pos_of_ne_zero hn)
  obtain ⟨count, rfl⟩ := Nat.exists_eq_succ_of_ne_zero hcount
  have hall := (isDigits_toDigits n).2
  rw [hdigits] at hall ⊢
  rw [List.take_succ_cons, List.cons_append]
  refine .positive hd ⟨List.cons_ne_nil _ _, fun c hc => ?_⟩
  rw [List.mem_cons, List.mem_append] at hc
  rcases hc with rfl | hc | hc
  · exact hall c List.mem_cons_self
  · exact hall c (List.mem_cons_of_mem _ (List.mem_of_mem_take hc))
  · exact hmore c hc

theorem isInteger_take {n count : Nat} (hn : n ≠ 0) (hcount : count ≠ 0) :
    IsInteger ((Nat.toDigits 10 n).take count) := by
  rw [← List.append_nil ((Nat.toDigits 10 n).take count)]
  exact isInteger_take_append hn hcount (List.forall_mem_nil _)

theorem isInteger_append {n : Nat} (hn : n ≠ 0) {more : List Char} (hmore : ∀ c ∈ more, c.isDigit = true) :
    IsInteger (Nat.toDigits 10 n ++ more) := by
  have hlength := List.length_pos_of_ne_nil (isDigits_toDigits n).1
  have htake := isInteger_take_append hn (Nat.ne_of_gt hlength) hmore
  rwa [List.take_length] at htake

theorem isSize_toDigits (n : Nat) : IsSize (Nat.toDigits 10 n) := by
  have hinteger : IsInteger (Nat.toDigits 10 n) := by
    rcases Nat.eq_zero_or_pos n with rfl | hpos
    · exact .zero
    · rw [← List.append_nil (Nat.toDigits 10 n)]
      exact isInteger_append (Nat.ne_of_gt hpos) (List.forall_mem_nil _)
  have hsize := IsSize.intro hinteger .none .none
  rwa [List.append_nil, List.append_nil] at hsize

theorem isDigit_of_mem_zeros {count : Nat} {c : Char} (h : c ∈ List.replicate count '0') :
    c.isDigit = true := by
  obtain rfl := List.eq_of_mem_replicate h
  rfl

/-- A point between two digits of a positive number. -/
theorem isSize_split {n count : Nat} (hn : n ≠ 0) (hcount : count ≠ 0)
    (hlt : count < (Nat.toDigits 10 n).length) :
    IsSize ((Nat.toDigits 10 n).take count ++ '.' :: (Nat.toDigits 10 n).drop count) :=
  .pointed (isInteger_take hn hcount) (isDigits_drop (isDigits_toDigits n) hlt)

theorem isSize_render (layout : Decimal.Layout) (d : Decimal) : IsSize (Decimal.render layout d) := by
  have hzero : IsDigits ['0'] := ⟨List.cons_ne_nil _ _, List.forall_mem_singleton.mpr rfl⟩
  have hdigits := isDigits_toDigits d.digits
  rw [Decimal.render, Decimal.digitChars]
  by_cases hd : d.digits = 0
  · rw [if_pos hd]
    exact IsSize.intro .zero (.some hzero) .none
  rw [if_neg hd]
  by_cases hplain : layout.plainFrom ≤ d.exponent + ((Nat.toDigits 10 d.digits).length : Int) - 1 ∧
      d.exponent + ((Nat.toDigits 10 d.digits).length : Int) - 1 ≤ layout.plainTo
  · rw [if_pos hplain]
    by_cases hwhole : 0 ≤ d.exponent
    · rw [if_pos hwhole]
      exact .pointed (isInteger_append hd fun c hc => isDigit_of_mem_zeros hc) hzero
    rw [if_neg hwhole]
    by_cases hpoint : 0 ≤ d.exponent + ((Nat.toDigits 10 d.digits).length : Int) - 1
    · rw [if_pos hpoint]
      exact isSize_split hd (Nat.succ_ne_zero _) (by omega)
    · rw [if_neg hpoint]
      exact .pointed .zero (isDigits_append_right (fun c hc => isDigit_of_mem_zeros hc) hdigits)
  · rw [if_neg hplain]
    have hfraction : IsFraction (if (Nat.toDigits 10 d.digits).length = 1 then []
        else '.' :: (Nat.toDigits 10 d.digits).drop 1) := by
      have hlength := List.length_pos_of_ne_nil hdigits.1
      split
      · exact .none
      · exact .some (isDigits_drop hdigits (by omega))
    have hsign : ∀ scientific : Int, (if 0 ≤ scientific then '+' else '-') = '+' ∨
        (if 0 ≤ scientific then '+' else '-') = '-' := by
      intro scientific
      split
      · exact .inl rfl
      · exact .inr rfl
    exact IsSize.intro (isInteger_take hd Nat.one_ne_zero) hfraction (.some (hsign _) (isDigits_toDigits _))

/-! ### Values as they are written -/

/-- What is written for a number is a text. -/
theorem isText_number (value : Number) : IsText value.chars := by
  cases value with
  | natural n => exact .natural (isSize_toDigits n)
  | negative n => exact .negative (isSize_toDigits n)
  | real isNegative size =>
    have hsize := isSize_render layout (Decimal.shortest size)
    cases isNegative with
    | false => exact .natural hsize
    | true => exact .negative hsize

theorem intercalate_cons (part : List Char) (parts : List (List Char)) :
    [','].intercalate (part :: parts) = part ++ parts.flatMap (',' :: ·) := by
  induction parts generalizing part with
  | nil => simp [List.intercalate]
  | cons next parts ih =>
    have hcons : [','].intercalate (part :: next :: parts) = part ++ ',' :: [','].intercalate (next :: parts) := by
      simp [List.intercalate, List.intersperse]
    rw [hcons, ih, List.flatMap_cons, List.cons_append]

/-- Parts with commas between them; `first` tells that none stands before. -/
def separated (first : Bool) (parts : List (List Char)) : List Char :=
  if first then [','].intercalate parts else parts.flatMap (',' :: ·)

theorem separated_cons (first : Bool) (part : List Char) (parts : List (List Char)) :
    separated first (part :: parts) = (if first then [] else [',']) ++ part ++ separated false parts := by
  cases first with
  | true => exact intercalate_cons part parts
  | false => rfl

mutual

/-- What is written for a value is a text. -/
theorem exists_compactOnto : (value : Json) →
    ∃ text, IsText text ∧ ∀ tail, compactOnto value tail = text ++ tail
  | .null => ⟨_, .null, fun _ => rfl⟩
  | .bool true => ⟨_, .true, fun _ => rfl⟩
  | .bool false => ⟨_, .false, fun _ => rfl⟩
  | .number value => ⟨_, isText_number value, fun _ => rfl⟩
  | .string value => ⟨_, .string (value.toList.map Item.ofChar), fun tail => escapeOnto_eq value.toList tail⟩
  | .array values => by
    obtain ⟨elements, helements, hwritten⟩ := exists_compactElements values
    refine ⟨_, .array elements helements, fun tail => ?_⟩
    rw [compactOnto, hwritten]
    simp [separated]
  | .object members => by
    obtain ⟨parts, hparts, hwritten⟩ := exists_compactMembers members
    refine ⟨_, .object parts hparts, fun tail => ?_⟩
    rw [compactOnto, hwritten]
    simp [separated]

theorem exists_compactElements : (values : List Json) →
    ∃ elements, (∀ element ∈ elements, IsText element) ∧
      ∀ first tail, compactElements first values tail = separated first elements ++ tail
  | [] => ⟨[], nofun, fun first tail => by cases first <;> rfl⟩
  | value :: values => by
    obtain ⟨text, htext, hvalue⟩ := exists_compactOnto value
    obtain ⟨elements, helements, hvalues⟩ := exists_compactElements values
    refine ⟨text :: elements, List.forall_mem_cons.mpr ⟨htext, helements⟩, fun first tail => ?_⟩
    rw [compactElements, hvalue, hvalues, separated_cons]
    cases first <;> simp

theorem exists_compactMembers : (members : List (String × Json)) →
    ∃ parts : List (List Item × List Char), (∀ part ∈ parts, IsText part.2) ∧
      ∀ first tail, compactMembers first members tail =
        separated first (parts.map fun part => Item.quoted part.1 ++ ':' :: part.2) ++ tail
  | [] => ⟨[], nofun, fun first tail => by cases first <;> rfl⟩
  | (key, value) :: members => by
    obtain ⟨text, htext, hvalue⟩ := exists_compactOnto value
    obtain ⟨parts, hparts, hmembers⟩ := exists_compactMembers members
    refine ⟨(key.toList.map Item.ofChar, text) :: parts, List.forall_mem_cons.mpr ⟨htext, hparts⟩,
      fun first tail => ?_⟩
    rw [compactMembers, hvalue, hmembers, escapeOnto_eq, List.map_cons, separated_cons]
    cases first <;> simp

end

theorem isText_compact (value : Json) : IsText value.compact.toList := by
  obtain ⟨text, htext, hwritten⟩ := exists_compactOnto value
  rw [compact, String.toList_ofList, hwritten, List.append_nil]
  exact htext

/-! ### Texts on one line -/

theorem le_of_isDigit {c : Char} (h : c.isDigit = true) : 32 ≤ c.toNat := by
  simp only [Char.isDigit, Bool.and_eq_true, decide_eq_true_eq] at h
  have hle : (48 : UInt32).toNat ≤ c.val.toNat := UInt32.le_iff_toNat_le.mp h.1
  have hsize : (48 : UInt32).toNat = 48 := rfl
  have hval : c.toNat = c.val.toNat := rfl
  omega

theorem HexDigit.le_char (digit : HexDigit) : 32 ≤ digit.char.toNat := by
  obtain ⟨value, isUpper⟩ := digit
  revert value isUpper
  decide

theorem Item.le_of_mem_text {item : Item} {c : Char} (h : c ∈ item.text) : 32 ≤ c.toNat := by
  cases item with
  | plain other allowed =>
    obtain rfl := List.mem_singleton.mp h
    exact allowed.2.2
  | escape letter =>
    simp only [Item.text, List.mem_cons, List.not_mem_nil, or_false] at h
    rcases h with rfl | rfl
    · decide
    · cases letter <;> decide
  | unit a b d e =>
    simp only [Item.text, List.mem_cons, List.not_mem_nil, or_false] at h
    rcases h with rfl | rfl | rfl | rfl | rfl | rfl
    · decide
    · decide
    all_goals apply HexDigit.le_char

theorem IsDigits.le_of_mem {text : List Char} (h : IsDigits text) {c : Char} (hc : c ∈ text) : 32 ≤ c.toNat :=
  le_of_isDigit (h.2 c hc)

theorem IsSize.le_of_mem {text : List Char} (h : IsSize text) {c : Char} (hc : c ∈ text) : 32 ≤ c.toNat := by
  obtain ⟨hinteger, hfraction, hexponent⟩ := h
  rw [List.mem_append, List.mem_append] at hc
  rcases hc with (hc | hc) | hc
  · cases hinteger with
    | zero =>
      obtain rfl := List.mem_singleton.mp hc
      decide
    | positive _ hdigits => exact hdigits.le_of_mem hc
  · cases hfraction with
    | none => exact absurd hc List.not_mem_nil
    | some hdigits =>
      rcases List.mem_cons.mp hc with rfl | hc
      · decide
      · exact hdigits.le_of_mem hc
  · cases hexponent with
    | none => exact absurd hc List.not_mem_nil
    | some hsign hdigits =>
      rw [List.mem_cons, List.mem_cons] at hc
      rcases hc with rfl | rfl | hc
      · decide
      · rcases hsign with rfl | rfl <;> decide
      · exact hdigits.le_of_mem hc

theorem le_of_mem_quoted {items : List Item} {c : Char} (h : c ∈ Item.quoted items) : 32 ≤ c.toNat := by
  rw [Item.quoted, List.mem_cons, List.mem_append, List.mem_singleton] at h
  rcases h with rfl | h | rfl
  · decide
  · obtain ⟨item, -, hc⟩ := List.mem_flatMap.mp h
    exact Item.le_of_mem_text hc
  · decide

theorem le_of_mem_intercalate {parts : List (List Char)} (h : ∀ part ∈ parts, ∀ c ∈ part, 32 ≤ c.toNat)
    {c : Char} (hc : c ∈ [','].intercalate parts) : 32 ≤ c.toNat := by
  cases parts with
  | nil => exact absurd hc List.not_mem_nil
  | cons part parts =>
    rw [List.forall_mem_cons] at h
    rw [intercalate_cons, List.mem_append, List.mem_flatMap] at hc
    rcases hc with hc | ⟨other, hother, hc⟩
    · exact h.1 c hc
    · rcases List.mem_cons.mp hc with rfl | hc
      · decide
      · exact h.2 other hother c hc

/-- No control character stands in a text, so it stands on one line. -/
theorem IsText.le_of_mem {text : List Char} (h : IsText text) : ∀ c ∈ text, 32 ≤ c.toNat := by
  induction h with
  | null | true | false => simp
  | natural hsize => exact fun c hc => hsize.le_of_mem hc
  | negative hsize =>
    intro c hc
    rcases List.mem_cons.mp hc with rfl | hc
    · decide
    · exact hsize.le_of_mem hc
  | string items => exact fun c hc => le_of_mem_quoted hc
  | array elements _ ih =>
    intro c hc
    rw [List.mem_cons, List.mem_append, List.mem_singleton] at hc
    rcases hc with rfl | hc | rfl
    · decide
    · exact le_of_mem_intercalate ih hc
    · decide
  | object members _ ih =>
    intro c hc
    rw [List.mem_cons, List.mem_append, List.mem_singleton] at hc
    rcases hc with rfl | hc | rfl
    · decide
    · refine le_of_mem_intercalate (fun part hpart other hother => ?_) hc
      obtain ⟨member, hmember, rfl⟩ := List.mem_map.mp hpart
      rw [List.mem_append, List.mem_cons] at hother
      rcases hother with hother | rfl | hother
      · exact le_of_mem_quoted hother
      · decide
      · exact ih member hmember other hother
    · decide

end Minifier.Json
