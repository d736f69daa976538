import Minifier.Proofs.Json.Source
import Minifier.Proofs.Json.Tokens

/-!
Reading values. The text of a source is read as the value that the source means, as long as its containers
do not nest too deeply and what follows could not go on with it.
-/

namespace Minifier.Json

/-! ### Where parts of a text begin and end -/

theorem ends_cons {c : Char} (h : c.isDigit = false ∧ c ≠ '.' ∧ c ≠ 'e' ∧ c ≠ 'E') (rest : List Char) :
    Ends (c :: rest) := by
  intro other hother
  obtain rfl : c = other := by simpa using hother
  exact h

theorem ends_blanks (blanks : Blanks) {rest : List Char} (h : Ends rest) : Ends (blanks.chars ++ rest) := by
  obtain ⟨chars, hblank⟩ := blanks
  cases chars with
  | nil => exact h
  | cons c chars =>
    refine ends_cons ?_ _
    rcases hblank c List.mem_cons_self with rfl | rfl | rfl | rfl <;> decide

/-- After an element comes a comma or what ends the array. -/
theorem Elements.ends (elements : Elements) {rest : List Char} (h : Ends rest) :
    Ends (elements.text false ++ rest) := by
  cases elements with
  | none => exact h
  | more before element after others => exact ends_cons (by decide) _

/-- After a member comes a comma or what ends the object. -/
theorem Fields.ends (fields : Fields) {rest : List Char} (h : Ends rest) :
    Ends (fields.text false ++ rest) := by
  cases fields with
  | none => exact h
  | more before key beforeColon afterColon value after others => exact ends_cons (by decide) _

/-- The digits of a number begin with a digit. -/
theorem exists_toDigits_cons (n : Nat) :
    ∃ d digits, Nat.toDigits 10 n = d :: digits ∧ d.isDigit = true := by
  cases hdigits : Nat.toDigits 10 n with
  | nil => exact absurd hdigits Nat.toDigits_ne_nil
  | cons d digits =>
    have hd : d ∈ Nat.toDigits 10 n := by
      rw [hdigits]
      exact List.mem_cons_self
    exact ⟨d, digits, rfl, Nat.isDigit_of_mem_toDigits (by decide) (by decide) hd⟩

theorem isJsonBlank_of_isDigit {d : Char} (h : d.isDigit = true) : isJsonBlank d = false := by
  rw [Bool.eq_false_iff]
  intro hblank
  simp only [isJsonBlank, Bool.or_eq_true, beq_iff_eq] at hblank
  rcases hblank with ((rfl | rfl) | rfl) | rfl <;> exact absurd h (by decide)

/-- A value begins with a character that is no blank and ends no array. -/
theorem Source.exists_text_cons (source : Source) :
    ∃ c rest, source.text = c :: rest ∧ isJsonBlank c = false ∧ c ≠ ']' := by
  cases source with
  | null => exact ⟨_, _, rfl, by decide, by decide⟩
  | bool value => cases value <;> exact ⟨_, _, rfl, by decide, by decide⟩
  | integer n fits =>
    obtain ⟨d, digits, hdigits, hd⟩ := exists_toDigits_cons n.natAbs
    rw [Source.text, hdigits]
    split
    · exact ⟨_, _, rfl, by decide, by decide⟩
    · refine ⟨d, digits, rfl, isJsonBlank_of_isDigit hd, ?_⟩
      rintro rfl
      exact absurd hd (by decide)
  | string items => exact ⟨_, _, rfl, by decide, by decide⟩
  | array inner elements => exact ⟨_, _, rfl, by decide, by decide⟩
  | object inner fields => exact ⟨_, _, rfl, by decide, by decide⟩

theorem skipBlanks_source (source : Source) (rest : List Char) :
    skipBlanks (source.text ++ rest) = source.text ++ rest := by
  obtain ⟨c, more, htext, hblank, -⟩ := source.exists_text_cons
  rw [htext, List.cons_append, skipBlanks_cons hblank]

/-! ### Numbers and strings as values -/

theorem readValueWith_blanks (join : Joining) (fuel : Nat) (nested : Option (Reader Json)) (blanks : Blanks)
    (text : List Char) :
    readValueWith join fuel nested (blanks.chars ++ text) = readValueWith join fuel nested text := by
  rw [readValueWith, skipBlanks_append]
  rfl

theorem readValueWith_digit (join : Joining) (fuel : Nat) (nested : Option (Reader Json)) {d : Char}
    (h : d.isDigit = true) (rest : List Char) :
    readValueWith join fuel nested (d :: rest) =
      (readNumber false (d :: rest)).map fun (value, rest) => (.number value, rest) := by
  rw [readValueWith, skipBlanks_cons (isJsonBlank_of_isDigit h)]
  split
  case h_1 heq => exact absurd heq (List.cons_ne_nil _ _)
  case h_9 c more _ _ _ _ _ _ _ heq =>
    obtain ⟨rfl, rfl⟩ := List.cons.inj heq
    exact if_pos h
  all_goals
    rename_i heq
    obtain ⟨rfl, rfl⟩ := List.cons.inj heq
    exact absurd h (by decide)

/-- An integer is read as itself, whatever its sign. -/
theorem readValueWith_integer (join : Joining) (fuel : Nat) (nested : Option (Reader Json)) {n : Int}
    (fits : -2 ^ 63 ≤ n ∧ n < 2 ^ 64) {rest : List Char} (h : Ends rest) :
    readValueWith join fuel nested ((Source.integer n fits).text ++ rest) = .ok (ofInt n, rest) := by
  have hfits : n.natAbs ≤ wordMax := by
    have hmax : wordMax = 2 ^ 64 - 1 := rfl
    omega
  rw [Source.text]
  by_cases hsign : n < 0
  · have hrange : 1 ≤ n.natAbs ∧ n.natAbs ≤ Nat.pow 2 63 := by
      have hpower : Nat.pow 2 63 = 2 ^ 63 := rfl
      omega
    have hread : readNumber true (Nat.toDigits 10 n.natAbs ++ rest) = .ok (.negative n.natAbs, rest) := by
      rw [readNumber_toDigits true hfits h, readAfterInteger_ends true _ h]
      exact if_pos hrange
    rw [if_pos hsign, List.append_assoc, List.singleton_append, readValueWith,
      skipBlanks_cons (by decide)]
    simp only [hread, ofInt, if_neg (Int.not_le.mpr hsign)]
    rfl
  · obtain ⟨d, digits, hdigits, hd⟩ := exists_toDigits_cons n.natAbs
    have hread : readNumber false (Nat.toDigits 10 n.natAbs ++ rest) = .ok (.natural n.natAbs, rest) := by
      rw [readNumber_toDigits false hfits h, readAfterInteger_ends false _ h]
      rfl
    have hnat : n.toNat = n.natAbs := by omega
    rw [if_neg hsign, List.nil_append]
    rw [hdigits, List.cons_append] at hread ⊢
    rw [readValueWith_digit join fuel nested hd, hread, ofInt, if_pos (Int.not_lt.mp hsign), ofNat, hnat]
    rfl

theorem readValueWith_string (join : Joining) (fuel : Nat) (nested : Option (Reader Json))
    {items : List Item} {value : String} (h : Item.string? items = some value) (rest : List Char) :
    readValueWith join fuel nested (Item.quoted items ++ rest) = .ok (.string value, rest) := by
  have hread := readString_items h rest
  rw [Item.quoted, List.cons_append, List.append_assoc, List.singleton_append, readValueWith,
    skipBlanks_cons (by decide)]
  simp only [hread]
  rfl

/-! ### Elements and members -/

theorem nextElement_first {text : List Char} {c : Char} {rest : List Char}
    (h : skipBlanks text = c :: rest) (hc : c ≠ ']') : nextElement true text = .ok (some (c :: rest)) := by
  simp [nextElement, h]

theorem nextElement_comma {text more : List Char} {c : Char} {rest : List Char}
    (h : skipBlanks text = ',' :: more) (hmore : skipBlanks more = c :: rest) (hc : c ≠ ']') :
    nextElement false text = .ok (some (c :: rest)) := by
  simp [nextElement, h, hmore, hc]

/-- An element is found after its comma and blanks. -/
theorem nextElement_more (first : Bool) (before : Blanks) (element : Source) (after : Blanks)
    (rest : Elements) {text tail : List Char}
    (h : skipBlanks text = skipBlanks ((Elements.more before element after rest).text first ++ tail)) :
    nextElement first text = .ok (some (element.text ++ (after.chars ++ (rest.text false ++ tail)))) := by
  have hbefore : skipBlanks (before.chars ++ (element.text ++ (after.chars ++ (rest.text false ++ tail)))) =
      element.text ++ (after.chars ++ (rest.text false ++ tail)) := by
    rw [skipBlanks_append, skipBlanks_source]
  obtain ⟨c, more, htext, -, hc⟩ := element.exists_text_cons
  cases first with
  | true =>
    simp only [Elements.text, if_true, List.nil_append, List.append_assoc] at h
    rw [hbefore] at h
    rw [htext, List.cons_append] at h ⊢
    exact nextElement_first h hc
  | false =>
    simp only [Elements.text, Bool.false_eq_true, if_false, List.append_assoc, List.cons_append,
      List.nil_append] at h
    rw [skipBlanks_cons (by decide)] at h
    rw [htext, List.cons_append] at h hbefore ⊢
    exact nextElement_comma h hbefore hc

/-- A key is found after its comma and blanks. -/
theorem nextKey_more (first : Bool) (before : Blanks) (key : List Item) (beforeColon afterColon : Blanks)
    (value : Source) (after : Blanks) (rest : Fields) {text tail : List Char}
    (h : skipBlanks text =
      skipBlanks ((Fields.more before key beforeColon afterColon value after rest).text first ++ tail)) :
    nextKey first text = .ok (some (key.flatMap Item.text ++ '"' :: (beforeColon.chars ++ ':' ::
      (afterColon.chars ++ (value.text ++ (after.chars ++ (rest.text false ++ tail))))))) := by
  have hkey : ∀ more, skipBlanks (before.chars ++ '"' :: more) = '"' :: more := fun more => by
    rw [skipBlanks_append, skipBlanks_cons (by decide)]
  cases first with
  | true =>
    simp only [Fields.text, Item.quoted, if_true, List.nil_append, List.append_assoc, List.cons_append] at h
    rw [hkey] at h
    simp [nextKey, h]
  | false =>
    simp only [Fields.text, Item.quoted, Bool.false_eq_true, if_false, List.append_assoc,
      List.cons_append, List.nil_append] at h
    rw [skipBlanks_cons (by decide)] at h
    simp [nextKey, h, hkey]

/-! ### Values -/

theorem readValueWith_array (join : Joining) {fuel : Nat} {value : Reader Json} {text left rest : List Char}
    {elements : List Json} (h : readElements value fuel true [] text = .ok (elements, left))
    (hleft : skipBlanks left = ']' :: rest) :
    readValueWith join fuel (some value) ('[' :: text) = .ok (.array elements, rest) := by
  have hend : endArray left = .ok rest := by
    rw [endArray, hleft]
    rfl
  rw [readValueWith, skipBlanks_cons (by decide)]
  simp only [h, bind, Except.bind, hend]

theorem readValueWith_object {join : Joining} {fuel : Nat} {value : Reader Json}
    {text left rest : List Char} {members : Members}
    (h : readMembers join value fuel true [] text = .ok (members, left))
    (hleft : skipBlanks left = '\x7d' :: rest) :
    readValueWith join fuel (some value) ('\x7b' :: text) = .ok (.object members, rest) := by
  have hend : endObject left = .ok rest := by
    rw [endObject, hleft]
    rfl
  rw [readValueWith, skipBlanks_cons (by decide)]
  simp only [h, bind, Except.bind, hend]

theorem readElements_end (value : Reader Json) (loop : Nat) (first : Bool) (read : List Json)
    {text rest : List Char} (h : skipBlanks text = ']' :: rest) :
    readElements value (loop + 1) first read text = .ok (read.reverse, text) := by
  have hnext : nextElement first text = .ok none := by
    rw [nextElement, h]
    rfl
  rw [readElements, hnext]
  rfl

theorem readElements_more {value : Reader Json} (loop : Nat) {first : Bool} (read : List Json)
    {text element left : List Char} {json : Json} (hnext : nextElement first text = .ok (some element))
    (hvalue : value element = .ok (json, left)) :
    readElements value (loop + 1) first read text = readElements value loop false (json :: read) left := by
  rw [readElements, hnext]
  exact congrArg (fun found => found >>= fun element : Json × List Char =>
    readElements value loop false (element.1 :: read) element.2) hvalue

theorem readMembers_end (join : Joining) (value : Reader Json) (loop : Nat) (first : Bool) (read : Members)
    {text rest : List Char} (h : skipBlanks text = '\x7d' :: rest) :
    readMembers join value (loop + 1) first read text = .ok (read, text) := by
  have hnext : nextKey first text = .ok none := by
    rw [nextKey, h]
    rfl
  rw [readMembers, hnext]
  rfl

theorem readMembers_more (join : Joining) {value : Reader Json} (loop : Nat) {first : Bool} (read : Members)
    {text named colon element left : List Char} {key : String} {json : Json}
    (hnext : nextKey first text = .ok (some named)) (hkey : readString named = .ok (key, colon))
    (hcolon : skipColon colon = .ok element) (hvalue : value element = .ok (json, left)) :
    readMembers join value (loop + 1) first read text =
      readMembers join value loop false (join read key json) left := by
  rw [readMembers, hnext]
  simp only [bind, Except.bind, hkey, hcolon, hvalue]

theorem readValue_eq (join : Joining) (fuel depth : Nat) :
    ∃ nested, readValue join fuel depth = readValueWith join fuel nested := by
  cases depth with
  | zero => exact ⟨_, rfl⟩
  | succ depth => exact ⟨_, rfl⟩

theorem readValue_blanks (join : Joining) (fuel depth : Nat) (blanks : Blanks) (text : List Char) :
    readValue join fuel depth (blanks.chars ++ text) = readValue join fuel depth text := by
  obtain ⟨nested, hread⟩ := readValue_eq join fuel depth
  rw [hread, readValueWith_blanks]

theorem skipColon_blanks (blanks : Blanks) (rest : List Char) :
    skipColon (blanks.chars ++ ':' :: rest) = .ok rest := by
  rw [skipColon, skipBlanks_append, skipBlanks_cons (by decide)]
  rfl

/-- A value that holds no others. -/
def IsScalar : Json → Prop
  | .array _ | .object _ => False
  | _ => True

/-- A value that holds no others is read at any depth, however members would be joined. -/
theorem Source.readValue_scalar (join : Joining) {source : Source} {value : Json}
    (hvalue : source.value? = some value) (hscalar : value.IsScalar) (fuel depth : Nat) {rest : List Char}
    (hrest : Ends rest) : readValue join fuel depth (source.text ++ rest) = .ok (value, rest) := by
  obtain ⟨nested, hread⟩ := readValue_eq join fuel depth
  rw [hread]
  cases source with
  | null =>
    obtain rfl := Option.some.inj hvalue
    rfl
  | bool value =>
    obtain rfl := Option.some.inj hvalue
    cases value <;> rfl
  | integer n fits =>
    obtain rfl := Option.some.inj hvalue
    exact readValueWith_integer join fuel nested fits hrest
  | string items =>
    obtain ⟨text, htext, rfl⟩ := Option.map_eq_some_iff.mp hvalue
    exact readValueWith_string join fuel nested htext rest
  | array inner elements =>
    obtain ⟨values, -, rfl⟩ := Option.map_eq_some_iff.mp hvalue
    exact hscalar.elim
  | object inner fields =>
    obtain ⟨given, -, rfl⟩ := Option.map_eq_some_iff.mp hvalue
    exact hscalar.elim

theorem isScalar_ofInt (n : Int) : (ofInt n).IsScalar := by
  rw [ofInt]
  split <;> exact trivial

mutual

/-- The text of a source is read as its value. -/
theorem Source.read : (source : Source) → {value : Json} → source.value? = some value →
    {fuel depth : Nat} → source.text.length < fuel → source.depth ≤ depth →
      {rest : List Char} → Ends rest →
        readValue Members.put fuel depth (source.text ++ rest) = .ok (value, rest)
  | .null, _, hvalue, fuel, depth, _, _, rest, hrest => by
    obtain rfl := Option.some.inj hvalue
    exact Source.readValue_scalar Members.put hvalue trivial fuel depth hrest
  | .bool value, _, hvalue, fuel, depth, _, _, rest, hrest => by
    obtain rfl := Option.some.inj hvalue
    exact Source.readValue_scalar Members.put hvalue trivial fuel depth hrest
  | .integer n fits, _, hvalue, fuel, depth, _, _, rest, hrest => by
    obtain rfl := Option.some.inj hvalue
    exact Source.readValue_scalar Members.put hvalue (isScalar_ofInt n) fuel depth hrest
  | .string items, _, hvalue, fuel, depth, _, _, rest, hrest => by
    obtain ⟨text, -, rfl⟩ := Option.map_eq_some_iff.mp hvalue
    exact Source.readValue_scalar Members.put hvalue trivial fuel depth hrest
  | .array inner elements, _, hvalue, fuel, 0, _, hdepth, rest, _ => absurd hdepth (Nat.not_succ_le_zero _)
  | .array inner elements, _, hvalue, fuel, depth + 1, hfuel, hdepth, rest, _ => by
    obtain ⟨values, hvalues, rfl⟩ := Option.map_eq_some_iff.mp hvalue
    have hlength : (elements.text true).length < fuel := by
      simp only [Source.text, List.length_cons, List.length_append] at hfuel
      omega
    obtain ⟨left, hread, hleft⟩ := elements.read hvalues true hlength (Nat.le_of_succ_le_succ hdepth)
      hlength [] (skipBlanks_append inner (elements.text true ++ ']' :: rest))
    have htext : (Source.array inner elements).text ++ rest =
        '[' :: (inner.chars ++ (elements.text true ++ ']' :: rest)) := by
      simp [Source.text]
    rw [htext]
    exact readValueWith_array Members.put hread hleft
  | .object inner fields, _, hvalue, fuel, 0, _, hdepth, rest, _ => absurd hdepth (Nat.not_succ_le_zero _)
  | .object inner fields, _, hvalue, fuel, depth + 1, hfuel, hdepth, rest, _ => by
    obtain ⟨given, hgiven, rfl⟩ := Option.map_eq_some_iff.mp hvalue
    have hlength : (fields.text true).length < fuel := by
      simp only [Source.text, List.length_cons, List.length_append] at hfuel
      omega
    obtain ⟨left, hread, hleft⟩ := fields.read hgiven true hlength (Nat.le_of_succ_le_succ hdepth)
      hlength [] (skipBlanks_append inner (fields.text true ++ '\x7d' :: rest))
    have htext : (Source.object inner fields).text ++ rest =
        '\x7b' :: (inner.chars ++ (fields.text true ++ '\x7d' :: rest)) := by
      simp [Source.text]
    rw [Members.foldl_put] at hread
    rw [htext]
    exact readValueWith_object hread hleft

/-- The text of elements is read as their values, up to the bracket that ends the array. -/
theorem Elements.read : (elements : Elements) → {values : List Json} → elements.values? = some values →
    {fuel depth : Nat} → (first : Bool) → (elements.text first).length < fuel → elements.depth ≤ depth →
      {loop : Nat} → (elements.text first).length < loop → (read : List Json) → {text rest : List Char} →
        skipBlanks text = skipBlanks (elements.text first ++ ']' :: rest) →
          ∃ left, readElements (readValue Members.put fuel depth) loop first read text =
            .ok (read.reverse ++ values, left) ∧ skipBlanks left = ']' :: rest
  | .none, values, hvalues, fuel, depth, first, _, _, 0, hloop, read, text, rest, htext =>
    absurd hloop (Nat.not_lt_zero _)
  | .none, values, hvalues, fuel, depth, first, _, _, loop + 1, hloop, read, text, rest, htext => by
    obtain rfl := Option.some.inj hvalues
    have hend : skipBlanks text = ']' :: rest := htext.trans (skipBlanks_cons (by decide) rest)
    refine ⟨text, ?_, hend⟩
    rw [List.append_nil]
    exact readElements_end _ loop first read hend
  | .more before element after others, values, hvalues, fuel, depth, first, hfuel, hdepth, 0, hloop,
      read, text, rest, htext => absurd hloop (Nat.not_lt_zero _)
  | .more before element after others, values, hvalues, fuel, depth, first, hfuel, hdepth, loop + 1, hloop,
      read, text, rest, htext => by
    obtain ⟨value, hvalue, others', hothers, rfl⟩ :
        ∃ value, element.value? = some value ∧ ∃ others', others.values? = some others' ∧
          value :: others' = values := by
      simpa [Elements.values?, Option.bind_eq_some_iff] using hvalues
    have hlengths : element.text.length + (others.text false).length ≤
        ((Elements.more before element after others).text first).length := by
      simp only [Elements.text, List.length_append]
      omega
    -- An element takes at least one character, so one round less is enough for the others.
    have hpositive : 0 < element.text.length := by
      obtain ⟨c, more, htext, -, -⟩ := element.exists_text_cons
      rw [htext]
      exact Nat.succ_pos _
    have hdepths : element.depth ≤ depth ∧ others.depth ≤ depth := Nat.max_le.mp hdepth
    have helement : element.text.length < fuel := by omega
    have hothersFuel : (others.text false).length < fuel := by omega
    have hothersLoop : (others.text false).length < loop := by omega
    have hread := element.read hvalue helement hdepths.1
      (ends_blanks after (others.ends (ends_cons (c := ']') (by decide) rest)))
    obtain ⟨left, hothersRead, hleft⟩ := others.read hothers false hothersFuel hdepths.2 hothersLoop
      (value :: read) (skipBlanks_append after (others.text false ++ ']' :: rest))
    refine ⟨left, ?_, hleft⟩
    rw [readElements_more loop read (nextElement_more first before element after others htext) hread,
      hothersRead, List.reverse_cons, List.append_assoc, List.singleton_append]

/-- The text of members is read as setting their keys, up to the brace that ends the object. -/
theorem Fields.read : (fields : Fields) → {given : Members} → fields.given? = some given →
    {fuel depth : Nat} → (first : Bool) → (fields.text first).length < fuel → fields.depth ≤ depth →
      {loop : Nat} → (fields.text first).length < loop → (read : Members) → {text rest : List Char} →
        skipBlanks text = skipBlanks (fields.text first ++ '\x7d' :: rest) →
          ∃ left, readMembers Members.put (readValue Members.put fuel depth) loop first read text =
            .ok (given.foldl (fun members member => Members.put members member.1 member.2) read, left) ∧
              skipBlanks left = '\x7d' :: rest
  | .none, given, hgiven, fuel, depth, first, _, _, 0, hloop, read, text, rest, htext =>
    absurd hloop (Nat.not_lt_zero _)
  | .none, given, hgiven, fuel, depth, first, _, _, loop + 1, hloop, read, text, rest, htext => by
    obtain rfl := Option.some.inj hgiven
    have hend : skipBlanks text = '\x7d' :: rest := htext.trans (skipBlanks_cons (by decide) rest)
    exact ⟨text, readMembers_end Members.put _ loop first read hend, hend⟩
  | .more before key beforeColon afterColon value after others, given, hgiven, fuel, depth, first, hfuel,
      hdepth, 0, hloop, read, text, rest, htext => absurd hloop (Nat.not_lt_zero _)
  | .more before key beforeColon afterColon value after others, given, hgiven, fuel, depth, first, hfuel,
      hdepth, loop + 1, hloop, read, text, rest, htext => by
    obtain ⟨name, hname, json, hjson, others', hothers, rfl⟩ :
        ∃ name, Item.string? key = some name ∧ ∃ json, value.value? = some json ∧
          ∃ others', others.given? = some others' ∧ (name, json) :: others' = given := by
      simpa [Fields.given?, Option.bind_eq_some_iff] using hgiven
    have hlengths : value.text.length + (others.text false).length + 1 ≤
        ((Fields.more before key beforeColon afterColon value after others).text first).length := by
      simp only [Fields.text, List.length_append, List.length_singleton]
      omega
    have hdepths : value.depth ≤ depth ∧ others.depth ≤ depth := Nat.max_le.mp hdepth
    have hvalueFuel : value.text.length < fuel := by omega
    have hothersFuel : (others.text false).length < fuel := by omega
    have hothersLoop : (others.text false).length < loop := by omega
    have hread := value.read hjson hvalueFuel hdepths.1
      (ends_blanks after (others.ends (ends_cons (c := '\x7d') (by decide) rest)))
    have hcolon := skipColon_blanks beforeColon
      (afterColon.chars ++ (value.text ++ (after.chars ++ (others.text false ++ '\x7d' :: rest))))
    obtain ⟨left, hothersRead, hleft⟩ := others.read hothers false hothersFuel hdepths.2 hothersLoop
      (Members.put read name json) (skipBlanks_append after (others.text false ++ '\x7d' :: rest))
    refine ⟨left, ?_, hleft⟩
    rw [readMembers_more Members.put loop read
      (nextKey_more first before key beforeColon afterColon value after others htext)
      (readString_items hname _) hcolon ((readValue_blanks _ _ _ afterColon _).trans hread), hothersRead,
      List.foldl_cons]

end

theorem readEnd_blanks (blanks : Blanks) : readEnd blanks.chars = .ok () := by
  rw [readEnd, ← List.append_nil blanks.chars, skipBlanks_append]
  rfl

/-- The text of a source with blanks around it is read as the value of the source. -/
theorem parseChars_text (before : Blanks) (source : Source) (after : Blanks) {value : Json}
    (hvalue : source.value? = some value) (hdepth : source.depth ≤ depthLimit) :
    parseChars (before.chars ++ source.text ++ after.chars) = .ok value := by
  have hends : Ends after.chars := by
    rw [← List.append_nil after.chars]
    exact ends_blanks after nofun
  have hfuel : source.text.length < (before.chars ++ source.text ++ after.chars).length + 1 := by
    simp only [List.length_append]
    omega
  have hread := source.read hvalue hfuel hdepth hends
  rw [← readValue_blanks Members.put _ depthLimit before, ← List.append_assoc] at hread
  rw [parseChars, readAll, hread]
  simp only [readEnd_blanks]

end Minifier.Json
