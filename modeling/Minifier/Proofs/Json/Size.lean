import Minifier.Data
import Minifier.Proofs.Json.Grammar
import Minifier.Proofs.Json.NumberTokens
import Minifier.Proofs.Text.Basic
import Mathlib.Data.List.DropRight
import Mathlib.Data.List.Perm.Subperm

/-!
What is written for a value has no more bytes than what was read for it, where all numbers are integers that
fit machine words. An escape is never written longer than it may be read, and a repeated key is written once;
real numbers are left out, since their text may grow.
-/

namespace Minifier.Json

open Text

/-! ### Strings -/

theorem utf8Size_hexDigit {n : Nat} (h : n < 16) : (hexDigit n).utf8Size = 1 := by
  revert n
  decide

theorem byteSize_escapeChar_le (c : Char) : byteSize (escapeChar c) ≤ 6 := by
  unfold escapeChar
  split_ifs
  any_goals decide
  · rename_i hcontrol
    have hfirst := @utf8Size_hexDigit (c.toNat / 16) (by omega)
    have hsecond := @utf8Size_hexDigit (c.toNat % 16) (by omega)
    have hfront : byteSize ['\\', 'u', '0', '0'] = 4 := by decide
    have hall : byteSize (['\\', 'u', '0', '0'] ++ [hexDigit (c.toNat / 16), hexDigit (c.toNat % 16)]) ≤ 6 := by
      simp only [byteSize_append, byteSize_cons, byteSize_nil, hfront, hfirst, hsecond]
      omega
    exact hall
  · have hplain := c.utf8Size_le_four
    rw [byteSize_cons, byteSize_nil]
    omega

theorem escapeChar_eq {c : Char} (hquote : c ≠ '"') (hbackslash : c ≠ '\\') (hcontrol : ¬ c.toNat < 32) :
    escapeChar c = [c] := by
  unfold escapeChar
  simp only [beq_iff_eq, if_neg hquote, if_neg hbackslash, if_neg hcontrol]
  split_ifs
  any_goals
    subst c
    exact absurd (by decide) hcontrol
  rfl

/-- What is read after a backslash is taken whole, and is as long as what is written for it. -/
theorem exists_of_readEscape {text : List Char} {c : Char} {used : Nat} (h : readEscape text = .ok (c, used)) :
    ∃ escape more, text = escape ++ more ∧ escape.length = used ∧
      numbersFrom true 0 ('\\' :: text) = numbersFrom true 0 more ∧
        byteSize (escapeChar c) ≤ byteSize escape + 1 := by
  unfold readEscape at h
  split at h
  case h_10 rest =>
    obtain ⟨⟨d, length⟩, hread, h⟩ := exists_of_map_eq_ok h
    obtain ⟨rfl, rfl⟩ := Prod.mk.inj h
    obtain ⟨escape, more, rfl, rfl, hfour, hmore⟩ := exists_of_readUnicodeEscape hread
    refine ⟨'u' :: escape, more, rfl, rfl, (numbersFrom_backslash _ _).trans hmore, ?_⟩
    have hwritten := byteSize_escapeChar_le d
    have hread := length_le_byteSize ('u' :: escape)
    rw [List.length_cons] at hread
    omega
  case h_1 => cases h
  case h_11 => cases h
  all_goals
    obtain ⟨rfl, rfl⟩ := Prod.mk.inj (Except.ok.inj h)
    exact ⟨[_], _, rfl, rfl, numbersFrom_backslash _ _, by decide⟩

theorem exists_of_readStringChars {text read chars left : List Char}
    (h : readStringChars 0 text read = .ok (chars, left)) :
    ∃ more, chars = read.reverse ++ more ∧ numbersFrom true 0 text = numberTokens left ∧
      byteSize (more.flatMap escapeChar) + 1 + byteSize left ≤ byteSize text := by
  -- An escape is taken in one step, so the induction is on the length.
  induction hlength : text.length using Nat.strong_induction_on generalizing text read with
  | h length ih =>
    cases text with
    | nil => cases h
    | cons c rest =>
      rw [List.length_cons] at hlength
      unfold readStringChars at h
      split at h
      · rename_i hquote
        obtain ⟨rfl, rfl⟩ := Prod.mk.inj (Except.ok.inj h)
        subst hquote
        refine ⟨[], (List.append_nil _).symm, numbersFrom_quote rest, ?_⟩
        rw [List.flatMap_nil, byteSize_nil, byteSize_cons]
        have hone : '"'.utf8Size = 1 := rfl
        omega
      · rename_i hquote
        split at h
        · rename_i hbackslash
          subst hbackslash
          cases hescape : readEscape rest with
          | error failure =>
            rw [hescape] at h
            cases h
          | ok read' =>
            obtain ⟨escaped, used⟩ := read'
            obtain ⟨escape, behind, rfl, rfl, hnumbers, hsize⟩ := exists_of_readEscape hescape
            rw [hescape] at h
            simp only [readStringChars_skip] at h
            rw [List.length_append] at hlength
            obtain ⟨more, rfl, hmore, hmoreSize⟩ := ih behind.length (by omega) h rfl
            refine ⟨escaped :: more, by simp, hnumbers.trans hmore, ?_⟩
            rw [List.flatMap_cons, byteSize_append, byteSize_cons, byteSize_append]
            have hone : '\\'.utf8Size = 1 := rfl
            omega
        · rename_i hbackslash
          split at h
          · cases h
          · rename_i hcontrol
            obtain ⟨more, rfl, hmore, hmoreSize⟩ := ih rest.length (by omega) h rfl
            refine ⟨c :: more, by simp, (numbersFrom_plain hquote hbackslash rest).trans hmore, ?_⟩
            rw [List.flatMap_cons, escapeChar_eq hquote hbackslash hcontrol, byteSize_append, byteSize_cons,
              byteSize_cons, byteSize_nil]
            omega

theorem byteSize_escapeOnto (chars tail : List Char) :
    byteSize (escapeOnto chars tail) = byteSize (chars.flatMap escapeChar) + 2 + byteSize tail := by
  have hitems : (chars.map Item.ofChar).flatMap Item.text = chars.flatMap escapeChar := by
    simp only [List.flatMap_map, Item.text_ofChar]
  have hone : '"'.utf8Size = 1 := rfl
  rw [escapeOnto_eq, Item.quoted, hitems]
  simp only [byteSize_append, byteSize_cons, byteSize_nil]
  omega

theorem of_readString {text left : List Char} {value : String} (hintegers : Integers ('"' :: text))
    (h : readString text = .ok (value, left)) :
    byteSize (escapeOnto value.toList []) + byteSize left ≤ byteSize text + 1 ∧ Integers left := by
  unfold readString at h
  obtain ⟨⟨chars, rest⟩, hread, h⟩ := exists_of_bind_eq_ok h
  obtain ⟨rfl, rfl⟩ := Prod.mk.inj (Except.ok.inj h)
  obtain ⟨more, rfl, hnumbers, hsize⟩ := exists_of_readStringChars hread
  constructor
  · simp only [String.toList_ofList, byteSize_escapeOnto, byteSize_nil]
    omega
  · unfold Integers at hintegers ⊢
    rwa [numberTokens_quote, hnumbers] at hintegers

/-! ### Written values -/

/-- How many bytes are written for a value. -/
def writtenSize (value : Json) : Nat := byteSize (compactOnto value [])

/-- How many bytes are written for elements, with a comma before each that is not the first. -/
def elementsSize (first : Bool) (values : List Json) : Nat := byteSize (compactElements first values [])

/-- How many bytes are written for a member, without a comma. -/
def memberSize (member : String × Json) : Nat :=
  byteSize (escapeOnto member.1.toList []) + 1 + writtenSize member.2

/-- How many bytes are written for members, with a comma before each that is not the first. -/
def membersSize (first : Bool) (members : Members) : Nat := byteSize (compactMembers first members [])

theorem byteSize_compactOnto (value : Json) (tail : List Char) :
    byteSize (compactOnto value tail) = writtenSize value + byteSize tail := by
  obtain ⟨text, -, hwritten⟩ := exists_compactOnto value
  rw [writtenSize, hwritten, hwritten, List.append_nil, byteSize_append]

theorem byteSize_compactElements (first : Bool) (values : List Json) (tail : List Char) :
    byteSize (compactElements first values tail) = elementsSize first values + byteSize tail := by
  obtain ⟨elements, -, hwritten⟩ := exists_compactElements values
  rw [elementsSize, hwritten, hwritten, List.append_nil, byteSize_append]

theorem byteSize_compactMembers (first : Bool) (members : Members) (tail : List Char) :
    byteSize (compactMembers first members tail) = membersSize first members + byteSize tail := by
  obtain ⟨parts, -, hwritten⟩ := exists_compactMembers members
  rw [membersSize, hwritten, hwritten, List.append_nil, byteSize_append]

theorem elementsSize_cons (first : Bool) (value : Json) (values : List Json) :
    elementsSize first (value :: values) =
      (if first then 0 else 1) + writtenSize value + elementsSize false values := by
  have hcomma : ','.utf8Size = 1 := rfl
  rw [elementsSize, compactElements]
  cases first with
  | true => simp only [if_true, byteSize_compactOnto, elementsSize]; omega
  | false =>
    simp only [Bool.false_eq_true, if_false, byteSize_cons, byteSize_compactOnto, elementsSize]
    omega

theorem membersSize_cons (first : Bool) (member : String × Json) (members : Members) :
    membersSize first (member :: members) =
      (if first then 0 else 1) + memberSize member + membersSize false members := by
  obtain ⟨key, value⟩ := member
  have hcomma : ','.utf8Size = 1 := rfl
  have hcolon : ':'.utf8Size = 1 := rfl
  have hnil : byteSize [] = 0 := rfl
  rw [membersSize, compactMembers]
  cases first with
  | true =>
    simp only [if_true, byteSize_escapeOnto, byteSize_cons, byteSize_compactOnto, memberSize, membersSize]
    omega
  | false =>
    simp only [Bool.false_eq_true, if_false, byteSize_escapeOnto, byteSize_cons, byteSize_compactOnto,
      memberSize, membersSize]
    omega

theorem writtenSize_array (values : List Json) : writtenSize (.array values) = elementsSize true values + 2 := by
  have hopen : '['.utf8Size = 1 := rfl
  have hclose : byteSize [']'] = 1 := rfl
  rw [writtenSize, compactOnto, byteSize_cons, byteSize_compactElements]
  omega

theorem writtenSize_object (members : Members) : writtenSize (.object members) = membersSize true members + 2 := by
  have hopen : '\x7b'.utf8Size = 1 := rfl
  have hclose : byteSize ['\x7d'] = 1 := rfl
  rw [writtenSize, compactOnto, byteSize_cons, byteSize_compactMembers]
  omega

/-- Every member that is not the first has its comma. -/
theorem membersSize_false (members : Members) :
    membersSize false members = (members.map fun member => memberSize member + 1).sum := by
  induction members with
  | nil => rfl
  | cons member members ih =>
    rw [membersSize_cons, ih, List.map_cons, List.sum_cons, if_neg Bool.false_ne_true]
    omega

/-- Settled members are some of those that were given, so no more is written for them. -/
theorem membersSize_settle_le (given : Members) :
    membersSize true (Members.settle given) ≤ membersSize true given := by
  have hnodup : (Members.settle given).Nodup := by
    apply List.Nodup.of_map Prod.fst
    rw [Members.map_fst_settle]
    exact Entries.nodup_eraseDups _
  obtain ⟨some', hperm, hsublist⟩ := List.subperm_of_subset hnodup fun _ => Members.mem_of_mem_settle
  have hsum : membersSize false (Members.settle given) ≤ membersSize false given := by
    rw [membersSize_false, membersSize_false, ← (hperm.map _).sum_eq]
    exact (hsublist.map _).sum_le_sum fun _ _ => Nat.zero_le _
  cases hsettled : Members.settle given with
  | nil => exact Nat.zero_le _
  | cons member members =>
    cases given with
    | nil => cases hsettled
    | cons member' members' =>
      rw [hsettled, membersSize_cons, membersSize_cons, if_neg Bool.false_ne_true] at hsum
      rw [membersSize_cons, membersSize_cons, if_pos rfl]
      omega

/-! ### Reading -/

/-- A reader takes at least as many bytes as are written for what it reads. -/
def Shrinks (reader : Reader Json) : Prop :=
  ∀ text value left, Integers text → reader text = .ok (value, left) →
    writtenSize value + byteSize left ≤ byteSize text ∧ Integers left

theorem byteSize_skipBlanks_le (text : List Char) : byteSize (skipBlanks text) ≤ byteSize text :=
  byteSize_le_of_sublist (List.dropWhile_sublist _)

/-- After blanks, a character that belongs to no number and no string goes. -/
theorem of_skipBlanks_cons {text rest : List Char} {c : Char} (hintegers : Integers text)
    (h : skipBlanks text = c :: rest) (hquote : c ≠ '"') (hopens : opensNumber c = false) :
    byteSize rest + 1 ≤ byteSize text ∧ Integers rest := by
  have hsize := byteSize_skipBlanks_le text
  have hskipped := hintegers.skipBlanks
  have hc := c.utf8Size_pos
  rw [h] at hsize hskipped
  rw [byteSize_cons] at hsize
  exact ⟨by omega, hskipped.of_cons hquote hopens⟩

theorem of_nextElement {first : Bool} {text element : List Char} (hintegers : Integers text)
    (h : nextElement first text = .ok (some element)) :
    byteSize element + (if first then 0 else 1) ≤ byteSize text ∧ Integers element := by
  have hsize := byteSize_skipBlanks_le text
  have hskipped := hintegers.skipBlanks
  unfold nextElement at h
  split at h
  · cases h
  · cases h
  · rename_i c rest hbracket hskip
    rw [hskip] at hsize hskipped
    split at h
    · rename_i hfirst
      obtain rfl := Option.some.inj (Except.ok.inj h)
      rw [if_pos hfirst]
      exact ⟨hsize, hskipped⟩
    · rename_i hfirst
      split at h
      · rename_i hcomma
        subst hcomma
        obtain ⟨hrest, hintegers'⟩ := of_skipBlanks_cons hintegers hskip (by decide) (by decide)
        have hsize' := byteSize_skipBlanks_le rest
        split at h
        · cases h
        · cases h
        · obtain rfl := Option.some.inj (Except.ok.inj h)
          rw [if_neg hfirst]
          exact ⟨by omega, hintegers'.skipBlanks⟩
      · cases h

theorem of_nextKey {first : Bool} {text key : List Char} (hintegers : Integers text)
    (h : nextKey first text = .ok (some key)) :
    byteSize key + 1 + (if first then 0 else 1) ≤ byteSize text ∧ Integers ('"' :: key) := by
  have hsize := byteSize_skipBlanks_le text
  have hskipped := hintegers.skipBlanks
  have hquote : '"'.utf8Size = 1 := rfl
  unfold nextKey at h
  split at h
  · cases h
  · cases h
  · rename_i c rest hbrace hskip
    rw [hskip] at hsize hskipped
    split at h
    · rename_i hfirst
      split at h
      · rename_i hc
        subst hc
        obtain rfl := Option.some.inj (Except.ok.inj h)
        rw [byteSize_cons] at hsize
        rw [if_pos hfirst]
        exact ⟨by omega, hskipped⟩
      · cases h
    · rename_i hfirst
      split at h
      · rename_i hcomma
        subst hcomma
        obtain ⟨hrest, hintegers'⟩ := of_skipBlanks_cons hintegers hskip (by decide) (by decide)
        have hsize' := byteSize_skipBlanks_le rest
        have hskipped' := hintegers'.skipBlanks
        split at h
        · cases h
        · rename_i hkey
          obtain rfl := Option.some.inj (Except.ok.inj h)
          rw [hkey] at hsize' hskipped'
          rw [byteSize_cons] at hsize'
          rw [if_neg hfirst]
          exact ⟨by omega, hskipped'⟩
        · cases h
        · cases h
      · cases h

theorem of_skipColon {text rest : List Char} (hintegers : Integers text) (h : skipColon text = .ok rest) :
    byteSize rest + 1 ≤ byteSize text ∧ Integers rest := by
  unfold skipColon at h
  split at h
  · cases h
  · rename_i hskip
    obtain rfl := Except.ok.inj h
    exact of_skipBlanks_cons hintegers hskip (by decide) (by decide)
  · cases h

theorem of_endArray {text rest : List Char} (hintegers : Integers text) (h : endArray text = .ok rest) :
    byteSize rest + 1 ≤ byteSize text ∧ Integers rest := by
  unfold endArray at h
  split at h
  · cases h
  · rename_i hskip
    obtain rfl := Except.ok.inj h
    exact of_skipBlanks_cons hintegers hskip (by decide) (by decide)
  · split at h <;> cases h
  · cases h

theorem of_endObject {text rest : List Char} (hintegers : Integers text) (h : endObject text = .ok rest) :
    byteSize rest + 1 ≤ byteSize text ∧ Integers rest := by
  unfold endObject at h
  split at h
  · cases h
  · rename_i hskip
    obtain rfl := Except.ok.inj h
    exact of_skipBlanks_cons hintegers hskip (by decide) (by decide)
  · cases h
  · cases h

theorem eq_of_readWord {expected text left : List Char} (h : readWord expected text = .ok ((), left)) :
    text = expected ++ left := by
  induction expected generalizing text with
  | nil => exact (Prod.mk.inj (Except.ok.inj h)).2
  | cons c expected ih =>
    cases text with
    | nil => cases h
    | cons d text =>
      unfold readWord at h
      split at h
      · rename_i hd
        rw [hd, ih h, List.cons_append]
      · cases h

theorem of_readElements {value : Reader Json} (hvalue : Shrinks value) {fuel : Nat} {first : Bool}
    {read elements : List Json} {text left : List Char} (hintegers : Integers text)
    (h : readElements value fuel first read text = .ok (elements, left)) :
    ∃ more, elements = read.reverse ++ more ∧ elementsSize first more + byteSize left ≤ byteSize text ∧
      Integers left := by
  induction fuel generalizing first read text with
  | zero =>
    obtain ⟨rfl, rfl⟩ := Prod.mk.inj (Except.ok.inj h)
    exact ⟨[], (List.append_nil _).symm, (Nat.zero_add _).le, hintegers⟩
  | succ fuel ih =>
    unfold readElements at h
    obtain ⟨next, hnext, h⟩ := exists_of_bind_eq_ok h
    cases next with
    | none =>
      obtain ⟨rfl, rfl⟩ := Prod.mk.inj (Except.ok.inj h)
      exact ⟨[], (List.append_nil _).symm, (Nat.zero_add _).le, hintegers⟩
    | some element =>
      obtain ⟨hsize, helement⟩ := of_nextElement hintegers hnext
      obtain ⟨⟨json, rest⟩, hread, h⟩ := exists_of_bind_eq_ok h
      obtain ⟨hjson, hrest⟩ := hvalue element json rest helement hread
      obtain ⟨more, rfl, hmore, hleft⟩ := ih hrest h
      refine ⟨json :: more, by simp, ?_, hleft⟩
      rw [elementsSize_cons]
      omega

/-- The members that are read are set one after another. -/
theorem of_readMembers {value : Reader Json} (hvalue : Shrinks value) {fuel : Nat} {first : Bool}
    {read members : Members} {text left : List Char} (hintegers : Integers text)
    (h : readMembers Members.put value fuel first read text = .ok (members, left)) :
    ∃ given : Members, members = given.foldl (fun members member => Members.put members member.1 member.2) read ∧
      membersSize first given + byteSize left ≤ byteSize text ∧ Integers left := by
  induction fuel generalizing first read text with
  | zero =>
    obtain ⟨rfl, rfl⟩ := Prod.mk.inj (Except.ok.inj h)
    exact ⟨[], rfl, (Nat.zero_add _).le, hintegers⟩
  | succ fuel ih =>
    unfold readMembers at h
    obtain ⟨next, hnext, h⟩ := exists_of_bind_eq_ok h
    cases next with
    | none =>
      obtain ⟨rfl, rfl⟩ := Prod.mk.inj (Except.ok.inj h)
      exact ⟨[], rfl, (Nat.zero_add _).le, hintegers⟩
    | some named =>
      obtain ⟨hsize, hnamed⟩ := of_nextKey hintegers hnext
      obtain ⟨⟨key, behind⟩, hstring, h⟩ := exists_of_bind_eq_ok h
      obtain ⟨hkey, hbehind⟩ := of_readString hnamed hstring
      obtain ⟨element, hskip, h⟩ := exists_of_bind_eq_ok h
      obtain ⟨hcolon, helement⟩ := of_skipColon hbehind hskip
      obtain ⟨⟨json, rest⟩, hread, h⟩ := exists_of_bind_eq_ok h
      obtain ⟨hjson, hrest⟩ := hvalue element json rest helement hread
      obtain ⟨given, rfl, hgiven, hleft⟩ := ih hrest h
      refine ⟨(key, json) :: given, rfl, ?_, hleft⟩
      simp only [membersSize_cons, memberSize]
      omega

/-! ### Values -/

theorem readValueWith_skipBlanks (join : Joining) (fuel : Nat) (nested : Option (Reader Json))
    (text : List Char) : readValueWith join fuel nested (skipBlanks text) = readValueWith join fuel nested text := by
  have hskip : skipBlanks (skipBlanks text) = skipBlanks text := List.dropWhile_idempotent _ _
  unfold readValueWith
  rw [hskip]

theorem of_readWord {word more : List Char} {value json : Json} {text left : List Char} {c : Char}
    (hintegers : Integers text) (hskip : skipBlanks text = c :: more)
    (h : (readWord word more).map (fun read => (json, read.2)) = .ok (value, left))
    (hwritten : writtenSize json = byteSize (c :: word))
    (hword : ((c :: word).all fun d => d != '"' && !opensNumber d) = true) :
    writtenSize value + byteSize left ≤ byteSize text ∧ Integers left := by
  obtain ⟨⟨⟨⟩, rest⟩, hread, h⟩ := exists_of_map_eq_ok h
  obtain ⟨rfl, rfl⟩ : json = value ∧ rest = left := Prod.mk.inj h
  have hword : ∀ d ∈ c :: word, d ≠ '"' ∧ opensNumber d = false := fun d hd => by
    simpa using List.all_eq_true.mp hword d hd
  have hsize := byteSize_skipBlanks_le text
  have hskipped := hintegers.skipBlanks
  rw [hskip, eq_of_readWord hread, ← List.cons_append] at hsize hskipped
  rw [byteSize_append] at hsize
  exact ⟨by omega, hskipped.of_append hword⟩

theorem of_readNumber {join : Joining} {fuel : Nat} {nested : Option (Reader Json)} {text more left : List Char}
    {value : Json} {c : Char} (hintegers : Integers text) (hskip : skipBlanks text = c :: more)
    (hopens : opensNumber c = true) (h : readValueWith join fuel nested text = .ok (value, left)) :
    writtenSize value + byteSize left ≤ byteSize text ∧ Integers left := by
  have hsize := byteSize_skipBlanks_le text
  have hskipped := hintegers.skipBlanks
  rw [hskip] at hsize hskipped
  obtain ⟨n, fits, rest, hsource, hends, hrest⟩ := hskipped.exists_integer hopens
  rw [← readValueWith_skipBlanks, hskip, hsource, readValueWith_integer join fuel nested fits hends] at h
  obtain ⟨rfl, rfl⟩ := Prod.mk.inj (Except.ok.inj h)
  rw [hsource, byteSize_append] at hsize
  rw [writtenSize, (Source.writes_integer fits).written, List.append_nil]
  exact ⟨hsize, hrest⟩

theorem of_readText {join : Joining} {fuel : Nat} {nested : Option (Reader Json)} {text rest left : List Char}
    {value : Json} (hintegers : Integers text) (hskip : skipBlanks text = '"' :: rest)
    (h : readValueWith join fuel nested text = .ok (value, left)) :
    writtenSize value + byteSize left ≤ byteSize text ∧ Integers left := by
  have hsize := byteSize_skipBlanks_le text
  have hskipped := hintegers.skipBlanks
  unfold readValueWith at h
  rw [hskip] at h
  obtain ⟨⟨string, rest'⟩, hread, h⟩ := exists_of_map_eq_ok h
  obtain ⟨rfl, rfl⟩ := Prod.mk.inj h
  rw [hskip] at hskipped hsize
  obtain ⟨hstring, hleft⟩ := of_readString hskipped hread
  have hquote : '"'.utf8Size = 1 := rfl
  rw [byteSize_cons] at hsize
  rw [writtenSize, compactOnto]
  exact ⟨by omega, hleft⟩

theorem of_readArray {join : Joining} {reader : Reader Json} (hreader : Shrinks reader) {fuel : Nat}
    {text rest left : List Char} {value : Json} (hintegers : Integers text) (hskip : skipBlanks text = '[' :: rest)
    (h : readValueWith join fuel (some reader) text = .ok (value, left)) :
    writtenSize value + byteSize left ≤ byteSize text ∧ Integers left := by
  obtain ⟨hopen, hrest⟩ := of_skipBlanks_cons hintegers hskip (by decide) (by decide)
  unfold readValueWith at h
  rw [hskip] at h
  obtain ⟨⟨elements, behind⟩, hread, h⟩ := exists_of_bind_eq_ok h
  obtain ⟨left', hend, h⟩ := exists_of_bind_eq_ok h
  obtain ⟨rfl, rfl⟩ := Prod.mk.inj (Except.ok.inj h)
  obtain ⟨more, rfl, hmore, hbehind⟩ := of_readElements hreader hrest hread
  obtain ⟨hclose, hleft⟩ := of_endArray hbehind hend
  rw [writtenSize_array]
  exact ⟨by omega, hleft⟩

theorem of_readObject {reader : Reader Json} (hreader : Shrinks reader) {fuel : Nat} {text rest left : List Char}
    {value : Json} (hintegers : Integers text) (hskip : skipBlanks text = '\x7b' :: rest)
    (h : readValueWith Members.put fuel (some reader) text = .ok (value, left)) :
    writtenSize value + byteSize left ≤ byteSize text ∧ Integers left := by
  obtain ⟨hopen, hrest⟩ := of_skipBlanks_cons hintegers hskip (by decide) (by decide)
  unfold readValueWith at h
  rw [hskip] at h
  obtain ⟨⟨members, behind⟩, hread, h⟩ := exists_of_bind_eq_ok h
  obtain ⟨left', hend, h⟩ := exists_of_bind_eq_ok h
  obtain ⟨rfl, rfl⟩ := Prod.mk.inj (Except.ok.inj h)
  obtain ⟨given, rfl, hgiven, hbehind⟩ := of_readMembers hreader hrest hread
  obtain ⟨hclose, hleft⟩ := of_endObject hbehind hend
  have hsettle := membersSize_settle_le given
  rw [Members.foldl_put, writtenSize_object]
  exact ⟨by omega, hleft⟩

theorem shrinks_readValueWith (fuel : Nat) {nested : Option (Reader Json)}
    (hnested : ∀ reader ∈ nested, Shrinks reader) : Shrinks (readValueWith Members.put fuel nested) := by
  intro text value left hintegers h
  have hwhole := h
  unfold readValueWith at h
  split at h
  · cases h
  · rename_i hskip
    exact of_readWord hintegers hskip h rfl rfl
  · rename_i hskip
    exact of_readWord hintegers hskip h rfl rfl
  · rename_i hskip
    exact of_readWord hintegers hskip h rfl rfl
  · rename_i hskip
    exact of_readNumber hintegers hskip rfl hwhole
  · rename_i hskip
    exact of_readText hintegers hskip hwhole
  · rename_i hskip
    split at h
    · cases h
    · exact of_readArray (hnested _ rfl) hintegers hskip hwhole
  · rename_i hskip
    split at h
    · cases h
    · exact of_readObject (hnested _ rfl) hintegers hskip hwhole
  · rename_i c rest _ _ _ _ _ _ _ hskip
    split at h
    · rename_i hdigit
      exact of_readNumber hintegers hskip (by rw [opensNumber, hdigit, Bool.true_or]) hwhole
    · cases h

theorem shrinks_readValue (fuel depth : Nat) : Shrinks (readValue Members.put fuel depth) := by
  induction depth with
  | zero => exact shrinks_readValueWith fuel nofun
  | succ depth ih =>
    apply shrinks_readValueWith
    intro reader hreader
    obtain rfl := Option.some.inj hreader
    exact ih

/-- The same JSON without blanks has no more bytes, if all numbers are integers that fit machine words. -/
theorem byteSize_minify_le {text minified : List Char} (hintegers : Integers text)
    (h : Data.minify text = .ok minified) : byteSize minified ≤ byteSize text := by
  unfold Data.minify parseChars readAll at h
  obtain ⟨value, hvalue, rfl⟩ := exists_of_map_eq_ok h
  split at hvalue
  · cases hvalue
  · rename_i json rest hread
    split at hvalue
    · cases hvalue
    · obtain rfl := Except.ok.inj hvalue
      have hsize := (shrinks_readValue _ depthLimit text json rest hintegers hread).1
      unfold writtenSize at hsize
      omega

end Minifier.Json
