import Minifier.Style
import Minifier.Proofs.Pattern.Taken
import Minifier.Proofs.Rule.Cuts
import Mathlib.Data.List.TakeWhile

/-!
Zeros with units. A zero loses its unit between two separators, and the rule takes both along. So one pass bares only
every other one of several zeros that share separators, and a second pass the others, which then have nothing but
bare zeros beside them. No third pass changes anything.
-/

namespace Minifier

open Pattern

namespace Rule

variable {rule : Rule} {text : List Char}

/-! ### Running a rule again -/

theorem repeated_of_once_eq (h : rule.once text = text) (passes : Nat) : rule.repeated passes text = text := by
  induction passes with
  | zero => rfl
  | succ passes ih => simp only [repeated, h, if_true]

/-- Where the third pass changes nothing, it does not matter how many passes may come behind the second. -/
theorem repeated_add_two (h : rule.once (rule.once (rule.once text)) = rule.once (rule.once text)) (passes : Nat) :
    rule.repeated (passes + 2) text = rule.once (rule.once text) := by
  by_cases hfirst : rule.once text = text
  · rw [repeated_of_once_eq hfirst, hfirst, hfirst]
  · rw [repeated]
    simp only [if_neg hfirst]
    rw [repeated]
    split
    · rfl
    · exact repeated_of_once_eq h passes

/-- Where every match gives way to something shorter, a search that leaves the length finds nothing. -/
theorem findFrom_eq_none_of_segmented {pattern : Pattern} {replace : Match → List Char}
    (hshorter : ∀ {index prev rest found}, pattern.matchAt index prev rest = some found →
      (replace found).length < found.text.length)
    {index : Nat} {prev : Option Char} {segments : List Segment} (h : pattern.Segmented index prev text segments) :
    (segments.flatMap (Segment.replaced replace)).length ≤ text.length ∧
      ((segments.flatMap (Segment.replaced replace)).length = text.length →
        pattern.findFrom index prev text = none) := by
  have hne : ∀ {index prev rest found}, pattern.matchAt index prev rest = some found → found.text ≠ [] :=
    fun hfound hnil => absurd (hshorter hfound) (by simp [hnil])
  induction h with
  | @done index prev =>
    refine ⟨Nat.le_refl _, fun _ => Option.eq_none_iff_forall_ne_some.mpr fun found hfound => ?_⟩
    obtain ⟨behind, parts, htext, -⟩ := Match.exists_takes (show pattern.matchAt index prev [] = some found from hfound)
    exact hne hfound (List.append_eq_nil_iff.mp htext.symm).1
  | @plain index prev c rest segments hempty hrest ih =>
    have hnone : pattern.matchAt index prev (c :: rest) = none :=
      Option.eq_none_iff_forall_ne_some.mpr fun found hfound => hne hfound (hempty found hfound)
    rw [List.flatMap_cons, Segment.replaced, List.singleton_append, List.length_cons, List.length_cons, findFrom,
      hnone]
    exact ⟨Nat.succ_le_succ ih.1, fun hlength => ih.2 (Nat.succ.inj hlength)⟩
  | @hit index prev text rest found segments hfound htext hrest ih =>
    have hless := hshorter hfound
    simp only [htext, List.flatMap_cons, Segment.replaced, List.length_append]
    exact ⟨by omega, fun hlength => absurd hlength (by omega)⟩

theorem occursIn_of_once_eq
    (hshorter : ∀ {index prev rest found}, rule.pattern.matchAt index prev rest = some found →
      (rule.replace found).length < found.text.length)
    (h : rule.once text = text) : rule.occursIn text = false := by
  have hsearch := findFrom_eq_none_of_segmented hshorter (segments_segmented rule.pattern text)
  have hlength : ((rule.pattern.segments text).flatMap (Segment.replaced rule.replace)).length = text.length :=
    congrArg List.length h
  rw [occursIn, Pattern.occursIn, find?, hsearch.2 hlength]
  rfl

end Rule

namespace Style

variable {prev : Option Char} {c : Char} {text taken behind rest zero : List Char}

/-! ### What the rule takes -/

/-- What stands before a zero that loses its unit. -/
def opens (c : Char) : Bool := Text.isBlank c || c == ':' || c == ',' || c == '('

/-- What stands behind a zero that loses its unit, unless the text ends there. -/
def closes (c : Char) : Bool :=
  Text.isBlank c || c == ';' || c == ',' || c == ')' || c == '\x7d' || c == '!'

def separates (c : Char) : Bool := opens c || closes c

theorem opens_of_isBlank (h : Text.isBlank c = true) : opens c = true := by simp [opens, h]

theorem closes_of_isBlank (h : Text.isBlank c = true) : closes c = true := by simp [closes, h]

def isUnit (text : List Char) : Bool := (units.map String.toList).contains text

/-- Whether a text is a zero with a unit. It may have decimal places, of which none counts. -/
def isZeroLength : List Char → Bool
  | '0' :: '.' :: '0' :: rest => isUnit (rest.dropWhile (· == '0'))
  | '0' :: rest => isUnit rest
  | _ => false

theorem isUnit_iff : isUnit text = true ↔ ∃ unit ∈ units, unit.toList = text := by
  rw [isUnit, List.contains_iff_mem, List.mem_map]

/-- The pattern for what stands between the separators. -/
theorem isZeroLength_iff : isZeroLength zero = true ↔
    ∃ places unit, zero = '0' :: (places ++ unit.toList) ∧ unit ∈ units ∧
      (places = [] ∨ ∃ zeros, places = '.' :: zeros ∧ zeros ≠ [] ∧ ∀ c ∈ zeros, c = '0') := by
  constructor
  · intro h
    unfold isZeroLength at h
    split at h
    · rename_i rest
      obtain ⟨unit, hunit, hrest⟩ := isUnit_iff.mp h
      refine ⟨'.' :: '0' :: rest.takeWhile (· == '0'), unit, ?_, hunit, Or.inr ⟨_, rfl, List.cons_ne_nil _ _, ?_⟩⟩
      · rw [hrest, List.cons_append, List.cons_append, List.takeWhile_append_dropWhile]
      · exact List.forall_mem_cons.mpr ⟨rfl, fun c hc => beq_iff_eq.mp (List.mem_takeWhile_imp (p := (· == '0')) hc)⟩
    · obtain ⟨unit, hunit, rfl⟩ := isUnit_iff.mp h
      exact ⟨[], unit, rfl, hunit, Or.inl rfl⟩
    · cases h
  · rintro ⟨places, unit, rfl, hunit, rfl | ⟨zeros, rfl, hne, hall⟩⟩
    · have hunits : units.all (fun unit => isZeroLength ('0' :: unit.toList)) = true := by decide
      exact List.all_eq_true.mp hunits unit hunit
    · obtain ⟨d, zeros, rfl⟩ := List.exists_cons_of_ne_nil hne
      obtain ⟨rfl, hall⟩ := List.forall_mem_cons.mp hall
      have hheads : units.all (fun unit => !unit.toList.head?.any (· == '0')) = true := by decide
      have hhead : unit.toList.head?.any (· == '0') = false := by simpa using List.all_eq_true.mp hheads unit hunit
      have hstop := (takeWhile_append_of_head (fun c hc => beq_iff_eq.mpr (hall c hc)) hhead).2
      have hspelled : isUnit unit.toList = true := isUnit_iff.mpr ⟨unit, hunit, rfl⟩
      rw [← hstop] at hspelled
      exact hspelled

/-- No separator is part of a zero. -/
theorem not_separates_of_isZeroLength (h : isZeroLength zero = true) : ∀ c ∈ zero, separates c = false := by
  obtain ⟨places, unit, rfl, hunit, hplaces⟩ := isZeroLength_iff.mp h
  have hzero : separates '0' = false := by decide
  have hunits : units.all (fun unit => !unit.toList.any separates) = true := by decide
  have hspelled : unit.toList.any separates = false := by simpa using List.all_eq_true.mp hunits unit hunit
  refine List.forall_mem_cons.mpr ⟨hzero, List.forall_mem_append.mpr ⟨?_, fun c hc => ?_⟩⟩
  · rcases hplaces with rfl | ⟨zeros, rfl, -, hzeros⟩
    · exact List.forall_mem_nil _
    · exact List.forall_mem_cons.mpr ⟨by decide, fun c hc => hzeros c hc ▸ hzero⟩
  · exact Bool.eq_false_iff.mpr (List.any_eq_false.mp hspelled c hc)

theorem takes_zeroUnits {parts : Parts} : zeroUnits.pattern.Takes prev taken behind parts ↔
    ∃ c zero last, taken = c :: (zero ++ last) ∧ opens c = true ∧ isZeroLength zero = true ∧
      ((∃ d, last = [d] ∧ closes d = true) ∨ last = [] ∧ behind = []) ∧
      parts = [(.part 2, last), (.part 1, [c])] := by
  constructor
  · rintro ⟨_, last, _, _, ⟨_, unit, _, _, ⟨_, places, _, _, ⟨first, _, _, _, ⟨_, hfirst, rfl⟩, hzero, rfl, rfl⟩,
      hplaces, rfl, rfl⟩, hunit, rfl, rfl⟩, ⟨_, hlast, rfl⟩, rfl, rfl⟩
    obtain ⟨rfl, rfl⟩ := (takes_char '0').mp hzero
    obtain ⟨⟨c, hc, rfl⟩, rfl⟩ := (takes_one _).mp hfirst
    obtain ⟨⟨unit, hmem, rfl⟩, rfl⟩ := (takes_words units).mp hunit
    obtain rfl := hplaces.parts_eq_nil rfl
    obtain rfl := hlast.parts_eq_nil rfl
    refine ⟨c, '0' :: (places ++ unit.toList), last, by simp, hc, ?_, ?_, rfl⟩
    · refine isZeroLength_iff.mpr ⟨places, unit, rfl, hmem, ?_⟩
      rcases hplaces with ⟨_, zeros, _, _, hpoint, hzeros, rfl, -⟩ | ⟨rfl, -⟩
      · obtain ⟨rfl, -⟩ := (takes_char '.').mp hpoint
        obtain ⟨hne, hall, -⟩ := (takes_run1 _).mp hzeros
        exact Or.inr ⟨zeros, rfl, hne, fun c hc => beq_iff_eq.mp (hall c hc)⟩
      · exact Or.inl rfl
    · rcases hlast with ⟨⟨d, hd, rfl⟩, -⟩ | ⟨hend, rfl, -⟩
      · exact Or.inl ⟨d, rfl, hd⟩
      · exact Or.inr ⟨rfl, Anchor.holdsBetween_textEnd.mp hend⟩
  · rintro ⟨c, zero, last, rfl, hc, hzero, hlast, rfl⟩
    obtain ⟨places, unit, rfl, hmem, hplaces⟩ := isZeroLength_iff.mp hzero
    refine ⟨c :: '0' :: (places ++ unit.toList), last, [(.part 1, [c])], [(.part 2, last)],
      ⟨c :: '0' :: places, unit.toList, [(.part 1, [c])], [],
        ⟨[c, '0'], places, [(.part 1, [c])], [], ⟨[c], ['0'], [(.part 1, [c])], [], ?_, ?_, rfl, rfl⟩, ?_, rfl, rfl⟩,
        ?_, rfl, rfl⟩, ⟨[], ?_, rfl⟩, by simp, rfl⟩
    · exact ⟨[], ⟨⟨c, hc, rfl⟩, rfl⟩, rfl⟩
    · exact (takes_char '0').mpr ⟨rfl, rfl⟩
    · rcases hplaces with rfl | ⟨zeros, rfl, hne, hall⟩
      · exact Or.inr ⟨rfl, rfl⟩
      · exact Or.inl ⟨['.'], zeros, [], [], (takes_char '.').mpr ⟨rfl, rfl⟩,
          (takes_run1 _).mpr ⟨hne, fun c hc => beq_iff_eq.mpr (hall c hc), rfl⟩, rfl, rfl⟩
    · exact (takes_words units).mpr ⟨⟨unit, hmem, rfl⟩, rfl⟩
    · rcases hlast with ⟨d, rfl, hd⟩ | ⟨rfl, rfl⟩
      · exact Or.inl ⟨⟨d, hd, rfl⟩, rfl⟩
      · exact Or.inr ⟨Anchor.holdsBetween_textEnd.mpr rfl, rfl, rfl⟩

/-- A zero is made of word characters, points and percent signs. -/
theorem isWord_of_isZeroLength (h : isZeroLength zero = true) :
    ∀ c ∈ zero, Text.isWord c = true ∨ c = '.' ∨ c = '%' := by
  obtain ⟨places, unit, rfl, hunit, hplaces⟩ := isZeroLength_iff.mp h
  have hzero : Text.isWord '0' = true := by decide
  have hunits : units.all (fun unit => unit.toList.all fun c => Text.isWord c || c == '.' || c == '%') = true := by
    decide
  refine List.forall_mem_cons.mpr ⟨Or.inl hzero, List.forall_mem_append.mpr ⟨?_, fun c hc => ?_⟩⟩
  · rcases hplaces with rfl | ⟨zeros, rfl, -, hzeros⟩
    · exact List.forall_mem_nil _
    · exact List.forall_mem_cons.mpr ⟨Or.inr (Or.inl rfl), fun c hc => Or.inl (hzeros c hc ▸ hzero)⟩
  · simpa [or_assoc] using List.all_eq_true.mp (List.all_eq_true.mp hunits unit hunit) c hc

/-- The characters of a piece between two separators. -/
def inner (c : Char) : Bool := !separates c

theorem not_inner_of_isBlank (h : Text.isBlank c = true) : inner c = false := by
  simp [inner, separates, opens_of_isBlank h]

theorem inner_of_isZeroLength (h : isZeroLength zero = true) : ∀ c ∈ zero, inner c = true := by
  intro c hc
  rw [inner, not_separates_of_isZeroLength h c hc]
  rfl

/-- Whether a zero may lose its unit before a text. -/
def closed (behind : List Char) : Bool := behind.head?.all closes

theorem not_inner_of_closed (h : closed rest = true) : rest.head?.any inner = false := by
  cases rest with
  | nil => rfl
  | cons d rest =>
    have hd : closes d = true := h
    simp [inner, separates, hd]

/-- The rule finds a zero with a unit that is a whole piece, with the separators around it. -/
theorem taken?_zeroUnits {piece : List Char} (hpiece : ∀ d ∈ piece, inner d = true)
    (hrest : rest.head?.any inner = false) :
    zeroUnits.pattern.taken? prev (c :: (piece ++ rest)) =
      if opens c && isZeroLength piece && closed rest then some (c :: (piece ++ rest.take 1)) else none := by
  have hfound : ∀ taken, zeroUnits.pattern.taken? prev (c :: (piece ++ rest)) = some taken →
      (opens c && isZeroLength piece && closed rest) = true ∧ taken = c :: (piece ++ rest.take 1) := by
    intro taken htaken
    obtain ⟨behind, parts, htext, htakes⟩ := exists_takes_of_taken? htaken
    obtain ⟨d, zero, last, rfl, hd, hzero, hlast, -⟩ := takes_zeroUnits.mp htakes
    simp only [List.cons_append, List.append_assoc, List.cons.injEq] at htext
    obtain ⟨rfl, htext⟩ := htext
    have hclosed : closed (last ++ behind) = true := by
      rcases hlast with ⟨e, rfl, he⟩ | ⟨rfl, rfl⟩
      · exact he
      · rfl
    -- Both pieces reach up to the next separator.
    have hinner := takeWhile_append_of_head (inner_of_isZeroLength hzero) (not_inner_of_closed hclosed)
    rw [← htext, (takeWhile_append_of_head hpiece hrest).1, (takeWhile_append_of_head hpiece hrest).2] at hinner
    obtain ⟨rfl, rfl⟩ := hinner
    refine ⟨by rw [hd, hzero, hclosed]; rfl, ?_⟩
    rcases hlast with ⟨e, rfl, -⟩ | ⟨rfl, rfl⟩
    · rfl
    · rfl
  by_cases hcondition : (opens c && isZeroLength piece && closed rest) = true
  · rw [if_pos hcondition]
    simp only [Bool.and_eq_true] at hcondition
    obtain ⟨⟨hc, hzero⟩, hclosed⟩ := hcondition
    have hlast : (∃ d, rest.take 1 = [d] ∧ closes d = true) ∨ rest.take 1 = [] ∧ rest.drop 1 = [] := by
      cases rest with
      | nil => exact Or.inr ⟨rfl, rfl⟩
      | cons d rest => exact Or.inl ⟨d, rfl, hclosed⟩
    have hsome : (zeroUnits.pattern.taken? prev (c :: (piece ++ rest))).isSome = true := by
      rw [taken?, Option.isSome_map, matchAt_isSome_iff]
      refine ⟨_, rest.drop 1, _, ?_, takes_zeroUnits.mpr ⟨c, piece, _, rfl, hc, hzero, hlast, rfl⟩⟩
      rw [List.cons_append, List.append_assoc, List.take_append_drop]
    obtain ⟨taken, htaken⟩ := Option.isSome_iff_exists.mp hsome
    rw [htaken, (hfound taken htaken).2]
  · rw [if_neg hcondition, Option.eq_none_iff_forall_ne_some]
    exact fun taken htaken => hcondition (hfound taken htaken).1

/-! ### One pass -/

/-- What becomes of a text that is gone through piece by piece. Of the piece that is being read stands a beginning
already, and it may be a zero if the separator before it opens one. Where `shared` does not hold, a separator behind a
bare zero opens none. -/
def bare (shared : Bool) : (opened : Bool) → (piece : List Char) → List Char → List Char
  | opened, piece, [] => if opened && isZeroLength piece then ['0'] else piece
  | opened, piece, c :: rest =>
    if inner c then bare shared opened (piece ++ [c]) rest
    else if opened && isZeroLength piece && closes c then '0' :: c :: bare shared (shared && opens c) [] rest
    else piece ++ c :: bare shared (opens c) [] rest

/-- What the rule leaves of a match. -/
def bareMatch (taken : List Char) : List Char := taken.take 1 ++ '0' :: (taken.drop 1).filter closes

theorem taken?_zeroUnits_of_not_opens (hc : opens c = false) :
    zeroUnits.pattern.taken? prev (c :: text) = none := by
  have hrest : (text.dropWhile inner).head?.any inner = false := any_head?_dropWhile inner text
  rw [← List.takeWhile_append_dropWhile (p := inner) (l := text),
    taken?_zeroUnits (fun d hd => List.mem_takeWhile_imp hd) hrest, hc]
  rfl

theorem not_opens_of_inner (h : inner c = true) : opens c = false := by
  simp only [inner, separates, Bool.not_eq_true', Bool.or_eq_false_iff] at h
  exact h.1

theorem not_closes_of_inner (h : inner c = true) : closes c = false := by
  simp only [inner, separates, Bool.not_eq_true', Bool.or_eq_false_iff] at h
  exact h.2

theorem bareMatch_eq {last : List Char} (hzero : ∀ d ∈ zero, inner d = true) (hlast : ∀ d ∈ last, closes d = true) :
    bareMatch (c :: (zero ++ last)) = c :: '0' :: last := by
  have hnone : zero.filter closes = [] := List.filter_eq_nil_iff.mpr fun d hd => by
    rw [not_closes_of_inner (hzero d hd)]
    exact Bool.false_ne_true
  simp only [bareMatch, List.take_succ_cons, List.take_zero, List.drop_succ_cons, List.drop_zero, List.filter_append,
    hnone, List.filter_eq_self.mpr hlast, List.nil_append, List.cons_append]

/-- The rule finds nothing that begins in a piece. -/
theorem rewrites_piece {new : List Char → List Char} {piece out : List Char} (hpiece : ∀ d ∈ piece, inner d = true)
    (h : ∀ prev, zeroUnits.pattern.Rewrites new prev rest out) (prev : Option Char) :
    zeroUnits.pattern.Rewrites new prev (piece ++ rest) (piece ++ out) := by
  induction piece generalizing prev with
  | nil => exact h prev
  | cons d piece ih =>
    obtain ⟨hd, hpiece⟩ := List.forall_mem_cons.mp hpiece
    exact .plain (taken?_zeroUnits_of_not_opens (not_opens_of_inner hd)) (ih hpiece _)

theorem inner_concat {piece : List Char} (hpiece : ∀ d ∈ piece, inner d = true) (hc : inner c = true) :
    ∀ d ∈ piece ++ [c], inner d = true :=
  List.forall_mem_append.mpr ⟨hpiece, List.forall_mem_singleton.mpr hc⟩

/-- A zero with a unit between two separators is bared, and the search goes on behind the second of them. -/
theorem rewrites_zero {out : List Char} (hc : opens c = true) (hzero : isZeroLength zero = true)
    (hclosed : closed rest = true) (h : ∀ prev, zeroUnits.pattern.Rewrites bareMatch prev (rest.drop 1) out)
    (prev : Option Char) :
    zeroUnits.pattern.Rewrites bareMatch prev (c :: (zero ++ rest)) (c :: '0' :: (rest.take 1 ++ out)) := by
  have hinner := inner_of_isZeroLength hzero
  have htaken : zeroUnits.pattern.taken? prev (c :: (zero ++ rest)) = some (c :: (zero ++ rest.take 1)) := by
    rw [taken?_zeroUnits hinner (not_inner_of_closed hclosed), hc, hzero, hclosed]
    rfl
  have hlast : ∀ d ∈ rest.take 1, closes d = true := by
    cases rest with
    | nil => exact List.forall_mem_nil _
    | cons d rest => exact List.forall_mem_singleton.mpr hclosed
  have hsplit : c :: (zero ++ rest) = c :: (zero ++ rest.take 1) ++ rest.drop 1 := by
    rw [List.cons_append, List.append_assoc, List.take_append_drop]
  have hhit := Rewrites.hit htaken hsplit (List.cons_ne_nil _ _) (h _)
  rwa [bareMatch_eq hinner hlast] at hhit

/-- Any other piece is passed over with the separator before it. -/
theorem rewrites_other {piece out : List Char} (hpiece : ∀ d ∈ piece, inner d = true)
    (hrest : rest.head?.any inner = false) (hother : (isZeroLength piece && closed rest) = false)
    (h : ∀ prev, zeroUnits.pattern.Rewrites bareMatch prev (piece ++ rest) out) (prev : Option Char) :
    zeroUnits.pattern.Rewrites bareMatch prev (c :: (piece ++ rest)) (c :: out) := by
  have hnone : zeroUnits.pattern.taken? prev (c :: (piece ++ rest)) = none := by
    rw [taken?_zeroUnits hpiece hrest, Bool.and_assoc, hother, Bool.and_false]
    rfl
  exact .plain hnone (h _)

/-- A separator that is in no match opens the next piece if it can. -/
theorem rewrites_separator {piece : List Char} {d : Char} (hpiece : ∀ e ∈ piece, inner e = true)
    (hclosed : ∀ prev, zeroUnits.pattern.Rewrites bareMatch prev text (bare false false [] text))
    (hopened : ∀ prev c, opens c = true →
      zeroUnits.pattern.Rewrites bareMatch prev (c :: text) (c :: bare false true [] text)) (prev : Option Char) :
    zeroUnits.pattern.Rewrites bareMatch prev (piece ++ d :: text) (piece ++ d :: bare false (opens d) [] text) := by
  refine rewrites_piece hpiece (fun prev => ?_) prev
  by_cases hopens : opens d = true
  · rw [hopens]
    exact hopened prev d hopens
  · rw [Bool.eq_false_iff.mpr hopens]
    exact .plain (taken?_zeroUnits_of_not_opens (Bool.eq_false_iff.mpr hopens)) (hclosed _)

/-- A pass goes through a text piece by piece, whatever stands before it. -/
theorem rewrites_zeroUnits {piece : List Char} (hpiece : ∀ d ∈ piece, inner d = true) (text : List Char) :
    (∀ prev, zeroUnits.pattern.Rewrites bareMatch prev (piece ++ text) (bare false false piece text)) ∧
      ∀ prev c, opens c = true →
        zeroUnits.pattern.Rewrites bareMatch prev (c :: (piece ++ text)) (c :: bare false true piece text) := by
  induction text generalizing piece with
  | nil =>
    have hend : ∀ prev, zeroUnits.pattern.Rewrites bareMatch prev (piece ++ []) piece := by
      simpa using rewrites_piece hpiece fun _ => .nil
    refine ⟨hend, fun prev c hc => ?_⟩
    rw [bare, Bool.true_and]
    by_cases hzero : isZeroLength piece = true
    · rw [if_pos hzero]
      exact rewrites_zero hc hzero rfl (fun _ => .nil) prev
    · rw [if_neg hzero]
      exact rewrites_other hpiece rfl (by rw [Bool.eq_false_iff.mpr hzero, Bool.false_and]) hend prev
  | cons d text ih =>
    by_cases hd : inner d = true
    · obtain ⟨hclosed, hopened⟩ := ih (inner_concat hpiece hd)
      simp only [List.append_assoc, List.singleton_append] at hclosed hopened
      simp only [bare, if_pos hd]
      exact ⟨hclosed, hopened⟩
    · obtain ⟨hclosed, hopened⟩ := ih (List.forall_mem_nil _)
      have hrest : (d :: text).head?.any inner = false := Bool.eq_false_iff.mpr hd
      have hsep := @rewrites_separator text piece d hpiece hclosed hopened
      simp only [bare, if_neg hd, Bool.false_and, Bool.true_and, Bool.false_eq_true, if_false]
      refine ⟨hsep, fun prev c hc => ?_⟩
      split
      · rename_i hzero
        obtain ⟨hzero, hcloses⟩ := Bool.and_eq_true_iff.mp hzero
        exact @rewrites_zero c (d :: text) piece _ hc hzero hcloses hclosed prev
      · rename_i hother
        exact rewrites_other hpiece hrest (Bool.eq_false_iff.mpr hother) hsep prev

/-- What stands in the place of a match is shorter, and it depends on the text of the match only. -/
theorem replace_zeroUnits {index : Nat} {found : Match} (h : zeroUnits.pattern.matchAt index prev text = some found) :
    zeroUnits.replace found = bareMatch found.text ∧ (zeroUnits.replace found).length < found.text.length := by
  obtain ⟨behind, parts, -, htakes, hlabels⟩ := Match.exists_takes h
  obtain ⟨c, zero, last, htext, hc, hzero, hlast, rfl⟩ := takes_zeroUnits.mp htakes
  have hbefore : found.part 1 = [c] := found.part_eq_getD hlabels 1
  have hbehind : found.part 2 = last := found.part_eq_getD hlabels 2
  have hreplace : zeroUnits.replace found = c :: '0' :: last := by
    have hparts : zeroUnits.replace found = found.part 1 ++ '0' :: found.part 2 := rfl
    rw [hparts, hbefore, hbehind]
    rfl
  have hcloses : ∀ d ∈ last, closes d = true := by
    rcases hlast with ⟨d, rfl, hd⟩ | ⟨rfl, -⟩
    · exact List.forall_mem_singleton.mpr hd
    · exact List.forall_mem_nil _
  have hlength : 1 < zero.length := by
    obtain ⟨places, unit, rfl, hunit, -⟩ := isZeroLength_iff.mp hzero
    have hunits : units.all (fun unit => 0 < unit.toList.length) = true := by decide
    have hspelled : 0 < unit.toList.length := by simpa using List.all_eq_true.mp hunits unit hunit
    rw [List.length_cons, List.length_append]
    omega
  refine ⟨?_, ?_⟩
  · rw [htext, hreplace, bareMatch_eq (inner_of_isZeroLength hzero) hcloses]
  · rw [htext, hreplace]
    simp only [List.length_cons, List.length_append]
    omega

theorem once_zeroUnits (text : List Char) : zeroUnits.once text = bare false false [] text := by
  have hrewrites := (segments_segmented zeroUnits.pattern text).rewrites (c := '\x7b') (by decide)
    (by decide) fun hfound => (replace_zeroUnits hfound).1
  exact hrewrites.unique ((rewrites_zeroUnits (List.forall_mem_nil _) text).1 none)

/-! ### Two passes -/

variable {shared opened : Bool} {piece : List Char}

theorem bare_append {more : List Char} (hmore : ∀ d ∈ more, inner d = true) :
    bare shared opened piece (more ++ rest) = bare shared opened (piece ++ more) rest := by
  induction more generalizing piece with
  | nil => simp
  | cons d more ih =>
    obtain ⟨hd, hmore⟩ := List.forall_mem_cons.mp hmore
    rw [List.cons_append, bare, if_pos hd, ih hmore, List.append_assoc, List.singleton_append]

/-- A piece that is left is read once more. -/
theorem bare_piece (hpiece : ∀ d ∈ piece, inner d = true) :
    bare shared opened [] (piece ++ rest) = bare shared opened piece rest :=
  bare_append hpiece

theorem bare_end : bare shared opened piece [] = if opened && isZeroLength piece then ['0'] else piece := rfl

theorem bare_separator (hc : inner c = false) : bare shared opened piece (c :: rest) =
    if opened && (isZeroLength piece && closes c) then '0' :: c :: bare shared (shared && opens c) [] rest
    else piece ++ c :: bare shared (opens c) [] rest := by
  rw [bare, if_neg (Bool.eq_false_iff.mp hc), Bool.and_assoc]

/-- A bare zero has no unit left to lose. -/
theorem bare_zero (hc : inner c = false) :
    bare shared opened [] ('0' :: c :: rest) = '0' :: c :: bare shared (opens c) [] rest := by
  have hzero : ∀ d ∈ ['0'], inner d = true := List.forall_mem_singleton.mpr (by decide)
  have hbare : isZeroLength ['0'] = false := rfl
  rw [← List.singleton_append, bare_piece hzero, bare_separator hc, hbare, Bool.false_and, Bool.and_false]
  rfl

theorem bare_end_zero : bare shared opened [] ['0'] = ['0'] := by
  have hzero : ∀ d ∈ ['0'], inner d = true := List.forall_mem_singleton.mpr (by decide)
  have hbare : isZeroLength ['0'] = false := rfl
  rw [← List.append_nil ['0'], bare_piece hzero, bare_end, hbare, Bool.and_false]
  rfl

/-- A second pass bares the zeros that it comes upon open and that the first did not. -/
theorem bare_bare (hpiece : ∀ d ∈ piece, inner d = true) (first second : Bool) (text : List Char) :
    bare false second [] (bare false first piece text) = bare true (first || second) piece text := by
  induction text generalizing piece first second with
  | nil =>
    have hread : bare false second [] piece = bare false second piece [] := by
      rw [← bare_piece hpiece, List.append_nil]
    rw [bare_end, bare_end]
    by_cases hzero : isZeroLength piece = true
    · cases first with
      | false => simp [hread, bare_end]
      | true => simp [hzero, bare_end_zero]
    · simp [hzero, hread, bare_end]
  | cons c text ih =>
    by_cases hc : inner c = true
    · simp only [bare, if_pos hc]
      exact ih (inner_concat hpiece hc) first second
    · have hc := Bool.eq_false_iff.mpr hc
      have hrest : ∀ first second, bare false second [] (bare false first [] text) =
          bare true (first || second) [] text := ih (List.forall_mem_nil _)
      rw [bare_separator hc, bare_separator hc]
      by_cases hzero : (isZeroLength piece && closes c) = true
      · cases first with
        | false => simp [bare_piece hpiece, bare_separator hc, hzero, hrest]
        | true => simp [hzero, bare_zero hc, hrest]
      · simp [hzero, bare_piece hpiece, bare_separator hc, hrest]

/-- What has lost every unit that can go loses no more. -/
theorem bare_stable (hpiece : ∀ d ∈ piece, inner d = true) (opened : Bool) (text : List Char) :
    bare false opened [] (bare true opened piece text) = bare true opened piece text := by
  induction text generalizing piece opened with
  | nil =>
    rw [bare_end]
    by_cases hzero : (opened && isZeroLength piece) = true
    · rw [if_pos hzero, bare_end_zero]
    · rw [if_neg hzero, ← List.append_nil piece, bare_piece hpiece, bare_end, if_neg hzero, List.append_nil]
  | cons c text ih =>
    by_cases hc : inner c = true
    · simp only [bare, if_pos hc]
      exact ih (inner_concat hpiece hc) opened
    · have hc := Bool.eq_false_iff.mpr hc
      have hrest := ih (List.forall_mem_nil _) (opens c)
      rw [bare_separator hc]
      by_cases hzero : (opened && (isZeroLength piece && closes c)) = true
      · rw [if_pos hzero, bare_zero hc, Bool.true_and, hrest]
      · rw [if_neg hzero, bare_piece hpiece, bare_separator hc, if_neg hzero, hrest]

/-! ### All passes -/

theorem once_once_zeroUnits (text : List Char) : zeroUnits.once (zeroUnits.once text) = bare true false [] text := by
  rw [once_zeroUnits, once_zeroUnits, bare_bare (List.forall_mem_nil _), Bool.or_self]

theorem once_bare (text : List Char) : zeroUnits.once (bare true false [] text) = bare true false [] text := by
  rw [once_zeroUnits, bare_stable (List.forall_mem_nil _)]

/-- The rule takes the unit of every zero between two separators. -/
theorem apply_zeroUnits (text : List Char) : zeroUnits.apply text = bare true false [] text := by
  have hthird : zeroUnits.once (zeroUnits.once (zeroUnits.once text)) = zeroUnits.once (zeroUnits.once text) := by
    rw [once_once_zeroUnits text, once_bare]
  exact (Rule.repeated_add_two hthird 6).trans (once_once_zeroUnits text)

/-! ### Characters that are in no zero -/

/-- A piece with such a character stays, and it does not matter what stood before the piece. -/
theorem exists_bare_of_mem (hc : ∀ zero, isZeroLength zero = true → c ∉ zero) (more text : List Char) :
    ∃ behind, ∀ opened before,
      bare true opened (before ++ c :: more) text = before ++ c :: (more ++ behind) := by
  have hnone : ∀ before more, isZeroLength (before ++ c :: more) = false := fun before more =>
    Bool.eq_false_iff.mpr fun hzero => hc _ hzero (by simp)
  induction text generalizing more with
  | nil => exact ⟨[], fun opened before => by rw [bare_end, hnone, Bool.and_false, List.append_nil]; rfl⟩
  | cons d text ih =>
    by_cases hd : inner d = true
    · obtain ⟨behind, hbehind⟩ := ih (more ++ [d])
      refine ⟨d :: behind, fun opened before => ?_⟩
      rw [bare, if_pos hd, List.append_assoc, List.cons_append, hbehind, List.append_assoc, List.singleton_append]
    · refine ⟨d :: bare true (opens d) [] text, fun opened before => ?_⟩
      rw [bare_separator (Bool.eq_false_iff.mpr hd), hnone, Bool.false_and, Bool.and_false]
      exact List.append_assoc _ _ _

/-- Behind such a character the text is gone through anew. -/
theorem exists_bare_append (hc : ∀ zero, isZeroLength zero = true → c ∉ zero) (opened : Bool)
    (piece left right : List Char) : ∃ before behind, bare true opened piece (left ++ [c]) = before ++ [c] ∧
      bare true false [] (c :: right) = c :: behind ∧
      bare true opened piece (left ++ c :: right) = before ++ c :: behind := by
  induction left generalizing opened piece with
  | nil =>
    by_cases hinner : inner c = true
    · obtain ⟨behind, hbehind⟩ := exists_bare_of_mem hc [] right
      have hnone : isZeroLength (piece ++ [c]) = false := Bool.eq_false_iff.mpr fun hzero => hc _ hzero (by simp)
      refine ⟨piece, behind, ?_, ?_, ?_⟩
      · rw [List.nil_append, bare, if_pos hinner, bare_end, hnone, Bool.and_false]
        rfl
      · rw [bare, if_pos hinner]
        exact hbehind false []
      · rw [List.nil_append, bare, if_pos hinner]
        exact hbehind opened piece
    · have hinner := Bool.eq_false_iff.mpr hinner
      have hnone : isZeroLength [] = false := rfl
      have hend : bare true (opens c) [] [] = [] := by
        rw [bare_end, hnone, Bool.and_false]
        rfl
      rw [List.nil_append, List.nil_append, bare_separator hinner, bare_separator hinner, bare_separator hinner, hnone,
        Bool.true_and, hend]
      split
      · exact ⟨['0'], _, rfl, rfl, rfl⟩
      · exact ⟨piece, _, rfl, rfl, rfl⟩
  | cons d left ih =>
    simp only [List.cons_append, bare]
    split
    · exact ih _ _
    · split
      · obtain ⟨before, behind, hbefore, hbehind, hwhole⟩ := ih (true && opens d) []
        exact ⟨'0' :: d :: before, behind, by rw [hbefore]; rfl, hbehind, by rw [hwhole]; rfl⟩
      · obtain ⟨before, behind, hbefore, hbehind, hwhole⟩ := ih (opens d) []
        exact ⟨piece ++ d :: before, behind, by simp [hbefore], hbehind, by simp [hwhole]⟩

theorem cutsAt_zeroUnits (hc : ∀ zero, isZeroLength zero = true → c ∉ zero) : CutsAt zeroUnits.apply c := by
  intro left right
  simp only [apply_zeroUnits]
  exact exists_bare_append hc false [] left right

/-! ### A word between blanks -/

theorem bare_blanks {blanks : List Char} (hblanks : ∀ x ∈ blanks, Text.isBlank x = true) (opened : Bool) :
    bare true opened [] (blanks ++ rest) = blanks ++ bare true (opened || !blanks.isEmpty) [] rest := by
  induction blanks generalizing opened with
  | nil => rw [List.isEmpty_nil, Bool.not_true, Bool.or_false, List.nil_append, List.nil_append]
  | cons x blanks ih =>
    obtain ⟨hx, hblanks⟩ := List.forall_mem_cons.mp hblanks
    have hnone : isZeroLength [] = false := rfl
    rw [List.cons_append, bare_separator (not_inner_of_isBlank hx), hnone, opens_of_isBlank hx]
    simpa using ih hblanks true

theorem bare_singleton (hc : ∀ zero, isZeroLength zero = true → c ∉ zero) :
    bare true opened piece [c] = (if opened && (isZeroLength piece && closes c) then ['0'] else piece) ++ [c] := by
  by_cases hinner : inner c = true
  · have hnone : isZeroLength (piece ++ [c]) = false := Bool.eq_false_iff.mpr fun hzero => hc _ hzero (by simp)
    rw [bare, if_pos hinner, bare_end, hnone, not_closes_of_inner hinner]
    simp
  · have hnone : isZeroLength [] = false := rfl
    rw [bare_separator (Bool.eq_false_iff.mpr hinner), bare_end, bare_end, hnone]
    simp only [Bool.and_false, Bool.false_eq_true, if_false]
    split
    · rfl
    · rfl

/-- A word that only blanks part from the last character of a text. -/
theorem bare_word {blanks : List Char} (hblanks : ∀ x ∈ blanks, Text.isBlank x = true)
    (hc : ∀ zero, isZeroLength zero = true → c ∉ zero) :
    bare true opened piece (blanks ++ [c]) =
      (if opened && (isZeroLength piece && (!blanks.isEmpty || closes c)) then ['0'] else piece) ++ (blanks ++ [c]) := by
  cases blanks with
  | nil => exact bare_singleton hc
  | cons x blanks =>
    obtain ⟨hx, hblanks⟩ := List.forall_mem_cons.mp hblanks
    have hnone : isZeroLength [] = false := rfl
    have hrest : bare true true [] (blanks ++ [c]) = blanks ++ [c] := by
      rw [bare_blanks hblanks, bare_singleton hc, hnone]
      simp
    rw [List.cons_append, bare_separator (not_inner_of_isBlank hx), opens_of_isBlank hx, closes_of_isBlank hx, Bool.and_self,
      hrest]
    simp only [List.isEmpty_cons, Bool.not_false, Bool.true_or]
    split
    · rfl
    · rfl

variable {word before : List Char} {d : Char}

/-- What becomes of a word with nothing but blanks around it. It is bared if it is a zero with a unit and stands between
two separators. -/
theorem bridges_zeroUnits (hc : ∀ zero, isZeroLength zero = true → c ∉ zero)
    (hd : ∀ zero, isZeroLength zero = true → d ∉ zero) (hword : ∀ x ∈ word, inner x = true)
    (hbefore : ∀ x ∈ before, Text.isBlank x = true) (hbehind : ∀ x ∈ behind, Text.isBlank x = true) :
    Bridges zeroUnits.apply c d (before ++ (word ++ behind))
      (before ++ ((if isZeroLength word ∧ (before ≠ [] ∨ opens c = true) ∧ (behind ≠ [] ∨ closes d = true) then ['0']
        else word) ++ behind)) := by
  refine (cutsAt_zeroUnits hc).bridges (cutsAt_zeroUnits hd) ?_
  have hread : ∀ opened, bare true opened [] (word ++ (behind ++ [d])) =
      (if opened && (isZeroLength word && (!behind.isEmpty || closes d)) then ['0'] else word) ++ (behind ++ [d]) :=
    fun opened => by rw [bare_piece hword, bare_word hbehind hd]
  have hbegin : bare true false [] (c :: (before ++ (word ++ (behind ++ [d])))) = c :: (before ++
      ((if (opens c || !before.isEmpty) && (isZeroLength word && (!behind.isEmpty || closes d)) then ['0'] else word) ++
        (behind ++ [d]))) := by
    by_cases hinner : inner c = true
    · rw [bare, if_pos hinner, not_opens_of_inner hinner]
      cases before with
      | nil =>
        simp only [List.nil_append]
        rw [bare_append hword, bare_word hbehind hd]
        rfl
      | cons x before =>
        obtain ⟨hx, hbefore⟩ := List.forall_mem_cons.mp hbefore
        rw [List.cons_append, bare_separator (not_inner_of_isBlank hx), opens_of_isBlank hx, Bool.false_and,
          if_neg Bool.false_ne_true, bare_blanks hbefore, hread]
        rfl
    · rw [bare_separator (Bool.eq_false_iff.mpr hinner), Bool.false_and, if_neg Bool.false_ne_true, bare_blanks hbefore,
        hread]
      rfl
  have hcondition : ((opens c || !before.isEmpty) && (isZeroLength word && (!behind.isEmpty || closes d))) = true ↔
      isZeroLength word = true ∧ (before ≠ [] ∨ opens c = true) ∧ (behind ≠ [] ∨ closes d = true) := by
    simp only [Bool.and_eq_true, Bool.or_eq_true, Bool.not_eq_true', List.isEmpty_eq_false_iff]
    tauto
  rw [apply_zeroUnits]
  simpa only [List.append_assoc, hcondition] using hbegin

/-- However many passes the rule may make beyond the second, it ends with what two leave, and there it finds nothing
more. -/
theorem zeroUnits_stable (text : List Char) :
    (∀ passes, zeroUnits.repeated (passes + 2) text = zeroUnits.once (zeroUnits.once text)) ∧
      zeroUnits.apply text = zeroUnits.once (zeroUnits.once text) ∧
      zeroUnits.once (zeroUnits.apply text) = zeroUnits.apply text ∧
      zeroUnits.occursIn (zeroUnits.apply text) = false ∧
      zeroUnits.apply (zeroUnits.apply text) = zeroUnits.apply text := by
  have hsecond : zeroUnits.apply text = zeroUnits.once (zeroUnits.once text) := by
    rw [apply_zeroUnits, once_once_zeroUnits]
  have honce : zeroUnits.once (zeroUnits.apply text) = zeroUnits.apply text := by
    rw [apply_zeroUnits, once_bare]
  refine ⟨Rule.repeated_add_two ?_, hsecond, honce, ?_, Rule.repeated_of_once_eq honce _⟩
  · rw [← hsecond, honce]
  · exact Rule.occursIn_of_once_eq (fun hfound => (replace_zeroUnits hfound).2) honce

/-- One pass would leave the unit of the second zero. -/
example : zeroUnits.once "a:0px 0px 0px".toList = "a:0 0px 0".toList ∧
    zeroUnits.apply "a:0px 0px 0px".toList = "a:0 0 0".toList := by decide +kernel

end Style

end Minifier
