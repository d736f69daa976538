import Mathlib.Logic.Relation
import Minifier.Proofs.Pattern.Enclosed
import Minifier.Proofs.Rule.Tightening
import Minifier.Style

/-!
What the rules of the aggressive level do to code. Each of them puts a shorter piece of code in the place of another
one and leaves what stands around it.
-/

namespace Minifier

open Pattern Text

/-- A piece of code of a language, and what an aggressive rule puts in its place. -/
inductive Shortens : Language → List Char → List Char → Prop where
  /-- Semicolons before a closing brace go. -/
  | semicolons {language : Language} {marks : List Char} :
      language = .css ∨ language = .javascript ∨ language = .typescript → (∀ c ∈ marks, c = ';') →
      Shortens language marks []
  /-- A zero loses its decimals and its unit. -/
  | zero {decimals : List Char} {unit : String} :
      decimals = [] ∨ (∃ zeros, decimals = '.' :: zeros ∧ ∀ c ∈ zeros, c = '0') → unit ∈ Style.units →
      Shortens .css ('0' :: (decimals ++ unit.toList)) ['0']
  /-- Zeros before a decimal point go. -/
  | leadingZeros {zeros : List Char} : (∀ c ∈ zeros, c = '0') → Shortens .css (zeros ++ ['.']) ['.']
  /-- A font weight is given by its number. -/
  | bold {name : List Char} : name.map Char.toLower = "bold".toList → Shortens .css name "700".toList
  | normal {name : List Char} : name.map Char.toLower = "normal".toList → Shortens .css name "400".toList

/-- Code in which some pieces were shortened one after the other; this happens at the aggressive level only. -/
def Shortened (language : Language) (options : Options) : List Char → List Char → Prop :=
  Relation.ReflTransGen fun old new => options.isAggressive = true ∧ ∃ left piece piece' right,
    Shortens language piece piece' ∧ old = left ++ (piece ++ right) ∧ new = left ++ (piece' ++ right)

variable {language : Language} {options : Options} {old new old' new' piece piece' text out : List Char}

namespace Shortened

theorem refl (code : List Char) : Shortened language options code code := Relation.ReflTransGen.refl

theorem trans {first second third : List Char} (h : Shortened language options first second)
    (h' : Shortened language options second third) : Shortened language options first third :=
  Relation.ReflTransGen.trans h h'

theorem of_shortens (haggressive : options.isAggressive = true) (h : Shortens language piece piece') :
    Shortened language options piece piece' :=
  .single ⟨haggressive, [], piece, piece', [], h, by simp, by simp⟩

theorem append_left (kept : List Char) (h : Shortened language options old new) :
    Shortened language options (kept ++ old) (kept ++ new) := by
  refine Relation.ReflTransGen.lift (kept ++ ·) ?_ _ _ h
  rintro _ _ ⟨haggressive, left, piece, piece', right, hpiece, rfl, rfl⟩
  exact ⟨haggressive, kept ++ left, piece, piece', right, hpiece, by simp, by simp⟩

theorem append_right (kept : List Char) (h : Shortened language options old new) :
    Shortened language options (old ++ kept) (new ++ kept) := by
  refine Relation.ReflTransGen.lift (· ++ kept) ?_ _ _ h
  rintro _ _ ⟨haggressive, left, piece, piece', right, hpiece, rfl, rfl⟩
  exact ⟨haggressive, left, piece, piece', right ++ kept, hpiece, by simp, by simp⟩

theorem append (h : Shortened language options old new) (h' : Shortened language options old' new') :
    Shortened language options (old ++ old') (new ++ new') :=
  (h.append_right old').trans (h'.append_left new)

end Shortened

/-- No blank is a letter in another case. -/
theorem toLower_of_isBlank {d : Char} (hd : isBlank d = true) : d.toLower = d := by
  refine dif_neg ?_
  rintro ⟨hfirst, hlast⟩
  have hrange : 65 ≤ d.toNat ∧ d.toNat ≤ 90 :=
    ⟨UInt32.le_iff_toNat_le.mp hfirst, UInt32.le_iff_toNat_le.mp hlast⟩
  simp [isBlank] at hd
  omega

private theorem not_isBlank_of_toLower {name other : List Char} (h : name.map Char.toLower = other)
    (hother : ∀ c ∈ other, isBlank c = false) : ∀ c ∈ name, isBlank c = false := by
  intro c hc
  rw [Bool.eq_false_iff]
  intro hblank
  have hmem : c.toLower ∈ other := h ▸ List.mem_map_of_mem hc
  rw [toLower_of_isBlank hblank] at hmem
  rw [hother c hmem] at hblank
  cases hblank

private theorem not_isBlank_of_any {code : List Char} (h : code.any isBlank = false) : ∀ c ∈ code, isBlank c = false :=
  fun c hc => Bool.eq_false_iff.mpr (List.any_eq_false.mp h c hc)

/-- Neither piece holds a blank. -/
theorem Shortens.not_isBlank (h : Shortens language piece piece') :
    (∀ c ∈ piece, isBlank c = false) ∧ ∀ c ∈ piece', isBlank c = false := by
  have hall {chars : List Char} {d : Char} (hd : isBlank d = false) (hchars : ∀ c ∈ chars, c = d) :
      ∀ c ∈ chars, isBlank c = false := fun c hc => hchars c hc ▸ hd
  have hzero : ∀ c ∈ ['0'], isBlank c = false := not_isBlank_of_any rfl
  have hpoint : ∀ c ∈ ['.'], isBlank c = false := not_isBlank_of_any rfl
  cases h with
  | semicolons _ hmarks => exact ⟨hall rfl hmarks, by simp⟩
  | @zero decimals unit hdecimals hunit =>
    have hplaces : ∀ c ∈ decimals, isBlank c = false := by
      rcases hdecimals with rfl | ⟨zeros, rfl, hzeros⟩
      · simp
      · exact List.forall_mem_append.mpr ⟨hpoint, hall rfl hzeros⟩
    have hunits : (Style.units.all fun unit => !unit.toList.any isBlank) = true := by decide
    have hletters : unit.toList.any isBlank = false := by simpa using List.all_eq_true.mp hunits unit hunit
    exact ⟨List.forall_mem_append.mpr ⟨hzero, List.forall_mem_append.mpr ⟨hplaces, not_isBlank_of_any hletters⟩⟩, hzero⟩
  | leadingZeros hzeros => exact ⟨List.forall_mem_append.mpr ⟨hall rfl hzeros, hpoint⟩, hpoint⟩
  | bold hname => exact ⟨not_isBlank_of_toLower hname (not_isBlank_of_any rfl), not_isBlank_of_any rfl⟩
  | normal hname => exact ⟨not_isBlank_of_toLower hname (not_isBlank_of_any rfl), not_isBlank_of_any rfl⟩

/-- What is put takes no more bytes. The names of font weights have six letters and four, the numbers three digits. -/
theorem Shortens.narrows (h : Shortens language piece piece') : Narrows piece piece' := by
  have hlength {name other : List Char} (hname : name.map Char.toLower = other) : name.length = other.length := by
    rw [← hname, List.length_map]
  have hletters := h.not_isBlank.1
  cases h with
  | semicolons _ _ => exact .of_sublist (List.nil_sublist _)
  | zero _ _ => exact .of_sublist ((List.nil_sublist _).cons_cons '0')
  | leadingZeros _ => exact .of_sublist (List.sublist_append_right _ _)
  | bold hname => exact .of_length_le (by rw [hlength hname]; decide) hletters (by simp; decide)
  | normal hname => exact .of_length_le (by rw [hlength hname]; decide) hletters (by simp; decide)

/-- A swap shortens a piece of a match and leaves the rest of the match as it is. -/
def Rule.ShortensPiece (language : Language) (rule : Rule) : Prop :=
  ∀ index prev found behind, rule.pattern.matchAt index prev (found.text ++ behind) = some found →
    ∃ left piece piece' right, Shortens language piece piece' ∧ found.text = left ++ (piece ++ right) ∧
      rule.replace found = left ++ (piece' ++ right)

theorem Rule.ShortensPiece.narrowsOnly {rule : Rule} (h : rule.ShortensPiece language) : rule.NarrowsOnly := by
  intro index prev found behind hfound
  obtain ⟨left, piece, piece', right, hpiece, htext, hreplace⟩ := h index prev found behind hfound
  rw [htext, hreplace]
  exact (Narrows.refl left).append (hpiece.narrows.append (.refl right))

namespace Style

theorem shortensPiece_semicolonBrace : semicolonBrace.ShortensPiece .css := by
  intro index prev found behind hfound
  obtain ⟨_, _, -, ⟨_, _, _, _, ⟨marks, blanks, _, _, hmarks, ⟨_, ⟨-, rfl⟩, rfl⟩, rfl, rfl⟩, hbrace, htext, rfl⟩,
    hlabels⟩ := Match.exists_takes hfound
  obtain ⟨-, hall, rfl⟩ := (takes_run1 _).mp hmarks
  obtain ⟨rfl, rfl⟩ := (takes_char '\x7d').mp hbrace
  have hblanks : found.part 1 = blanks := found.part_eq_getD hlabels 1
  have hsemicolons : ∀ c ∈ marks, c = ';' := fun c hc => by simpa using hall c hc
  refine ⟨[], marks, [], blanks ++ ['\x7d'], .semicolons (Or.inl rfl) hsemicolons, by simpa using htext, ?_⟩
  simp [semicolonBrace, hblanks]

theorem shortensPiece_zeroUnits : zeroUnits.ShortensPiece .css := by
  intro index prev found behind hfound
  obtain ⟨_, _, -, ⟨_, last, _, _, ⟨_, unit, _, _, ⟨_, places, _, _, ⟨first, _, _, _, ⟨_, hfirst, rfl⟩, hzero, rfl,
    rfl⟩, hplaces, rfl, rfl⟩, hunit, rfl, rfl⟩, ⟨_, hlast, rfl⟩, htext, rfl⟩, hlabels⟩ := Match.exists_takes hfound
  obtain ⟨rfl, rfl⟩ := (takes_char '0').mp hzero
  obtain ⟨-, rfl⟩ := (takes_one _).mp hfirst
  obtain ⟨⟨unit, hmem, rfl⟩, rfl⟩ := (takes_words units).mp hunit
  obtain rfl := hplaces.parts_eq_nil rfl
  obtain rfl := hlast.parts_eq_nil rfl
  have hbefore : found.part 1 = first := found.part_eq_getD hlabels 1
  have hbehind : found.part 2 = last := found.part_eq_getD hlabels 2
  have hdecimals : places = [] ∨ ∃ zeros, places = '.' :: zeros ∧ ∀ c ∈ zeros, c = '0' := by
    rcases hplaces with ⟨_, zeros, _, _, hpoint, hzeros, rfl, -⟩ | ⟨rfl, -⟩
    · obtain ⟨rfl, -⟩ := (takes_char '.').mp hpoint
      obtain ⟨-, hall, -⟩ := (takes_run1 _).mp hzeros
      exact Or.inr ⟨zeros, rfl, fun c hc => by simpa using hall c hc⟩
    · exact Or.inl rfl
  exact ⟨first, _, _, last, .zero hdecimals hmem, by simpa using htext, by simp [zeroUnits, hbefore, hbehind]⟩

theorem shortensPiece_leadingZero : leadingZero.ShortensPiece .css := by
  intro index prev found behind hfound
  obtain ⟨_, _, -, ⟨_, digit, _, _, ⟨_, _, _, _, ⟨_, zeros, _, _, ⟨stays, dash, _, _, ⟨_, hstays, rfl⟩, ⟨_, hdash, rfl⟩,
    rfl, rfl⟩, hzeros, rfl, rfl⟩, hpoint, rfl, rfl⟩, ⟨_, hdigit, rfl⟩, htext, rfl⟩, hlabels⟩ :=
    Match.exists_takes hfound
  obtain ⟨-, rfl⟩ := (takes_one _).mp hdigit
  obtain ⟨rfl, rfl⟩ := (takes_char '.').mp hpoint
  obtain ⟨-, hall, rfl⟩ := (takes_run1 _).mp hzeros
  obtain rfl := hdash.parts_eq_nil rfl
  have hbefore : found.part 1 = stays := found.part_eq_getD hlabels 1
  have hsign : found.part 2 = dash := found.part_eq_getD hlabels 2
  have hlast : found.part 3 = digit := found.part_eq_getD hlabels 3
  exact ⟨stays ++ dash, _, _, digit, .leadingZeros fun c hc => by simpa using hall c hc, by simpa using htext,
    by simp [leadingZero, hbefore, hsign, hlast]⟩

/-- A word whose letters fold onto themselves only. -/
theorem map_toLower_of_takes_wordAnyCase {word : String} (hword : 's' ∉ word.toList ∧ 'k' ∉ word.toList)
    {prev : Option Char} {taken behind : List Char} {parts : Parts}
    (h : (wordAnyCase word).Takes prev taken behind parts) : taken.map Char.toLower = word.toList :=
  (spells_iff_map_toLower hword).mp (takes_wordAnyCase.mp h).1

/-- The rule for font weights finds what stands before the name of a weight, and the name. -/
theorem exists_of_matchAt_fontWeight {index : Nat} {prev : Option Char} {rest : List Char} {found : Match}
    (h : fontWeight.pattern.matchAt index prev rest = some found) :
    ∃ front weight, found.text = front ++ weight ∧ found.part 1 = front ∧ found.part 2 = weight ∧
      (weight.map Char.toLower = "bold".toList ∨ weight.map Char.toLower = "normal".toList) := by
  obtain ⟨_, _, -, ⟨_, edge, _, _, ⟨front, weight, _, _, ⟨_, hfront, rfl⟩, ⟨_, hweight, rfl⟩, rfl, rfl⟩, hedge, htext,
    rfl⟩, hlabels⟩ := Match.exists_takes h
  obtain rfl := hfront.parts_eq_nil (by decide)
  obtain rfl := hweight.parts_eq_nil (by decide)
  obtain ⟨-, rfl, rfl⟩ := hedge
  refine ⟨front, weight, by simpa using htext, found.part_eq_getD hlabels 1, found.part_eq_getD hlabels 2, ?_⟩
  rcases hweight with h | h
  · exact Or.inr (map_toLower_of_takes_wordAnyCase (by decide) h)
  · exact Or.inl (map_toLower_of_takes_wordAnyCase (by decide) h)

theorem shortensPiece_fontWeight : fontWeight.ShortensPiece .css := by
  intro index prev found behind hfound
  obtain ⟨front, weight, htext, hbefore, hname, hbold | hnormal⟩ := exists_of_matchAt_fontWeight hfound
  · refine ⟨front, weight, _, [], .bold hbold, by simpa using htext, ?_⟩
    simp [fontWeight, hbefore, hname, hbold]
  · refine ⟨front, weight, _, [], .normal hnormal, by simpa using htext, ?_⟩
    simp [fontWeight, hbefore, hname, hnormal]

theorem each_shortensPiece :
    Pipeline.Each (Rule.ShortensPiece .css) [semicolonBrace, zeroUnits, leadingZero, fontWeight] :=
  .cons shortensPiece_semicolonBrace (.cons shortensPiece_zeroUnits
    (.cons shortensPiece_leadingZero (.cons shortensPiece_fontWeight .nil)))

end Style

end Minifier
