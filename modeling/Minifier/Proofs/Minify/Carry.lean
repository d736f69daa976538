import Minifier.Proofs.Minify.Stages
import Minifier.Proofs.Pattern.Shape
import Minifier.Proofs.Rule.Carry

/-!
The rules of every language carry placeholders. Nearly all of them match clear pieces only, which is read
off their patterns. Two take along a character before such a piece, whatever it is, and put it back. The
calls of a console alone may hold placeholders, which go with the call.
-/

namespace Minifier

open Pattern

/-! ### Clear matches -/

/-- The digits that placeholders are numbered with. -/
private def asciiDigits : List Char := ['0', '1', '2', '3', '4', '5', '6', '7', '8', '9']

private theorem mem_asciiDigits {c : Char} (h : c.isDigit = true) : c ∈ asciiDigits := by
  have hcode : c.toNat ∈ List.range' 48 10 := by
    simp only [Char.isDigit, Bool.and_eq_true, decide_eq_true_eq] at h
    have hfirst : 48 ≤ c.toNat := UInt32.le_iff_toNat_le.mp h.1
    have hlast : c.toNat ≤ 57 := UInt32.le_iff_toNat_le.mp h.2
    simp only [List.mem_range'_1]
    omega
  have hcodes : ∀ n ∈ List.range' 48 10, Char.ofNat n ∈ asciiDigits := by decide
  have hmem := hcodes _ hcode
  rwa [Char.ofNat_toNat] at hmem

/-- Whether a pattern takes clear pieces only. -/
def Pattern.isClear (pattern : Pattern) : Bool :=
  pattern.avoids Placeholder.opening && pattern.avoids Placeholder.closing && pattern.exceeds asciiDigits

variable {rel : List Nat → List Nat → Prop} {pattern : Pattern} {prev : Option Char}
  {taken behind : List Char} {parts : Parts}

theorem Pattern.Takes.unreserved (h : pattern.Takes prev taken behind parts)
    (hopening : pattern.avoids Placeholder.opening = true)
    (hclosing : pattern.avoids Placeholder.closing = true) : Unreserved taken :=
  ⟨h.not_mem hopening, h.not_mem hclosing⟩

theorem Pattern.Takes.clear (h : pattern.Takes prev taken behind parts)
    (hclear : pattern.isClear = true) : Clear taken := by
  simp only [isClear, Bool.and_eq_true] at hclear
  obtain ⟨⟨hopening, hclosing⟩, hexceeds⟩ := hclear
  obtain ⟨c, hc, hdigit⟩ := h.exists_not_mem hexceeds
  exact ⟨h.unreserved hopening hclosing, c, hc, Bool.eq_false_iff.mpr (mt mem_asciiDigits hdigit)⟩

/-- A rule whose matches are clear carries placeholders, if it only puts parts of its matches and code
in their place. -/
theorem Rule.carries_of_isClear {rule : Rule} (hrel : Keeping rel) (hclear : rule.pattern.isClear = true)
    (hreplace : ∀ found : Match, (∀ n, Unreserved (found.part n)) → Unreserved (rule.replace found)) :
    Carries rel rule.apply := by
  apply carries_apply hrel
  intro index prev found behind hfound
  obtain ⟨_, _, -, htakes, -⟩ := Match.exists_takes hfound
  have htext := htakes.clear hclear
  have hparts (n : Nat) : Unreserved (found.part n) :=
    htext.unreserved.of_subset (Match.part_infix hfound n).subset
  exact carriesSwap_of_clear hrel [] htext (hreplace found hparts)

theorem Rule.carries_drop {name : String} (hrel : Keeping rel) (hclear : pattern.isClear = true) :
    Carries rel (Rule.drop name pattern).apply :=
  carries_of_isClear hrel hclear fun _ _ => unreserved_nil

theorem Rule.carries_put {name : String} {c : Char} (hrel : Keeping rel)
    (hclear : pattern.isClear = true) (hc : Unreserved [c]) :
    Carries rel (Rule.put name pattern c).apply :=
  carries_of_isClear hrel hclear fun _ _ => hc

theorem Rule.carries_keepPart {name : String} (hrel : Keeping rel) (hclear : pattern.isClear = true) :
    Carries rel (Rule.keepPart name pattern).apply :=
  carries_of_isClear hrel hclear fun _ hparts => hparts 1

/-! ### Blanks -/

namespace Spacing

/-- The character before the blanks may end a placeholder. It stays. -/
theorem carries_innerSpaces (hrel : Keeping rel) : Carries rel innerSpaces.apply := by
  apply Rule.carries_apply hrel
  intro index prev found behind hfound
  obtain ⟨_, _, -, htakes, hlabels⟩ := Match.exists_takes hfound
  obtain ⟨_, blanks, _, _, ⟨_, _, _, _, ⟨_, ⟨⟨c, -, rfl⟩, rfl⟩, rfl⟩, hblank, rfl, rfl⟩, hblanks,
    htext, rfl⟩ := htakes
  obtain ⟨⟨d, hd, rfl⟩, rfl⟩ := (takes_one _).mp hblank
  have hnew : found.part 1 = [c] := by
    obtain ⟨-, -, rfl⟩ := (takes_run1 _).mp hblanks
    simp [found.part_eq, hlabels]
  have hclear : Clear ([d] ++ blanks) := by
    have hone := hblank.clear (by decide)
    have hmore := hblanks.clear (by decide)
    exact ⟨unreserved_append.mpr ⟨hone.unreserved, hmore.unreserved⟩, d, by simp,
      (hone.exists_not_digit.elim fun e he => List.mem_singleton.mp he.1 ▸ he.2)⟩
  simp only [innerSpaces]
  rw [hnew, htext, List.append_assoc]
  exact carriesSwap_of_clear hrel [c] hclear (by decide)

/-- The shared rules carry placeholders. -/
theorem each_all_carries (hrel : Keeping rel) :
    Pipeline.Each (fun rule => Carries rel rule.apply) all := by
  refine each_all_iff.mpr ⟨?_, ?_, ?_, ?_, carries_innerSpaces hrel, ?_, ?_⟩
  · exact Rule.carries_put hrel (by decide) (by decide)
  · exact Rule.carries_put hrel (by decide) (by decide)
  · exact Rule.carries_drop hrel (by decide)
  · exact Rule.carries_drop hrel (by decide)
  · exact Rule.carries_drop hrel (by decide)
  · exact Rule.carries_drop hrel (by decide)

end Spacing

/-! ### Stylesheets -/

namespace Style

/-- The character before the number may end a placeholder. It stays. -/
theorem carries_leadingZero (hrel : Keeping rel) : Carries rel leadingZero.apply := by
  apply Rule.carries_apply hrel
  intro index prev found behind hfound
  obtain ⟨_, _, -, htakes, hlabels⟩ := Match.exists_takes hfound
  obtain ⟨_, digit, _, _, ⟨_, _, _, _, ⟨_, zeros, _, _, ⟨stays, dash, _, _, ⟨_, -, rfl⟩, ⟨_, hdash, rfl⟩,
    rfl, rfl⟩, hzeros, rfl, rfl⟩, hpoint, rfl, rfl⟩, ⟨_, hdigit, rfl⟩, htext, rfl⟩ := htakes
  have hclearPoint := hpoint.clear (by decide)
  have hcleanDash := hdash.unreserved (by decide) (by decide)
  have hcleanZeros := hzeros.unreserved (by decide) (by decide)
  have hcleanDigit := hdigit.unreserved (by decide +kernel) (by decide +kernel)
  obtain ⟨-, rfl⟩ := (takes_one _).mp hdigit
  obtain ⟨rfl, rfl⟩ := (takes_char '.').mp hpoint
  obtain ⟨-, -, rfl⟩ := (takes_run1 _).mp hzeros
  have hstays : found.part 1 = stays := by
    rcases hdash with h | ⟨-, rfl⟩
    · obtain ⟨-, rfl⟩ := (takes_char '-').mp h
      exact found.part_eq_getD hlabels 1
    · exact found.part_eq_getD hlabels 1
  have hsign : found.part 2 = dash := found.part_eq_getD hlabels 2
  have hlast : found.part 3 = digit := found.part_eq_getD hlabels 3
  have hclear : Clear (dash ++ (zeros ++ ('.' :: digit))) := by
    refine ⟨?_, '.', by simp, rfl⟩
    exact unreserved_append.mpr ⟨hcleanDash, unreserved_append.mpr ⟨hcleanZeros,
      unreserved_append.mpr ⟨hclearPoint.unreserved, hcleanDigit⟩⟩⟩
  have hnew : Unreserved (dash ++ ('.' :: digit)) :=
    unreserved_append.mpr ⟨hcleanDash, unreserved_append.mpr ⟨hclearPoint.unreserved, hcleanDigit⟩⟩
  have hswap : CarriesSwap rel _ _ behind := carriesSwap_of_clear hrel stays hclear hnew
  simpa [leadingZero, hstays, hsign, hlast, htext] using hswap

theorem carries_zeroUnits (hrel : Keeping rel) : Carries rel zeroUnits.apply :=
  Rule.carries_of_isClear hrel (by decide) fun _ hparts =>
    unreserved_append.mpr ⟨hparts 1, unreserved_cons.mpr ⟨by decide, hparts 2⟩⟩

theorem carries_semicolonBrace (hrel : Keeping rel) : Carries rel semicolonBrace.apply :=
  Rule.carries_of_isClear hrel (by decide) fun _ hparts =>
    unreserved_append.mpr ⟨hparts 1, by decide⟩

theorem carries_fontWeight (hrel : Keeping rel) : Carries rel fontWeight.apply := by
  apply Rule.carries_of_isClear hrel (by decide)
  intro found hparts
  refine unreserved_append.mpr ⟨hparts 1, ?_⟩
  split <;> decide

/-- The rules of stylesheets carry placeholders. -/
theorem each_carries (hrel : Keeping rel) (options : Options) :
    (Style.pipeline options).Each fun rule => Carries rel rule.apply := by
  apply each_pipeline (Spacing.each_all_carries hrel)
  · exact Rule.carries_keepPart hrel (by decide)
  · exact Rule.carries_keepPart hrel (by decide)
  · intro _
    exact .cons (carries_semicolonBrace hrel) (.cons (carries_zeroUnits hrel)
      (.cons (carries_leadingZero hrel) (.cons (carries_fontWeight hrel) .nil)))

end Style

/-! ### Markup and other languages -/

/-- The rules of markup carry placeholders. -/
theorem Markup.each_carries (hrel : Keeping rel) (options : Options) :
    (Markup.pipeline options).Each fun rule => Carries rel rule.apply := by
  have htags : Unreserved ['>', '<'] := by decide
  apply each_pipeline (Spacing.each_all_carries hrel)
  · exact Rule.carries_of_isClear hrel (by decide) fun _ _ => htags
  · exact Rule.carries_of_isClear hrel (by decide) fun _ _ => htags
  · exact Rule.carries_keepPart hrel (by decide)

/-- The rules of a language without a minifier of its own carry placeholders. -/
theorem Generic.each_carries (hrel : Keeping rel) (language : Language) (options : Options) :
    (Generic.pipeline language options).Each fun rule => Carries rel rule.apply := by
  apply each_pipeline (Spacing.each_all_carries hrel)
  · exact Rule.carries_keepPart hrel (by decide)
  · exact Rule.carries_keepPart hrel (by decide)

/-! ### Scripts -/

namespace Script

/-- A call of a console's members begins and ends with code. What its brackets hold goes with it. -/
theorem carries_consoleCall : Carries List.Sublist consoleCall.apply := by
  apply Rule.carries_apply keeping_sublist
  intro index prev found behind hfound
  obtain ⟨_, _, -, htakes, -⟩ := Match.exists_takes hfound
  obtain ⟨_, semicolon, _, _, ⟨_, blanks, _, _, ⟨callee, _, _, _, hcallee,
    ⟨inside, close, _, _, -, hclose, rfl, rfl⟩, rfl, rfl⟩, hblanks, rfl, rfl⟩, hsemicolon, htext, -⟩ :=
    htakes
  have hfirst := hcallee.clear (by decide +kernel)
  have hbracket := hclose.clear (by decide)
  have hlast : Clear (close ++ (blanks ++ semicolon)) := by
    obtain ⟨c, hc, hdigit⟩ := hbracket.exists_not_digit
    refine ⟨?_, c, List.mem_append_left _ hc, hdigit⟩
    exact unreserved_append.mpr ⟨hbracket.unreserved, unreserved_append.mpr
      ⟨hblanks.unreserved (by decide) (by decide), hsemicolon.unreserved (by decide) (by decide)⟩⟩
  have hswap : CarriesSwap _ _ _ behind := carriesSwap_of_between inside hfirst hlast
  simpa [consoleCall, Rule.drop, htext] using hswap

/-- Every rule of scripts but the one for calls of a console carries placeholders. -/
theorem each_of_carries {property : Rule → Prop} {options : Options}
    (hconsole : options.removeConsoleLog = true → property consoleCall)
    (hothers : ∀ rule, Carries Eq rule.apply → property rule) :
    (Script.pipeline options).Each property := by
  apply each_pipeline hconsole
  · intro _
    exact hothers _ (Rule.carries_drop keeping_eq (by decide))
  · exact (Spacing.each_all_carries keeping_eq).mono hothers
  · exact hothers _ (Rule.carries_put keeping_eq (by decide) (by decide))
  · exact hothers _ (Rule.carries_keepPart keeping_eq (by decide))
  · exact hothers _ (Rule.carries_keepPart keeping_eq (by decide))
  · intro _
    exact hothers _ (Rule.carries_put keeping_eq (by decide) (by decide))

end Script

/-! ### Short names -/

namespace Mangle

theorem unreserved_letter (n : Nat) : Unreserved [letter n] := by
  have hletters : ∀ m < 26, Unreserved [Char.ofNat (97 + m)] := by decide
  exact hletters (n % 26) (Nat.mod_lt n (by decide))

theorem unreserved_lettersOnto {tail : List Char} (h : Unreserved tail) (fuel index : Nat) :
    Unreserved (lettersOnto fuel index tail) := by
  induction fuel generalizing index tail with
  | zero => exact unreserved_cons.mpr ⟨unreserved_letter index, h⟩
  | succ fuel ih =>
    have hletter := unreserved_cons.mpr ⟨unreserved_letter index, h⟩
    rw [lettersOnto]
    split
    · exact hletter
    · exact ih hletter _

theorem unreserved_freshName (taken : List (List Char)) (tries counter : Nat) :
    Unreserved (freshName taken tries counter).1 := by
  induction tries generalizing counter with
  | zero => exact unreserved_lettersOnto unreserved_nil _ _
  | succ tries ih =>
    rw [freshName]
    split
    · exact ih _
    · exact unreserved_lettersOnto unreserved_nil _ _

/-- Short names look like no placeholders. -/
theorem unreserved_of_mem_choose (taken declared : List (List Char)) :
    ∀ entry ∈ choose taken declared, Unreserved entry.2 := by
  intro entry hentry
  rw [choose, List.mem_reverse] at hentry
  revert entry
  refine List.foldlRecOn (motive := fun state : Renaming × Nat => ∀ entry ∈ state.1, Unreserved entry.2)
    declared _ (by simp) fun state hstate name _ => ?_
  split
  · exact hstate
  · have hshort := unreserved_freshName taken taken.length state.2
    generalize freshName taken taken.length state.2 = fresh at hshort
    obtain ⟨short, counter⟩ := fresh
    dsimp only
    split
    · exact hstate
    · exact List.forall_mem_cons.mpr ⟨hshort, hstate⟩

theorem renameSegments_eq (names : Renaming) (before : Option Char) (segments : List Segment)
    (done : List Char) :
    renameSegments names before segments done =
      done.reverse ++ renameSegments names before segments [] := by
  induction segments generalizing before done with
  | nil => simp [renameSegments]
  | cons segment segments ih =>
    cases segment with
    | plain c =>
      rw [renameSegments, renameSegments, ih, ih (some c) [c]]
      simp
    | hit found =>
      rw [renameSegments, renameSegments, ih, ih _ (List.reverseAux _ [])]
      simp [List.reverseAux_eq]

/-- Renaming is an edit in which names give way to their short ones. -/
theorem edits_renameSegments (names : Renaming) (before : Option Char) {index : Nat}
    {prev : Option Char} {text : List Char} {segments : List Segment}
    (h : identifier.Segmented index prev text segments) :
    Edits (fun (_ : Unit) old new rest _ => ∃ index prev found,
        identifier.matchAt index prev (old ++ rest) = some found ∧ found.text = old ∧
          (new = old ∨ names.lookup old = some new))
      () text (renameSegments names before segments []) () := by
  induction h generalizing before with
  | done => exact .keep []
  | @plain _ _ c _ _ _ _ ih =>
    rw [renameSegments, renameSegments_eq]
    exact (ih (some c)).cons c
  | @hit index prev _ rest found segments hfound htext _ ih =>
    subst htext
    rw [renameSegments, renameSegments_eq]
    simp only [List.reverseAux_eq, List.append_nil, List.reverse_reverse]
    refine .swap [] ⟨index, prev, found, hfound, rfl, ?_⟩ (ih _)
    split
    · cases hlookup : names.lookup found.text with
      | none => exact Or.inl rfl
      | some short => exact Or.inr rfl
    · exact Or.inl rfl

/-- Mangling carries placeholders, since a name is clear and a short one is code. -/
theorem carries_mangle : Carries Eq fun code => (mangle code).code := by
  intro code
  simp only [mangle]
  split
  · exact .refl keeping_eq code
  · refine carriedTo_of_edits keeping_eq
      ((edits_renameSegments _ none (Pattern.segments_segmented identifier code)).mono ?_)
    rintro _ old new rest _ ⟨index, prev, found, hfound, rfl, hnew⟩
    obtain ⟨_, _, -, htakes, -⟩ := Match.exists_takes hfound
    have htext := htakes.clear (by decide +kernel)
    refine carriesSwap_of_clear keeping_eq [] htext ?_
    rcases hnew with rfl | hlookup
    · exact htext.unreserved
    · obtain ⟨_, _, hnames, -⟩ := List.lookup_eq_some_iff.mp hlookup
      have hshort := unreserved_of_mem_choose ((identifiers code).eraseDups ++ reservedWords)
        (declaredNames code) (found.text, new)
      rw [hnames] at hshort
      exact hshort (by simp)

end Mangle

end Minifier
