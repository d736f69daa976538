import Minifier.Proofs.Masking.Blanks
import Minifier.Proofs.Minify.Selectors
import Minifier.Proofs.Minify.Shortening
import Minifier.Proofs.Text.Words

/-!
Percentages that select keyframes. Such a percentage stands between two edges, mostly a brace or a comma, with blanks
around it. The rules for blanks run first, and what they leave of these blanks decides whether the rule for units takes
a zero for a length.
-/

namespace Minifier

open Pattern

namespace Style

variable {options : Options} {prev : Option Char} {c d : Char} {text taken behind : List Char}

/-! ### Semicolons before a brace -/

/-- Semicolons, blanks and a closing brace. -/
def IsClosing (taken : List Char) : Prop :=
  ∃ marks blanks, taken = marks ++ (blanks ++ ['\x7d']) ∧ marks ≠ [] ∧ (∀ x ∈ marks, x = ';') ∧
    ∀ x ∈ blanks, Text.isBlank x = true

theorem not_mem_of_isClosing {marks blanks : List Char} (hmarks : ∀ x ∈ marks, x = ';')
    (hblanks : ∀ x ∈ blanks, Text.isBlank x = true) (hc : c ≠ ';') (hblank : Text.isBlank c = false) :
    c ∉ marks ++ blanks := by
  rintro hmem
  rcases List.mem_append.mp hmem with hmem | hmem
  · exact hc (hmarks c hmem)
  · rw [hblanks c hmem] at hblank
    cases hblank

theorem finds_semicolonBrace : semicolonBrace.pattern.Finds fun _ => IsClosing := by
  refine @Finds.of_unique semicolonBrace.pattern (fun _ => IsClosing) ?_ ?_ ?_
  · rintro prev taken behind parts ⟨_, _, _, _, ⟨marks, blanks, _, _, hmarks, ⟨_, ⟨hblanks, -⟩, -⟩, rfl, -⟩, hbrace, rfl, -⟩
    obtain ⟨hne, hall, -⟩ := (takes_run1 _).mp hmarks
    obtain ⟨rfl, -⟩ := (takes_char '\x7d').mp hbrace
    exact ⟨marks, blanks, List.append_assoc _ _ _, hne, fun x hx => beq_iff_eq.mp (hall x hx), hblanks⟩
  · rintro prev taken behind ⟨marks, blanks, rfl, hne, hmarks, hblanks⟩
    rw [← List.append_assoc]
    exact ⟨_, _, _, [(.part 1, blanks)], [], ⟨_, _, [], [(.part 1, blanks)],
      (takes_run1 _).mpr ⟨hne, fun x hx => beq_iff_eq.mpr (hmarks x hx), rfl⟩, ⟨[], ⟨hblanks, rfl⟩, rfl⟩, rfl, rfl⟩,
      (takes_char '\x7d').mpr ⟨rfl, rfl⟩, rfl, rfl⟩
  · rintro prev taken taken' text ⟨marks, blanks, rfl, -, hmarks, hblanks⟩ ⟨marks', blanks', rfl, -, hmarks', hblanks'⟩ h h'
    rw [← List.append_assoc] at h h' ⊢
    rw [← List.append_assoc]
    exact eq_of_prefix (not_mem_of_isClosing hmarks hblanks (by decide) (by decide))
      (not_mem_of_isClosing hmarks' hblanks' (by decide) (by decide)) rfl h h'

theorem puts_semicolonBrace : semicolonBrace.Puts fun taken => taken.filter (· != ';') where
  exceeds := rfl
  passes := rfl
  replace := by
    intro index prev rest found hfound
    obtain ⟨_, _, -, ⟨_, _, _, _, ⟨marks, blanks, _, _, hmarks, ⟨_, ⟨hblanks, rfl⟩, rfl⟩, rfl, rfl⟩, hbrace, htext, rfl⟩,
      hlabels⟩ := Match.exists_takes hfound
    obtain ⟨-, hall, rfl⟩ := (takes_run1 _).mp hmarks
    obtain ⟨rfl, rfl⟩ := (takes_char '\x7d').mp hbrace
    have hpart : found.part 1 = blanks := found.part_eq_getD hlabels 1
    have hsemicolons : marks.filter (· != ';') = [] := List.filter_eq_nil_iff.mpr fun x hx => by simpa using hall x hx
    have hkept : blanks.filter (· != ';') = blanks := List.filter_eq_self.mpr fun x hx => by
      simp only [bne_iff_ne]
      rintro rfl
      exact absurd (hblanks _ hx) (by decide)
    rw [htext, List.filter_append, List.filter_append, hsemicolons, hkept]
    simp [semicolonBrace, hpart]

theorem avoids_semicolonBrace : semicolonBrace.pattern.avoids 'a' = true := by decide

theorem semicolonBrace_apply_eq_self (h : ';' ∉ text) : semicolonBrace.apply text = text := by
  have hfirst : (run1 (· == ';')).exceeds text = ((char ';').exceeds text || false) := rfl
  refine puts_semicolonBrace.apply_eq_self avoids_semicolonBrace ?_
  simp only [semicolonBrace, exceeds_append, hfirst, exceeds_char h, Bool.true_or]

theorem cutsAt_semicolonBrace (hc : c ≠ ';') (hblank : Text.isBlank c = false) : CutsAt semicolonBrace.apply c := by
  refine puts_semicolonBrace.cutsAt_of_endsAt avoids_semicolonBrace finds_semicolonBrace ⟨?_, ?_, ?_⟩
  · rintro prev taken ⟨marks, blanks, rfl, hne, hmarks, hblanks⟩ hmem
    have hmem : c ∈ (marks ++ (blanks ++ ['\x7d'])).dropLast := List.mem_of_mem_tail (List.tail_dropLast ▸ hmem)
    rw [← List.append_assoc, List.dropLast_concat] at hmem
    exact not_mem_of_isClosing hmarks hblanks hc hblank hmem
  · rintro prev taken ⟨marks, blanks, htaken, hne, hmarks, -⟩
    obtain ⟨x, marks, rfl⟩ := List.exists_cons_of_ne_nil hne
    obtain ⟨rfl, -⟩ := List.cons.inj htaken
    exact absurd (hmarks _ List.mem_cons_self) hc
  · rintro prev taken ⟨marks, blanks, htaken, hne, hmarks, -⟩
    refine ⟨⟨taken.filter (· != ';'), by simp [hc]⟩, ?_⟩
    rintro prev rest ⟨marks, blanks, htaken, hne, hmarks, -⟩
    obtain ⟨x, marks, rfl⟩ := List.exists_cons_of_ne_nil hne
    obtain ⟨rfl, -⟩ := List.cons.inj htaken
    exact absurd (hmarks _ List.mem_cons_self) hc

/-! ### Zeros before a decimal point -/

/-- What may stand before the zeros: at the beginning of the text nothing, and otherwise a character that goes on with
neither a word nor a number. -/
def IsStart (prev : Option Char) (start : List Char) : Prop :=
  start = [] ∧ prev = none ∨ ∃ x, start = [x] ∧ Text.isWord x = false ∧ x ≠ '.' ∧ x ≠ '-'

/-- Zeros before a decimal point with a digit behind it, and what stands before them. -/
def IsLeadingZero (prev : Option Char) (taken : List Char) : Prop :=
  ∃ start sign zeros digit, taken = start ++ (sign ++ zeros) ++ '.' :: [digit] ∧ IsStart prev start ∧
    (sign = [] ∨ sign = ['-']) ∧ zeros ≠ [] ∧ (∀ x ∈ zeros, x = '0') ∧ Text.isDecimalDigit digit = true

theorem takes_leadingZero {parts : Parts} : leadingZero.pattern.Takes prev taken behind parts ↔
    ∃ start sign zeros digit, taken = start ++ (sign ++ zeros) ++ '.' :: [digit] ∧ IsStart prev start ∧
      (sign = [] ∨ sign = ['-']) ∧ zeros ≠ [] ∧ (∀ x ∈ zeros, x = '0') ∧ Text.isDecimalDigit digit = true ∧
      parts = [(.part 3, [digit]), (.part 2, sign), (.part 1, start)] := by
  constructor
  · rintro ⟨_, _, _, _, ⟨_, _, _, _, ⟨_, zeros, _, _, ⟨start, sign, _, _, ⟨_, hstart, rfl⟩, ⟨_, hsign, rfl⟩, rfl, rfl⟩,
      hzeros, rfl, rfl⟩, hpoint, rfl, rfl⟩, ⟨_, hdigit, rfl⟩, rfl, rfl⟩
    obtain ⟨⟨digit, haccepts, rfl⟩, rfl⟩ := (takes_one _).mp hdigit
    obtain ⟨rfl, rfl⟩ := (takes_char '.').mp hpoint
    obtain ⟨hne, hall, rfl⟩ := (takes_run1 _).mp hzeros
    obtain rfl := hsign.parts_eq_nil rfl
    obtain rfl := hstart.parts_eq_nil rfl
    refine ⟨start, sign, zeros, digit, by simp, ?_, ?_, hne, fun x hx => beq_iff_eq.mp (hall x hx), haccepts, by simp⟩
    · rcases hstart with ⟨hnone, rfl, -⟩ | hone
      · exact Or.inl ⟨rfl, Anchor.holdsBetween_textStart.mp hnone⟩
      · obtain ⟨⟨x, hx, rfl⟩, -⟩ := (takes_one _).mp hone
        exact Or.inr ⟨x, rfl, by simpa [and_assoc] using hx⟩
    · rcases hsign with hsign | ⟨rfl, -⟩
      · exact Or.inr ((takes_char '-').mp hsign).1
      · exact Or.inl rfl
  · rintro ⟨start, sign, zeros, digit, rfl, hstart, hsign, hne, hzeros, hdigit, rfl⟩
    refine ⟨start ++ sign ++ zeros ++ ['.'], [digit], [(.part 2, sign), (.part 1, start)], [(.part 3, [digit])],
      ⟨start ++ sign ++ zeros, ['.'], [(.part 2, sign), (.part 1, start)], [],
        ⟨start ++ sign, zeros, [(.part 2, sign), (.part 1, start)], [],
          ⟨start, sign, [(.part 1, start)], [(.part 2, sign)], ⟨[], ?_, rfl⟩, ⟨[], ?_, rfl⟩, rfl, rfl⟩,
          (takes_run1 _).mpr ⟨hne, fun x hx => beq_iff_eq.mpr (hzeros x hx), rfl⟩, rfl, rfl⟩,
        (takes_char '.').mpr ⟨rfl, rfl⟩, rfl, rfl⟩,
      ⟨[], (takes_one _).mpr ⟨⟨digit, hdigit, rfl⟩, rfl⟩, rfl⟩, by simp, rfl⟩
    · rcases hstart with ⟨rfl, rfl⟩ | ⟨x, rfl, hword, hpoint, hdash⟩
      · exact Or.inl ⟨Anchor.holdsBetween_textStart.mpr rfl, rfl, rfl⟩
      · exact Or.inr ((takes_one _).mpr ⟨⟨x, by simp [hword, hpoint, hdash], rfl⟩, rfl⟩)
    · rcases hsign with rfl | rfl
      · exact Or.inr ⟨rfl, rfl⟩
      · exact Or.inl ((takes_char '-').mpr ⟨rfl, rfl⟩)

/-- Before the zeros' point there is none. -/
theorem not_mem_point {start sign zeros : List Char} (hstart : IsStart prev start) (hsign : sign = [] ∨ sign = ['-'])
    (hzeros : ∀ x ∈ zeros, x = '0') : '.' ∉ start ++ (sign ++ zeros) := by
  have hzeros : '.' ∉ zeros := fun hmem => absurd (hzeros _ hmem) (by decide)
  rcases hstart with ⟨rfl, -⟩ | ⟨x, rfl, -, hpoint, -⟩
  · rcases hsign with rfl | rfl <;> simp [hzeros]
  · rcases hsign with rfl | rfl <;> simp [hzeros, Ne.symm hpoint]

theorem finds_leadingZero : leadingZero.pattern.Finds IsLeadingZero := by
  refine @Finds.of_unique leadingZero.pattern IsLeadingZero ?_ ?_ ?_
  · rintro prev taken behind parts htakes
    obtain ⟨start, sign, zeros, digit, htaken, hstart, hsign, hne, hzeros, hdigit, -⟩ := takes_leadingZero.mp htakes
    exact ⟨start, sign, zeros, digit, htaken, hstart, hsign, hne, hzeros, hdigit⟩
  · rintro prev taken behind ⟨start, sign, zeros, digit, htaken, hstart, hsign, hne, hzeros, hdigit⟩
    exact ⟨_, takes_leadingZero.mpr ⟨start, sign, zeros, digit, htaken, hstart, hsign, hne, hzeros, hdigit, rfl⟩⟩
  · rintro prev taken taken' text ⟨start, sign, zeros, digit, rfl, hstart, hsign, -, hzeros, -⟩
      ⟨start', sign', zeros', digit', rfl, hstart', hsign', -, hzeros', -⟩ h h'
    exact eq_of_prefix (not_mem_point hstart hsign hzeros) (not_mem_point hstart' hsign' hzeros') rfl h h'

/-- What the rule leaves of a match: all but the zeros before the point. -/
def withoutZeros (taken : List Char) : List Char := taken.dropLast.filter (· != '0') ++ taken.getLast?.toList

theorem withoutZeros_eq {start sign zeros : List Char} {digit : Char} (hstart : IsStart prev start)
    (hsign : sign = [] ∨ sign = ['-']) (hzeros : ∀ x ∈ zeros, x = '0') :
    withoutZeros (start ++ (sign ++ zeros) ++ '.' :: [digit]) = start ++ (sign ++ '.' :: [digit]) := by
  have hnone : zeros.filter (· != '0') = [] := List.filter_eq_nil_iff.mpr fun x hx => by simp [hzeros x hx]
  have hstart : start.filter (· != '0') = start := by
    rcases hstart with ⟨rfl, -⟩ | ⟨x, rfl, hword, -⟩
    · rfl
    · refine List.filter_eq_self.mpr (List.forall_mem_singleton.mpr (bne_iff_ne.mpr ?_))
      rintro rfl
      exact absurd hword (by decide)
  have hsign : sign.filter (· != '0') = sign := by rcases hsign with rfl | rfl <;> rfl
  have hsplit : start ++ (sign ++ zeros) ++ '.' :: [digit] = (start ++ (sign ++ zeros) ++ ['.']) ++ [digit] := by simp
  rw [withoutZeros, hsplit, List.dropLast_concat, List.getLast?_concat]
  simp [hnone, hstart, hsign]

theorem puts_leadingZero : leadingZero.Puts withoutZeros where
  exceeds := rfl
  passes := rfl
  replace := by
    intro index prev rest found hfound
    obtain ⟨_, _, -, htakes, hlabels⟩ := Match.exists_takes hfound
    obtain ⟨start, sign, zeros, digit, htext, hstart, hsign, -, hzeros, -, rfl⟩ := takes_leadingZero.mp htakes
    have hbefore : found.part 1 = start := found.part_eq_getD hlabels 1
    have hbetween : found.part 2 = sign := found.part_eq_getD hlabels 2
    have hbehind : found.part 3 = [digit] := found.part_eq_getD hlabels 3
    rw [htext, withoutZeros_eq hstart hsign hzeros]
    simp [leadingZero, hbefore, hbetween, hbehind]

theorem avoids_leadingZero : leadingZero.pattern.avoids 'a' = true := by decide

theorem exceeds_leadingZero (h : '.' ∉ text) : leadingZero.pattern.exceeds text = true := by
  simp only [leadingZero, exceeds_append, exceeds_char h, Bool.or_true, Bool.true_or]

theorem leadingZero_apply_eq_self (h : '.' ∉ text) : leadingZero.apply text = text :=
  puts_leadingZero.apply_eq_self avoids_leadingZero (exceeds_leadingZero h)

theorem cutsAt_leadingZero (hword : Text.isWord c = false) (hdigit : Text.isDecimalDigit c = false) (hpoint : c ≠ '.')
    (hdash : c ≠ '-') : CutsAt leadingZero.apply c := by
  have hzero : ∀ {zeros : List Char}, (∀ x ∈ zeros, x = '0') → c ∉ zeros := by
    rintro zeros hzeros hmem
    rw [hzeros c hmem] at hword
    cases hword
  have hinside : ∀ {sign zeros : List Char}, (sign = [] ∨ sign = ['-']) → (∀ x ∈ zeros, x = '0') →
      c ∉ sign ++ zeros ++ ['.'] := by
    rintro sign zeros (rfl | rfl) hzeros
    · simp [hzero hzeros, hpoint]
    · simp [hzero hzeros, hpoint, hdash]
  refine puts_leadingZero.cutsAt_of_endsAt avoids_leadingZero finds_leadingZero ⟨?_, ?_, ?_⟩
  · rintro prev taken ⟨start, sign, zeros, digit, rfl, hstart, hsign, -, hzeros, -⟩ hmem
    have hsplit : start ++ (sign ++ zeros) ++ '.' :: [digit] = (start ++ (sign ++ zeros ++ ['.'])) ++ [digit] := by simp
    rw [hsplit, ← List.tail_dropLast, List.dropLast_concat] at hmem
    rcases hstart with ⟨rfl, -⟩ | ⟨x, rfl, -⟩
    · exact hinside hsign hzeros (List.mem_of_mem_tail hmem)
    · exact hinside hsign hzeros hmem
  · rintro prev taken ⟨start, sign, zeros, digit, htaken, hstart, hsign, hne, hzeros, hlast⟩
    rcases hstart with ⟨rfl, -⟩ | ⟨x, rfl, -⟩
    · -- At the beginning of the text the match begins with a sign or a zero.
      have hmem : c ∈ sign ++ zeros := by
        have hhead : (sign ++ zeros).head? = some c := by
          have hne' : sign ++ zeros ≠ [] := by simp [hne]
          rw [← List.head?_append_of_ne_nil _ hne', ← List.nil_append (sign ++ zeros), ← htaken]
          rfl
        exact List.mem_of_mem_head? hhead
      exact absurd (List.mem_append_left _ hmem) (hinside hsign hzeros)
    · obtain ⟨rfl, rfl⟩ := List.cons.inj htaken
      have hstart : ∀ prev', IsStart prev' [c] := fun prev' => Or.inr ⟨c, rfl, hword, hpoint, hdash⟩
      have hkept : withoutZeros ([c] ++ (sign ++ zeros) ++ '.' :: [digit]) = [c] ++ (sign ++ '.' :: [digit]) :=
        withoutZeros_eq (hstart none) hsign hzeros
      exact ⟨fun prev' => ⟨[c], sign, zeros, digit, rfl, hstart prev', hsign, hne, hzeros, hlast⟩, _, hkept⟩
  · rintro prev taken ⟨start, sign, zeros, digit, htaken, -, -, -, -, hlast⟩
    have hsplit : start ++ (sign ++ zeros) ++ '.' :: [digit] = (start ++ (sign ++ zeros) ++ ['.']) ++ [digit] := by simp
    rw [hsplit] at htaken
    obtain ⟨-, hend⟩ := List.append_inj' htaken rfl
    obtain rfl := (List.cons.inj hend).1
    rw [hlast] at hdigit
    cases hdigit

/-! ### Font weights -/

/-- What the rule leaves of a match: a number in the place of the name at its end. -/
def weighed (taken : List Char) : List Char :=
  if (taken.drop (taken.length - 4)).map Char.toLower = "bold".toList then taken.take (taken.length - 4) ++ "700".toList
  else taken.take (taken.length - 6) ++ "400".toList

theorem weighed_bold {front weight : List Char} (h : weight.map Char.toLower = "bold".toList) :
    weighed (front ++ weight) = front ++ "700".toList := by
  have hlength : weight.length = 4 := by simpa using congrArg List.length h
  have hsplit : (front ++ weight).length - 4 = front.length := by simp [hlength]
  rw [weighed, hsplit, List.drop_left, List.take_left, if_pos h]

theorem weighed_normal {front weight : List Char} (h : weight.map Char.toLower = "normal".toList) :
    weighed (front ++ weight) = front ++ "400".toList := by
  have hlength : weight.length = 6 := by simpa using congrArg List.length h
  have hsplit : (front ++ weight).length - 6 = front.length := by simp [hlength]
  have hlast : (front ++ weight).length - 4 = front.length + 2 := by
    rw [List.length_append, hlength]
    omega
  have hend : (weight.drop 2).map Char.toLower = "rmal".toList := by
    rw [List.map_drop, h]
    rfl
  rw [weighed, hlast, List.drop_length_add_append, hend, if_neg (by decide), hsplit, List.take_left]

theorem puts_fontWeight : fontWeight.Puts weighed where
  exceeds := by decide
  passes := rfl
  replace := by
    intro index prev rest found hfound
    obtain ⟨front, weight, htext, hbefore, hname, hweight⟩ := exists_of_matchAt_fontWeight hfound
    have hreplace : fontWeight.replace found = found.part 1 ++
      if (found.part 2).map Char.toLower = ['b', 'o', 'l', 'd'] then ['7', '0', '0'] else ['4', '0', '0'] := rfl
    rw [hreplace, hbefore, hname, htext]
    rcases hweight with hbold | hnormal
    · rw [weighed_bold hbold, hbold, if_pos (by decide)]
      rfl
    · rw [weighed_normal hnormal, hnormal, if_neg (by decide)]
      rfl

theorem fontWeight_apply_eq_self (h : ':' ∉ text) : fontWeight.apply text = text := by
  have hother : fontWeight.pattern.avoids 'z' = true := by decide
  refine puts_fontWeight.apply_eq_self hother ?_
  simp only [fontWeight, exceeds_append, exceeds_part, exceeds_char h, Bool.or_true, Bool.true_or]

/-! ### Edges -/

/-- What may stand next to the selector of a keyframe, or next to its sign: a brace, a comma, and an end of a comment that
is kept. -/
def selectorEdges : List Char := ['\x7b', '\x7d', ',', '+', Placeholder.opening, Placeholder.closing]

theorem isBlank_of_mem_edges : ∀ c ∈ selectorEdges, Text.isBlank c = false := Text.forall_mem_of_all (by decide)

theorem of_edge (hc : c ∈ selectorEdges ∨ Text.isBlank c = true) :
    Text.isWord c = false ∧ Text.isDecimalDigit c = false ∧ c ≠ '.' ∧ c ≠ '-' := by
  have hedges : ∀ c ∈ selectorEdges,
      Text.isWord c = false ∧ Text.isDecimalDigit c = false ∧ c ≠ '.' ∧ c ≠ '-' :=
    Text.forall_mem_of_all (by decide +kernel)
  rcases hc with hc | hc
  · exact hedges c hc
  · refine ⟨Text.isWord_of_isBlank hc, Text.isDecimalDigit_of_isBlank hc, ?_, ?_⟩
    · rintro rfl
      cases hc
    · rintro rfl
      cases hc

theorem not_mem_of_isZeroLength (hc : c ∈ selectorEdges) (zero : List Char) (h : isZeroLength zero = true) : c ∉ zero := by
  have hsign : '%' ∉ selectorEdges := by decide
  obtain ⟨hword, -, hpoint, -⟩ := of_edge (Or.inl hc)
  intro hmem
  rcases isWord_of_isZeroLength h c hmem with hword' | rfl | rfl
  · exact Bool.false_ne_true (hword.symm.trans hword')
  · exact hpoint rfl
  · exact hsign hc

/-- The rule for zeros before a point takes no more than what stands before these of a blank or an edge. -/
theorem cutsAt_leadingZero_of_edge (hc : c ∈ selectorEdges ∨ Text.isBlank c = true) : CutsAt leadingZero.apply c := by
  obtain ⟨hword, hdigit, hpoint, hdash⟩ := of_edge hc
  exact cutsAt_leadingZero hword hdigit hpoint hdash

/-! ### Percentages -/

/-- A number without a sign: digits, and maybe more of them behind a point. -/
structure IsNumber (whole places : List Char) : Prop where
  ne_nil : whole ++ places ≠ []
  isDigit : ∀ x ∈ whole, x.isDigit = true
  exists_digits : places = [] ∨ ∃ digits, places = '.' :: digits ∧ digits ≠ [] ∧ ∀ x ∈ digits, x.isDigit = true

/-- A number without zeros before its point. -/
def pointed (whole places : List Char) : List Char :=
  if places ≠ [] ∧ whole.all (· == '0') = true then places else whole ++ places

variable {e f : Char} {whole places before front front' rest rest' : List Char}

/-- The only place of a character parts a text in one way. -/
theorem eq_of_append_cons_eq (hfront : c ∉ front) (hrest : c ∉ rest) (h : front ++ c :: rest = front' ++ c :: rest') :
    front = front' := by
  rcases List.append_eq_append_iff.mp h with ⟨more, rfl, hmore⟩ | ⟨more, rfl, hmore⟩
  · cases more with
    | nil => simp
    | cons y more =>
      obtain ⟨rfl, rfl⟩ := List.cons.inj hmore
      exact absurd (by simp) hrest
  · cases more with
    | nil => simp
    | cons y more =>
      obtain ⟨rfl, -⟩ := List.cons.inj hmore
      exact absurd (by simp) hfront

theorem ne_of_isDigit {x : Char} (h : x.isDigit = true) {y : Char} (hy : y.isDigit = false) : x ≠ y := by
  rintro rfl
  rw [h] at hy
  cases hy

theorem point_not_mem_of_isDigit (h : ∀ x ∈ whole, x.isDigit = true) : '.' ∉ whole :=
  fun hmem => ne_of_isDigit (h _ hmem) (by decide) rfl

/-- Behind an edge, zeros before a point go if a digit stands behind it. -/
theorem leadingZero_apply_zeros {x : Char} (he : IsStart none [e]) (hne : whole ≠ []) (hzeros : ∀ y ∈ whole, y = '0')
    (hx : x.isDigit = true) (hrest : '.' ∉ rest) :
    leadingZero.apply (e :: (whole ++ '.' :: x :: rest)) = e :: '.' :: x :: rest := by
  have htaken : leadingZero.pattern.taken? none (e :: (whole ++ '.' :: x :: rest)) =
      some ([e] ++ ([] ++ whole) ++ '.' :: [x]) :=
    finds_leadingZero.mpr ⟨⟨[e], [], whole, x, rfl, he, Or.inl rfl, hne, hzeros,
      Placeholder.isDecimalDigit_of_isDigit hx⟩, rest, by simp⟩
  have hhit : leadingZero.pattern.Rewrites withoutZeros none (e :: (whole ++ '.' :: x :: rest))
      (withoutZeros ([e] ++ ([] ++ whole) ++ '.' :: [x]) ++ rest) :=
    .hit htaken (by simp) (by simp) (.of_exceeds (exceeds_leadingZero hrest))
  rw [withoutZeros_eq he (Or.inl rfl) hzeros] at hhit
  refine (puts_leadingZero.rewrites_apply avoids_leadingZero _).unique ?_
  simpa using hhit

/-- Behind an edge, a number stays if something else than zeros stands before its point. -/
theorem leadingZero_apply_of_not_zeros (he : e ∈ selectorEdges ∨ Text.isBlank e = true)
    (hdigits : ∀ x ∈ whole, x.isDigit = true) (hzeros : ¬ (whole ≠ [] ∧ ∀ y ∈ whole, y = '0')) (hrest : '.' ∉ rest) :
    leadingZero.apply (e :: (whole ++ '.' :: rest)) = e :: (whole ++ '.' :: rest) := by
  obtain ⟨hword, -, hpoint, hdash⟩ := of_edge he
  have hwhole : '.' ∉ e :: whole :=
    List.not_mem_cons_of_ne_of_not_mem hpoint.symm (point_not_mem_of_isDigit hdigits)
  refine (puts_leadingZero.rewrites_apply avoids_leadingZero _).unique ?_
  refine .of_forall_ne fun before behind taken hsplit htaken => ?_
  obtain ⟨⟨start, sign, zeros, digit, rfl, hstart, hsign, hne, hall, -⟩, rest, rfl⟩ := finds_leadingZero.mp htaken
  -- The number has one point, so all before it is read by the match or stands before the match.
  have hsame : e :: whole = before ++ (start ++ (sign ++ zeros)) :=
    eq_of_append_cons_eq hwhole hrest (by simpa using hsplit)
  rcases List.cons_eq_append_iff.mp hsame with ⟨rfl, hmatch⟩ | ⟨before, rfl, hbefore⟩
  · rcases hstart with ⟨rfl, -⟩ | ⟨y, rfl, -⟩
    · rcases hsign with rfl | rfl
      · have hzero : e = '0' := hall e (by simp [show zeros = e :: whole from hmatch])
        rw [hzero] at hword
        exact absurd hword (by decide)
      · exact absurd (List.cons.inj hmatch).1.symm hdash
    · obtain ⟨-, rfl⟩ := List.cons.inj hmatch
      rcases hsign with rfl | rfl
      · exact hzeros ⟨hne, hall⟩
      · exact absurd (hdigits '-' (by simp)) (by decide)
  · rcases hstart with ⟨-, hnone⟩ | ⟨y, rfl, hword', -⟩
    · simp at hnone
    · rw [Text.isWord_of_isDigit (hdigits y (by simp [hbefore]))] at hword'
      cases hword'

theorem pointed_of_not_zeros (h : ¬ (whole ≠ [] ∧ ∀ y ∈ whole, y = '0')) : pointed whole places = whole ++ places := by
  unfold pointed
  split
  · rename_i hall
    have hnil : whole = [] := by_contra fun hne =>
      h ⟨hne, fun y hy => beq_iff_eq.mp (List.all_eq_true.mp hall.2 y hy)⟩
    rw [hnil, List.nil_append]
  · rfl

/-- Between two edges the rule leaves a number without zeros before its point. -/
theorem leadingZero_apply_number (hnumber : IsNumber whole places) (he : e ∈ selectorEdges ∨ Text.isBlank e = true)
    (hf : f ∈ selectorEdges ∨ Text.isBlank f = true) :
    leadingZero.apply (e :: (whole ++ places ++ ['%'] ++ [f])) = e :: (pointed whole places ++ ['%'] ++ [f]) := by
  obtain ⟨hword, -, hpoint, hdash⟩ := of_edge he
  obtain ⟨-, -, hpoint', -⟩ := of_edge hf
  rcases hnumber.exists_digits with rfl | ⟨digits, rfl, hne, hdigits⟩
  · have hwhole : '.' ∉ whole := point_not_mem_of_isDigit hnumber.isDigit
    have hnone : '.' ∉ e :: (whole ++ [] ++ ['%'] ++ [f]) := by simp [hpoint.symm, hpoint'.symm, hwhole]
    rw [leadingZero_apply_eq_self hnone, pointed, if_neg (by simp)]
  · obtain ⟨x, digits, rfl⟩ := List.exists_cons_of_ne_nil hne
    have hrest : '.' ∉ x :: (digits ++ ['%'] ++ [f]) := by
      have hnone := point_not_mem_of_isDigit hdigits
      rw [List.mem_cons, not_or] at hnone
      simp [hnone, hpoint'.symm]
    by_cases hzeros : whole ≠ [] ∧ ∀ y ∈ whole, y = '0'
    · have hleft := leadingZero_apply_zeros (Or.inr ⟨e, rfl, hword, hpoint, hdash⟩) hzeros.1 hzeros.2
        (hdigits x List.mem_cons_self) (List.not_mem_of_not_mem_cons hrest)
      rw [pointed, if_pos ⟨by simp, List.all_eq_true.mpr fun y hy => beq_iff_eq.mpr (hzeros.2 y hy)⟩]
      simpa using hleft
    · have hleft := leadingZero_apply_of_not_zeros he hnumber.isDigit hzeros hrest
      rw [pointed_of_not_zeros hzeros]
      simpa using hleft

/-- A text of blanks and edges has no number in it. -/
theorem leadingZero_apply_of_edges (h : ∀ x ∈ text, x ∈ selectorEdges ∨ Text.isBlank x = true) :
    leadingZero.apply text = text :=
  leadingZero_apply_eq_self fun hmem => (of_edge (h _ hmem)).2.2.1 rfl

/-- So blanks around a word change nothing of what the rule does to it. -/
theorem bridges_leadingZero (hc : c ∈ selectorEdges) (hd : d ∈ selectorEdges)
    (hbefore : ∀ x ∈ before, Text.isBlank x = true) (hbehind : ∀ x ∈ behind, Text.isBlank x = true)
    {word word' : List Char}
    (hword : ∀ e f, (e ∈ selectorEdges ∨ Text.isBlank e = true) → (f ∈ selectorEdges ∨ Text.isBlank f = true) →
      leadingZero.apply (e :: (word ++ [f])) = e :: (word' ++ [f])) :
    Bridges leadingZero.apply c d (before ++ (word ++ behind)) (before ++ (word' ++ behind)) := by
  refine (cutsAt_leadingZero_of_edge (Or.inl hc)).bridges (cutsAt_leadingZero_of_edge (Or.inl hd)) ?_
  obtain ⟨left, e, hleft⟩ := (List.eq_nil_or_concat' (c :: before)).resolve_left (List.cons_ne_nil c before)
  obtain ⟨f, right, hright⟩ := List.exists_cons_of_ne_nil (show behind ++ [d] ≠ [] by simp)
  have hleft' : ∀ x ∈ left ++ [e], x ∈ selectorEdges ∨ Text.isBlank x = true :=
    hleft ▸ List.forall_mem_cons.mpr ⟨Or.inl hc, fun x hx => Or.inr (hbefore x hx)⟩
  have hright' : ∀ x ∈ f :: right, x ∈ selectorEdges ∨ Text.isBlank x = true := hright ▸
    List.forall_mem_append.mpr ⟨fun x hx => Or.inr (hbehind x hx), List.forall_mem_singleton.mpr (Or.inl hd)⟩
  have he := hleft' e (by simp)
  have hf := hright' f List.mem_cons_self
  have hbridges : Bridges leadingZero.apply e f word word' :=
    (cutsAt_leadingZero_of_edge he).bridges (cutsAt_leadingZero_of_edge hf) (hword e f he hf)
  obtain ⟨hwhole, -⟩ := hbridges left right
  have hsplit : left ++ e :: (word ++ f :: right) = c :: (before ++ (word ++ behind) ++ [d]) := by
    rw [List.append_cons, ← hleft, ← hright]
    simp
  rw [← hsplit, hwhole, leadingZero_apply_of_edges hleft', leadingZero_apply_of_edges hright', ← hleft, ← hright]
  simp

/-- What becomes of a percentage as it stands between two edges. A zero that the rule for units finds between two
separators is bared, and any other keeps its sign. -/
def percentage (whole places : List Char) (c d : Char) (before behind : List Char) : List Char :=
  if isZeroLength (whole ++ places ++ ['%']) ∧ (before ≠ [] ∨ opens c = true) ∧ (behind ≠ [] ∨ closes d = true) then ['0']
  else pointed whole places ++ ['%']

theorem not_mem_around {word : List Char} {y : Char} (hc : c ∈ selectorEdges) (hd : d ∈ selectorEdges)
    (hbefore : ∀ x ∈ before, Text.isBlank x = true) (hbehind : ∀ x ∈ behind, Text.isBlank x = true)
    (hy : y ∉ selectorEdges) (hblank : Text.isBlank y = false) (hword : y ∉ word) :
    y ∉ c :: (before ++ (word ++ behind) ++ [d]) := by
  have hnone : ∀ {blanks : List Char}, (∀ x ∈ blanks, Text.isBlank x = true) → y ∉ blanks := by
    intro blanks hblanks hmem
    rw [hblanks y hmem] at hblank
    cases hblank
  simp [hnone hbefore, hnone hbehind, hword, (ne_of_mem_of_not_mem hc hy).symm, (ne_of_mem_of_not_mem hd hy).symm]

/-- What holds of digits and points holds of the characters of a number. -/
theorem IsNumber.forall {property : Char → Prop} (hnumber : IsNumber whole places)
    (hdigit : ∀ x : Char, x.isDigit = true → property x) (hpoint : property '.') : ∀ x ∈ whole ++ places, property x := by
  refine List.forall_mem_append.mpr ⟨fun x hx => hdigit x (hnumber.isDigit x hx), ?_⟩
  rcases hnumber.exists_digits with rfl | ⟨digits, rfl, -, hdigits⟩
  · exact List.forall_mem_nil _
  · exact List.forall_mem_cons.mpr ⟨hpoint, fun x hx => hdigit x (hdigits x hx)⟩

theorem IsNumber.not_mem {y : Char} (hnumber : IsNumber whole places) (hdigit : y.isDigit = false) (hpoint : y ≠ '.') :
    y ∉ whole ++ places := fun hmem =>
  hnumber.forall (fun _ hx => ne_of_isDigit hx hdigit) hpoint.symm y hmem rfl

theorem IsNumber.isBlank (hnumber : IsNumber whole places) : ∀ x ∈ whole ++ places, Text.isBlank x = false :=
  hnumber.forall (fun _ hx => Bool.eq_false_iff.mpr (Text.not_isBlank_of_isWord (Text.isWord_of_isDigit hx))) rfl

theorem IsNumber.inner (hnumber : IsNumber whole places) : ∀ x ∈ whole ++ places, inner x = true := by
  refine hnumber.forall (fun x hx => ?_) rfl
  have hne : ∀ y : Char, y.isDigit = false → x ≠ y := fun y hy => ne_of_isDigit hx hy
  have hblank := Text.not_isBlank_of_isWord (Text.isWord_of_isDigit hx)
  simp [Style.inner, separates, opens, closes, hblank, hne]

theorem forall_percentage {property : Char → Prop} (h : ∀ x ∈ whole ++ places, property x) (hsign : property '%') :
    ∀ x ∈ whole ++ places ++ ['%'], property x :=
  List.forall_mem_append.mpr ⟨h, List.forall_mem_singleton.mpr hsign⟩

theorem mem_pointed {x : Char} (h : x ∈ pointed whole places) : x ∈ whole ++ places := by
  unfold pointed at h
  split at h
  · exact List.mem_append_right whole h
  · exact h

theorem not_mem_percentage {y : Char} (hnumber : IsNumber whole places) (hdigit : y.isDigit = false) (hpoint : y ≠ '.')
    (hsign : y ≠ '%') : y ∉ percentage whole places c d before behind := by
  unfold percentage
  split
  · rw [List.mem_singleton]
    rintro rfl
    cases hdigit
  · refine List.not_mem_append (fun hmem => ?_) (List.not_mem_cons_of_ne_of_not_mem hsign List.not_mem_nil)
    exact hnumber.not_mem hdigit hpoint (mem_pointed hmem)

/-- The rules for numbers and for the end of a block make of a percentage between two edges what the one for units and the
one for zeros make of it. -/
theorem bridges_numeric (hc : c ∈ selectorEdges) (hd : d ∈ selectorEdges) (hnumber : IsNumber whole places)
    (hbefore : ∀ x ∈ before, Text.isBlank x = true) (hbehind : ∀ x ∈ behind, Text.isBlank x = true) :
    Bridges (Pipeline.run [semicolonBrace, zeroUnits, leadingZero, fontWeight]) c d
      (before ++ (whole ++ places ++ ['%'] ++ behind)) (before ++ (percentage whole places c d before behind ++ behind)) := by
  have hcuts : ∀ {c}, c ∈ selectorEdges → CutsAt semicolonBrace.apply c ∧ CutsAt fontWeight.apply c := by
    intro c hc
    have hedges : ∀ c ∈ selectorEdges, c ≠ ';' ∧ fontWeight.pattern.avoids c = true :=
      Text.forall_mem_of_all (by decide)
    exact ⟨cutsAt_semicolonBrace (hedges c hc).1 (isBlank_of_mem_edges c hc), puts_fontWeight.cutsAt (hedges c hc).2⟩
  have hsemicolon : ';' ∉ whole ++ places ++ ['%'] := by
    simpa using hnumber.not_mem (by decide) (by decide)
  have hcolon : ':' ∉ percentage whole places c d before behind :=
    not_mem_percentage hnumber (by decide) (by decide) (by decide)
  have hbrace := (hcuts hc).1.bridges (hcuts hd).1 (semicolonBrace_apply_eq_self
    (not_mem_around hc hd hbefore hbehind (by decide) (by decide) hsemicolon))
  have hweight := (hcuts hc).2.bridges (hcuts hd).2 (fontWeight_apply_eq_self
    (not_mem_around hc hd hbefore hbehind (by decide) (by decide) hcolon))
  have hunits := bridges_zeroUnits (not_mem_of_isZeroLength hc) (not_mem_of_isZeroLength hd) (forall_percentage hnumber.inner rfl)
    hbefore hbehind
  refine hbrace.pipeline_cons (hunits.pipeline_cons (Bridges.pipeline_cons ?_ (hweight.pipeline_cons (.pipeline_nil c d _))))
  unfold percentage
  split
  · refine bridges_leadingZero hc hd hbefore hbehind fun e f he hf => ?_
    refine leadingZero_apply_eq_self ?_
    simp [(of_edge he).2.2.1.symm, (of_edge hf).2.2.1.symm]
  · exact bridges_leadingZero hc hd hbefore hbehind fun e f he hf => leadingZero_apply_number hnumber he hf

variable {content : String} {masked : MaskedText} {left right : List Char}

theorem bridges_percentage (haggressive : options.isAggressive = true) (hc : c ∈ selectorEdges) (hd : d ∈ selectorEdges)
    (hnumber : IsNumber whole places) (hbefore : ∀ x ∈ before, Text.isBlank x = true)
    (hbehind : ∀ x ∈ behind, Text.isBlank x = true) :
    ∃ before' behind', (∀ x ∈ before', Text.isBlank x = true) ∧ (∀ x ∈ behind', Text.isBlank x = true) ∧
      (before' ≠ [] ↔ KeepsGap options (c ∈ punctuationMarks) before) ∧
      (behind' ≠ [] ↔ KeepsGap options (d ∈ punctuationMarks) behind) ∧
      Bridges (pipeline options).run c d (before ++ (whole ++ places ++ ['%'] ++ behind))
        (before' ++ (percentage whole places c d before' behind' ++ behind')) := by
  obtain ⟨e, more, hfirst⟩ := List.exists_cons_of_ne_nil hnumber.ne_nil
  have hfirst' : whole ++ places ++ ['%'] = e :: (more ++ ['%']) := by rw [hfirst, List.cons_append]
  have hword : ∀ x ∈ whole ++ places ++ ['%'], Text.isBlank x = false := forall_percentage hnumber.isBlank rfl
  have hmark : e ∉ punctuationMarks := by
    have hmarks : ∀ mark ∈ punctuationMarks, mark.isDigit = false := Text.forall_mem_of_all (by decide)
    have hnone : ∀ x ∈ whole ++ places, x ∉ punctuationMarks :=
      hnumber.forall (fun x hx hmem => ne_of_isDigit hx (hmarks x hmem) rfl) (by decide)
    exact hnone e (by simp [hfirst])
  have he : Text.isBlank e = false := hword e (by simp [hfirst])
  obtain ⟨before', hspaced, hblank, hkept⟩ := exists_bridges_spacing (isBlank_of_mem_edges c hc) he hbefore
  obtain ⟨behind', hspaced', hblank', hkept'⟩ := exists_bridges_spacing (by decide : Text.isBlank '%' = false) (isBlank_of_mem_edges d hd) hbehind
  have hsign : '%' ∉ punctuationMarks := by decide
  refine ⟨before', behind', hblank, hblank', by simpa [hmark] using hkept, by simpa [hsign] using hkept', ?_⟩
  rw [pipeline_eq haggressive]
  have hspacing := (editsBlanks_spacing options).bridges_word hfirst' rfl hword hspaced hspaced'
  exact (hspacing.pipeline_append (bridges_numeric hc hd hnumber hblank hblank')).pipeline_append
    ((Spacing.bridges_trimEnds (isBlank_of_mem_edges c hc) (isBlank_of_mem_edges d hd)).pipeline_cons (.pipeline_nil c d _))

theorem unreserved_percentage (hnumber : IsNumber whole places) :
    Unreserved (percentage whole places c d before behind) :=
  ⟨not_mem_percentage hnumber (by decide) (by decide) (by decide),
    not_mem_percentage hnumber (by decide) (by decide) (by decide)⟩

/-- Before an edge that closes nothing, a blank or the sign is left. -/
theorem exists_not_isDigit (whole places : List Char) (c : Char) (before : List Char)
    (hbehind : ∀ x ∈ behind, Text.isBlank x = true) (hd : closes d = false) :
    ∃ x ∈ percentage whole places c d before behind ++ behind, x.isDigit = false := by
  cases behind with
  | nil =>
    have hsign : percentage whole places c d before [] = pointed whole places ++ ['%'] := if_neg (by simp [hd])
    exact ⟨'%', by simp [hsign], rfl⟩
  | cons x behind => exact ⟨x, by simp, Text.isDigit_of_isBlank (hbehind x List.mem_cons_self)⟩

/-- A percentage between two edges, with blanks around it or not, is left with its sign, unless it is a zero that comes
to stand between two separators: behind a comma or a blank that is kept, and before one of these. So what is kept of the
blanks decides. Right behind a brace or right before an opening one even a zero keeps its sign. -/
theorem exists_minify_percentage (haggressive : options.isAggressive = true)
    (hmask : MaskedText.mask lexer options.removeComments content.toList = .ok masked)
    (htext : masked.text = left ++ c :: (before ++ (whole ++ places ++ ['%'] ++ (behind ++ d :: right))))
    (hc : c ∈ selectorEdges) (hd : d ∈ selectorEdges) (hnumber : IsNumber whole places)
    (hbefore : ∀ x ∈ before, Text.isBlank x = true) (hbehind : ∀ x ∈ behind, Text.isBlank x = true) :
    (minifyStyle content options).errors = [] ∧
      ∃ before' behind', (∀ x ∈ before', Text.isBlank x = true) ∧ (∀ x ∈ behind', Text.isBlank x = true) ∧
        (before' ≠ [] ↔ KeepsGap options (c ∈ punctuationMarks) before) ∧
        (behind' ≠ [] ↔ KeepsGap options (d ∈ punctuationMarks) behind) ∧
        (minifyStyle content options).minified.toList = masked.unmask ((pipeline options).run (left ++ [c])) ++
          (before' ++ (percentage whole places c d before' behind' ++
            (behind' ++ masked.unmask ((pipeline options).run (d :: right))))) := by
  obtain ⟨before', behind', hblank, hblank', hkept, hkept', hbridges⟩ :=
    bridges_percentage haggressive hc hd hnumber hbefore hbehind
  obtain ⟨hwhole, -, more, hmore⟩ := hbridges left right
  have hleft : masked.text ≠ [] := by simp [htext]
  have hsplit : masked.text = left ++ c :: (before ++ (whole ++ places ++ ['%'] ++ behind) ++ d :: right) := by
    simp [htext]
  have hclean : Unreserved (before' ++ (percentage whole places c d before' behind' ++ behind')) :=
    unreserved_append.mpr ⟨Text.unreserved_of_blank hblank, unreserved_append.mpr
      ⟨unreserved_percentage hnumber, Text.unreserved_of_blank hblank'⟩⟩
  have hcut : (minifyStyle content options).errors = [] ∧ (minifyStyle content options).minified.toList =
      masked.unmask ((pipeline options).run (left ++ [c])) ++
        (before' ++ (percentage whole places c d before' behind' ++ behind') ++
          masked.unmask ((pipeline options).run (d :: right))) := by
    by_cases hcloses : closes d = true
    · have hedges : ∀ d ∈ selectorEdges, closes d = true → Unreserved [d] ∧ d.isDigit = false :=
        Text.forall_mem_of_all (by decide)
      obtain ⟨hclean', hdigit⟩ := hedges d hd hcloses
      have hpiece : Clear ([] ++ (before' ++ (percentage whole places c d before' behind' ++ behind') ++ [d])) :=
        ⟨unreserved_append.mpr ⟨unreserved_nil, unreserved_append.mpr ⟨hclean, hclean'⟩⟩, d, by simp, hdigit⟩
      have hrun : (pipeline options).run masked.text = (pipeline options).run (left ++ [c]) ++
          ([] ++ (before' ++ (percentage whole places c d before' behind' ++ behind') ++ ([d] ++ more))) := by
        rw [hsplit, hwhole, hmore]
        simp
      simpa [hmore] using minified_around hmask hleft hrun hpiece
    · obtain ⟨x, hx, hdigit⟩ := exists_not_isDigit whole places c before' hblank' (Bool.eq_false_iff.mpr hcloses)
      have hpiece : Clear ([] ++ (before' ++ (percentage whole places c d before' behind' ++ behind') ++ [])) :=
        ⟨by simpa using hclean, x, by simp [List.mem_append.mp hx], hdigit⟩
      have hrun : (pipeline options).run masked.text = (pipeline options).run (left ++ [c]) ++
          ([] ++ (before' ++ (percentage whole places c d before' behind' ++ behind') ++ ([] ++ d :: more))) := by
        rw [hsplit, hwhole, hmore]
        simp
      simpa [hmore] using minified_around hmask hleft hrun hpiece
  exact ⟨hcut.1, before', behind', hblank, hblank', hkept, hkept', by simpa using hcut.2⟩

/-- Keyframes with a zero in the middle of a list of selectors. -/
def keyframes : String := "@keyframes f \x7b 50%, 0%, 100% \x7b top: 1px \x7d \x7d"

theorem exists_minify_percentage_keyframes :
    MaskedText.mask lexer true keyframes.toList = .ok ⟨keyframes.toList, #[]⟩ ∧
      (minifyStyle keyframes { level := .aggressive }).errors = [] ∧
      ∃ before' behind', (before' ≠ [] ↔ KeepsGap { level := .aggressive } (',' ∈ punctuationMarks) [' ']) ∧
        (minifyStyle keyframes { level := .aggressive }).minified.toList =
          MaskedText.unmask ⟨keyframes.toList, #[]⟩
              ((pipeline { level := .aggressive }).run "@keyframes f \x7b 50%,".toList) ++
            (before' ++ (percentage ['0'] [] ',' ',' before' behind' ++ (behind' ++
              MaskedText.unmask ⟨keyframes.toList, #[]⟩
                ((pipeline { level := .aggressive }).run ", 100% \x7b top: 1px \x7d \x7d".toList)))) := by
  have hmask : MaskedText.mask lexer (Options.removeComments { level := .aggressive }) keyframes.toList =
      .ok ⟨keyframes.toList, #[]⟩ := by decide +kernel
  have htext : keyframes.toList = "@keyframes f \x7b 50%".toList ++ ',' ::
      ([' '] ++ (['0'] ++ [] ++ ['%'] ++ ([] ++ ',' :: " 100% \x7b top: 1px \x7d \x7d".toList))) := by decide +kernel
  have hnumber : IsNumber ['0'] [] := ⟨by decide, List.forall_mem_singleton.mpr rfl, Or.inl rfl⟩
  obtain ⟨herrors, before', behind', -, -, hkept, -, hminified⟩ :=
    exists_minify_percentage rfl hmask htext (by decide) (by decide) hnumber (List.forall_mem_singleton.mpr rfl)
      (List.forall_mem_nil _)
  exact ⟨hmask, herrors, before', behind', hkept, hminified⟩

/-- A zero between two commas loses its sign, and so does one with a blank before it or behind it where blanks stay. -/
theorem minifyStyle_keyframes :
    minifyStyle keyframes { level := .aggressive } = .ofTexts keyframes "@keyframes f\x7b50%,0,100%\x7btop:1px\x7d\x7d" [] ∧
      (minifyStyle "@keyframes f \x7b\n0%, 50% \x7b top: 1px \x7d\n\x7d"
        { level := .aggressive, preserveLineBreaks := true }).minified =
          "@keyframes f\x7b\n0,50%\x7btop:1px\x7d\n\x7d" ∧
      (minifyStyle "@keyframes f \x7b 0% \x7b top: 1px \x7d \x7d"
        { level := .aggressive, removeWhitespace := false }).minified =
          "@keyframes f \x7b 0 \x7b top: 1px \x7d \x7d" := by
  decide +kernel

end Style

end Minifier
