import Minifier.Proofs.Masking.Blanks
import Minifier.Proofs.Minify.Literals
import Minifier.Proofs.Rule.Gaps

/-!
The ends of tags in a minified document. Every rule for markup cuts at an equals sign and at the end of a tag, so what
becomes of a value without quotes is told by what stands between these two.
-/

namespace Minifier.Markup

open Pattern

variable {options : Options} {prev : Option Char} {c : Char} {text taken behind blanks : List Char}

/-! ### Blanks between two tags -/

/-- A rule that drops blanks between two tags. -/
def betweenTags (name : String) (accepts : Char → Bool) : Rule where
  name := name
  pattern := char '>' ++ run1 accepts ++ char '<'
  replace _ := ['>', '<']

/-- A bracket that closes, blanks, and a bracket that opens. -/
def IsBetweenTags (accepts : Char → Bool) (taken : List Char) : Prop :=
  ∃ blanks, taken = '>' :: (blanks ++ ['<']) ∧ blanks ≠ [] ∧ ∀ x ∈ blanks, accepts x = true

section Between

variable {name : String} {accepts : Char → Bool}

theorem not_mem_of_accepts (hall : ∀ x ∈ blanks, accepts x = true) (hc : accepts c = false) : c ∉ blanks := by
  intro hmem
  rw [hall c hmem] at hc
  cases hc

theorem finds_betweenTags (haccepts : accepts '<' = false) :
    (betweenTags name accepts).pattern.Finds fun _ => IsBetweenTags accepts := by
  refine @Finds.of_unique (betweenTags name accepts).pattern (fun _ => IsBetweenTags accepts) ?_ ?_ ?_
  · rintro prev taken behind parts ⟨_, _, _, _, ⟨_, blanks, _, _, hopen, hblanks, rfl, -⟩, hclose, rfl, -⟩
    obtain ⟨rfl, -⟩ := (takes_char '>').mp hopen
    obtain ⟨rfl, -⟩ := (takes_char '<').mp hclose
    obtain ⟨hne, hall, -⟩ := (takes_run1 _).mp hblanks
    exact ⟨blanks, by simp, hne, hall⟩
  · rintro prev taken behind ⟨blanks, rfl, hne, hall⟩
    exact ⟨[], '>' :: blanks, ['<'], [], [], ⟨['>'], blanks, [], [], (takes_char '>').mpr ⟨rfl, rfl⟩,
      (takes_run1 _).mpr ⟨hne, hall, rfl⟩, rfl, rfl⟩, (takes_char '<').mpr ⟨rfl, rfl⟩, rfl, rfl⟩
  · rintro prev taken taken' text ⟨blanks, rfl, -, hall⟩ ⟨blanks', rfl, -, hall'⟩ h h'
    have hnone : ∀ {blanks : List Char}, (∀ x ∈ blanks, accepts x = true) → '<' ∉ '>' :: blanks := fun hall =>
      List.not_mem_cons_of_ne_of_not_mem (by decide) (not_mem_of_accepts hall haccepts)
    rw [← List.cons_append] at h h' ⊢
    rw [← List.cons_append]
    exact eq_of_prefix (hnone hall) (hnone hall') rfl h h'

theorem puts_betweenTags : (betweenTags name accepts).Puts fun _ => ['>', '<'] where
  exceeds := rfl
  passes := rfl
  replace _ := rfl

theorem avoids_betweenTags (hc : accepts c = false) (hopen : c ≠ '<') (hclose : c ≠ '>') :
    (betweenTags name accepts).pattern.avoids c = true := by
  have hunfold : (betweenTags name accepts).pattern.avoids c =
      ((!(c == '>') && (!accepts c && !accepts c)) && !(c == '<')) := rfl
  rw [hunfold, hc, beq_eq_false_iff_ne.mpr hopen, beq_eq_false_iff_ne.mpr hclose]
  rfl

/-- The end of a tag stays where it is. -/
theorem cutsAt_betweenTags {other : Char} (hother : (betweenTags name accepts).pattern.avoids other = true)
    (hopen : accepts '<' = false) (hclose : accepts '>' = false) : CutsAt (betweenTags name accepts).apply '>' := by
  refine puts_betweenTags.cutsAt_of_endsAt hother (finds_betweenTags hopen) ⟨?_, ?_, ?_⟩
  · rintro prev taken ⟨blanks, rfl, -, hall⟩
    rw [List.tail_cons, List.dropLast_concat]
    exact not_mem_of_accepts hall hclose
  · exact fun h => ⟨fun _ => h, ['<'], rfl⟩
  · rintro prev taken ⟨blanks, htaken, -, -⟩
    rw [← List.cons_append] at htaken
    obtain ⟨-, hlast⟩ := List.append_inj' htaken rfl
    exact absurd (List.cons.inj hlast).1 (by decide)

end Between

/-! ### Blanks before the end of a tag -/

/-- Spaces, tabs and line feeds, and the end of a tag. -/
def IsTagEnd (taken : List Char) : Prop :=
  ∃ blanks slash, taken = blanks ++ slash ++ ['>'] ∧ blanks ≠ [] ∧
    (∀ x ∈ blanks, Class.among [' ', '\t', '\n'] x = true) ∧ (slash = [] ∨ slash = ['/'])

theorem not_mem_of_isTagEnd {slash : List Char} (hall : ∀ x ∈ blanks, Class.among [' ', '\t', '\n'] x = true)
    (hslash : slash = [] ∨ slash = ['/']) : '>' ∉ blanks ++ slash := by
  have hblanks : '>' ∉ blanks := not_mem_of_accepts hall rfl
  rcases hslash with rfl | rfl
  · simpa using hblanks
  · simpa using hblanks

theorem takes_tagCloseSpace {parts : Parts} : tagCloseSpace.pattern.Takes prev taken behind parts ↔
    ∃ blanks slash, taken = blanks ++ slash ++ ['>'] ∧ blanks ≠ [] ∧
      (∀ x ∈ blanks, Class.among [' ', '\t', '\n'] x = true) ∧ (slash = [] ∨ slash = ['/']) ∧
      parts = [(.part 1, slash ++ ['>'])] := by
  constructor
  · rintro ⟨blanks, _, _, _, hblanks, ⟨_, ⟨slash, _, _, _, hslash, hclose, rfl, rfl⟩, rfl⟩, rfl, rfl⟩
    obtain ⟨hne, hall, rfl⟩ := (takes_run1 _).mp hblanks
    obtain ⟨rfl, rfl⟩ := (takes_char '>').mp hclose
    obtain rfl := hslash.parts_eq_nil rfl
    refine ⟨blanks, slash, by simp, hne, hall, ?_, rfl⟩
    rcases hslash with hslash | ⟨rfl, -⟩
    · exact Or.inr ((takes_char '/').mp hslash).1
    · exact Or.inl rfl
  · rintro ⟨blanks, slash, rfl, hne, hall, hslash, rfl⟩
    refine ⟨blanks, slash ++ ['>'], [], [(.part 1, slash ++ ['>'])], (takes_run1 _).mpr ⟨hne, hall, rfl⟩,
      ⟨[], ⟨slash, ['>'], [], [], ?_, (takes_char '>').mpr ⟨rfl, rfl⟩, rfl, rfl⟩, rfl⟩, by simp, rfl⟩
    rcases hslash with rfl | rfl
    · exact Or.inr ⟨rfl, rfl⟩
    · exact Or.inl ((takes_char '/').mpr ⟨rfl, rfl⟩)

theorem finds_tagCloseSpace : tagCloseSpace.pattern.Finds fun _ => IsTagEnd := by
  refine @Finds.of_unique tagCloseSpace.pattern (fun _ => IsTagEnd) ?_ ?_ ?_
  · rintro prev taken behind parts htakes
    obtain ⟨blanks, slash, htaken, hne, hall, hslash, -⟩ := takes_tagCloseSpace.mp htakes
    exact ⟨blanks, slash, htaken, hne, hall, hslash⟩
  · rintro prev taken behind ⟨blanks, slash, htaken, hne, hall, hslash⟩
    exact ⟨_, takes_tagCloseSpace.mpr ⟨blanks, slash, htaken, hne, hall, hslash, rfl⟩⟩
  · rintro prev taken taken' text ⟨blanks, slash, rfl, -, hall, hslash⟩ ⟨blanks', slash', rfl, -, hall', hslash'⟩ h h'
    exact eq_of_prefix (not_mem_of_isTagEnd hall hslash) (not_mem_of_isTagEnd hall' hslash') rfl h h'

/-- What the rule leaves of a match: the end of the tag. -/
def tagEnd (taken : List Char) : List Char := taken.filter ['/', '>'].contains

theorem tagEnd_eq {slash : List Char} (hall : ∀ x ∈ blanks, Class.among [' ', '\t', '\n'] x = true)
    (hslash : slash = [] ∨ slash = ['/']) : tagEnd (blanks ++ slash ++ ['>']) = slash ++ ['>'] := by
  have hnone : blanks.filter ['/', '>'].contains = [] := by
    have hmarks : ∀ x ∈ ['/', '>'], Class.among [' ', '\t', '\n'] x = false := Text.forall_mem_of_all (by decide)
    refine List.filter_eq_nil_iff.mpr fun x hx hmem => ?_
    exact not_mem_of_accepts hall (hmarks x (List.contains_iff_mem.mp hmem)) hx
  rw [tagEnd, List.append_assoc, List.filter_append, hnone, List.nil_append]
  rcases hslash with rfl | rfl <;> rfl

theorem puts_tagCloseSpace : tagCloseSpace.Puts tagEnd where
  exceeds := rfl
  passes := rfl
  replace := by
    intro index prev rest found hfound
    obtain ⟨_, _, -, htakes, hlabels⟩ := Match.exists_takes hfound
    obtain ⟨blanks, slash, htext, -, hall, hslash, rfl⟩ := takes_tagCloseSpace.mp htakes
    have hpart : found.part 1 = slash ++ ['>'] := found.part_eq_getD hlabels 1
    have hreplace : tagCloseSpace.replace found = found.part 1 := rfl
    rw [hreplace, hpart, htext, tagEnd_eq hall hslash]

theorem not_isTagEnd_cons (rest : List Char) : ¬ IsTagEnd ('>' :: rest) := by
  rintro ⟨blanks, slash, htaken, hne, hall, -⟩
  obtain ⟨x, blanks, rfl⟩ := List.exists_cons_of_ne_nil hne
  obtain ⟨rfl, -⟩ := List.cons.inj htaken
  exact not_mem_of_accepts hall rfl List.mem_cons_self

theorem avoids_tagCloseSpace : tagCloseSpace.pattern.avoids '=' = true := by decide

theorem cutsAt_tagCloseSpace : CutsAt tagCloseSpace.apply '>' := by
  refine puts_tagCloseSpace.cutsAt_of_endsAt avoids_tagCloseSpace finds_tagCloseSpace ⟨?_, ?_, ?_⟩
  · rintro prev taken ⟨blanks, slash, rfl, -, hall, hslash⟩ hmem
    rw [← List.tail_dropLast, List.dropLast_concat] at hmem
    exact not_mem_of_isTagEnd hall hslash (List.mem_of_mem_tail hmem)
  · exact fun h => absurd h (not_isTagEnd_cons _)
  · exact fun _ => ⟨⟨tagEnd _, List.filter_append _ _⟩, fun _ rest => not_isTagEnd_cons rest⟩

variable {front gap : List Char}

/-- No match begins before the last character that is no blank. -/
theorem taken?_tagCloseSpace_eq_none (hfront : '>' ∉ front) (hne : front ≠ [])
    (hlast : front.getLast?.any Text.isBlank = false) (hgap : ∀ x ∈ gap, Class.among [' ', '\t', '\n'] x = true) :
    tagCloseSpace.pattern.taken? prev (front ++ (gap ++ ['/', '>'])) = none := by
  refine finds_tagCloseSpace.taken?_eq_none ?_
  rintro taken ⟨blanks, slash, rfl, -, hall, hslash⟩ h
  have hsplit : front ++ (gap ++ ['/', '>']) = (front ++ gap ++ ['/']) ++ ['>'] := by simp
  have hgap' : '>' ∉ gap := not_mem_of_accepts hgap rfl
  have hwhole : '>' ∉ front ++ gap ++ ['/'] := by
    simp [hfront, hgap']
  rw [hsplit] at h
  have hsame := eq_of_prefix (not_mem_of_isTagEnd hall hslash) hwhole rfl h (List.prefix_refl _)
  obtain ⟨hsame, -⟩ := List.append_inj' hsame rfl
  rcases hslash with rfl | rfl
  · exact not_mem_of_accepts hall rfl (show '/' ∈ blanks by rw [← List.append_nil blanks, hsame]; simp)
  · obtain ⟨rfl, -⟩ := List.append_inj' hsame rfl
    have hblank := Class.isBlank_of_among (by decide) (hall _ (List.mem_append_left gap (List.getLast_mem hne)))
    rw [List.getLast?_eq_some_getLast hne, Option.any_some, hblank] at hlast
    cases hlast

/-- At the end of a text the rule drops the blanks before the end of a tag. -/
theorem tagCloseSpace_apply (hfront : '>' ∉ front) (hlast : front.getLast?.any Text.isBlank = false)
    (hgap : ∀ x ∈ gap, Class.among [' ', '\t', '\n'] x = true) (hne : gap ≠ []) :
    tagCloseSpace.apply (front ++ (gap ++ ['/', '>'])) = front ++ ['/', '>'] := by
  refine (puts_tagCloseSpace.rewrites_apply avoids_tagCloseSpace _).unique ?_
  generalize (none : Option Char) = prev
  induction front generalizing prev with
  | nil =>
    have htaken : tagCloseSpace.pattern.taken? prev (gap ++ ['/', '>']) = some (gap ++ ['/'] ++ ['>']) :=
      finds_tagCloseSpace.mpr ⟨⟨gap, ['/'], rfl, hne, hgap, Or.inr rfl⟩, by simp⟩
    have hhit : tagCloseSpace.pattern.Rewrites tagEnd prev (gap ++ ['/', '>']) (tagEnd (gap ++ ['/'] ++ ['>']) ++ []) :=
      .hit htaken (by simp) (by simp) .nil
    rwa [tagEnd_eq hgap (Or.inr rfl)] at hhit
  | cons c front ih =>
    refine .plain (taken?_tagCloseSpace_eq_none hfront (List.cons_ne_nil c front) hlast hgap) (ih ?_ ?_ _)
    · exact fun hmem => hfront (List.mem_cons_of_mem c hmem)
    · cases front with
      | nil => rfl
      | cons d front => rwa [List.getLast?_cons_cons] at hlast

/-! ### Values without quotes -/

/-- A value that may stand without quotes. -/
def IsUnquoted (value : List Char) : Prop :=
  value ≠ [] ∧ ∀ x ∈ value, Text.isBlank x = false ∧
    x ∉ ['"', '\'', '=', '<', '>', '\x60', Placeholder.opening, Placeholder.closing]

/-- What is read as the value behind an equals sign if it does not begin with a quote. Blanks are skipped, and the value
ends before the next one or at the end of the tag. -/
def unquotedValue (text : List Char) : List Char :=
  (text.dropWhile Text.isAsciiBlank).takeWhile fun c => !(Text.isAsciiBlank c || c == '>')

/-- From an equals sign to the end of the tag: blanks, a value, more blanks and the slash. -/
def valueAndSlash (lead value gap : List Char) : List Char := lead ++ (value ++ (gap ++ ['/']))

theorem isBlank_of_isAsciiBlank (h : Text.isAsciiBlank c = true) : Text.isBlank c = true := by
  simp only [Text.isAsciiBlank, Bool.or_eq_true, beq_iff_eq] at h
  rcases h with (((rfl | rfl) | rfl) | rfl) | rfl <;> rfl

section Value

variable {value lead lead' gap' rest : List Char}

theorem IsUnquoted.isBlank (h : IsUnquoted value) : ∀ x ∈ value, Text.isBlank x = false := fun x hx => (h.2 x hx).1

theorem IsUnquoted.not_mem (h : IsUnquoted value)
    (hc : c ∈ ['"', '\'', '=', '<', '>', '\x60', Placeholder.opening, Placeholder.closing]) : c ∉ value :=
  fun hmem => (h.2 c hmem).2 hc

theorem unquotedValue_append (hlead : ∀ x ∈ lead, Text.isAsciiBlank x = true) (hvalue : value ≠ [])
    (hinside : ∀ x ∈ value, Text.isAsciiBlank x = false ∧ x ≠ '>')
    (hstop : rest.head?.any (fun c => !(Text.isAsciiBlank c || c == '>')) = false) :
    unquotedValue (lead ++ (value ++ rest)) = value := by
  have hfirst : (value ++ rest).head?.any Text.isAsciiBlank = false := by
    obtain ⟨x, value, rfl⟩ := List.exists_cons_of_ne_nil hvalue
    exact (hinside x List.mem_cons_self).1
  have hread : ∀ x ∈ value, (!(Text.isAsciiBlank x || x == '>')) = true := fun x hx => by simp [hinside x hx]
  rw [unquotedValue, (takeWhile_append_of_head hlead hfirst).2, (takeWhile_append_of_head hread hstop).1]

/-- The slash belongs to the value if no blank stands before it. -/
theorem IsUnquoted.unquotedValue_eq (h : IsUnquoted value) (hlead : ∀ x ∈ lead, Text.isAsciiBlank x = true)
    (hgap : ∀ x ∈ gap, Text.isAsciiBlank x = true) (rest : List Char) :
    unquotedValue (lead ++ (value ++ (gap ++ '/' :: '>' :: rest))) = if gap = [] then value ++ ['/'] else value := by
  have hinside : ∀ x ∈ value, Text.isAsciiBlank x = false ∧ x ≠ '>' := by
    refine fun x hx => ⟨Bool.eq_false_iff.mpr fun hblank => ?_, ne_of_mem_of_not_mem hx (h.not_mem (by simp))⟩
    exact Bool.eq_false_iff.mp (h.isBlank x hx) (isBlank_of_isAsciiBlank hblank)
  cases gap with
  | nil =>
    have hslash : ∀ x ∈ value ++ ['/'], Text.isAsciiBlank x = false ∧ x ≠ '>' :=
      List.forall_mem_append.mpr ⟨hinside, List.forall_mem_singleton.mpr (by decide)⟩
    have hread := @unquotedValue_append (value ++ ['/']) lead ('>' :: rest) hlead (by simp) hslash rfl
    simpa using hread
  | cons x gap =>
    have hx : Text.isAsciiBlank x = true := hgap x List.mem_cons_self
    exact unquotedValue_append hlead h.1 hinside (by simp [hx])

/-! ### Values and rules -/

variable {edit : List Char → List Char}

theorem valueAndSlash_not_mem (h : IsUnquoted value) (hc : c ∈ ['<', '>'])
    (hlead : ∀ x ∈ lead, Text.isAsciiBlank x = true) (hgap : ∀ x ∈ gap, Text.isAsciiBlank x = true) :
    c ∉ valueAndSlash lead value gap := by
  have hmarks : ∀ c ∈ ['<', '>'], Text.isAsciiBlank c = false ∧ c ≠ '/' ∧
    c ∈ ['"', '\'', '=', '<', '>', '\x60', Placeholder.opening, Placeholder.closing] :=
    Text.forall_mem_of_all (by decide)
  obtain ⟨hblank, hslash, hmem⟩ := hmarks c hc
  simp [valueAndSlash, not_mem_of_accepts hlead hblank, not_mem_of_accepts hgap hblank, h.not_mem hmem, hslash]

/-- An edit of blanks that bridges the blanks on either side of a value bridges all up to the end of the tag. -/
theorem bridges_valueAndSlash (hedit : EditsBlanks edit) (h : IsUnquoted value) {more most : List Char}
    (hfirst : value = d :: more) (hlast : value = most ++ [c]) (hlead : Bridges edit '=' d lead lead')
    (hgap : Bridges edit c '/' gap gap') :
    Bridges edit '=' '>' (valueAndSlash lead value gap) (valueAndSlash lead' value gap') := by
  have hbegin : ['/'] = '/' :: [] := rfl
  have hend : ['/'] = [] ++ ['/'] := rfl
  have hslash : Bridges edit c '>' (gap ++ (['/'] ++ [])) (gap' ++ (['/'] ++ [])) :=
    hedit.bridges_word hbegin hend (List.forall_mem_singleton.mpr rfl) hgap (hedit.bridges_nil (by decide) (by decide))
  exact hedit.bridges_word hfirst hlast h.isBlank hlead hslash

/-- An edit that leaves something of every gap does so with the one before the slash. -/
theorem exists_bridges_valueAndSlash (hedit : EditsBlanks edit) (hleaves : LeavesGaps edit) (h : IsUnquoted value)
    (hlead : ∀ x ∈ lead, Text.isAsciiBlank x = true) (hgap : ∀ x ∈ gap, Text.isAsciiBlank x = true) :
    ∃ lead' gap', (∀ x ∈ lead', Text.isAsciiBlank x = true) ∧ (∀ x ∈ gap', Text.isAsciiBlank x = true) ∧
      (gap' = [] ↔ gap = []) ∧
      Bridges edit '=' '>' (valueAndSlash lead value gap) (valueAndSlash lead' value gap') := by
  obtain ⟨d, more, hfirst⟩ := List.exists_cons_of_ne_nil h.1
  obtain ⟨most, c, hlast⟩ := (List.eq_nil_or_concat' value).resolve_left h.1
  have hd : Text.isBlank d = false := h.isBlank d (by simp [hfirst])
  have hc : Text.isBlank c = false := h.isBlank c (by simp [hlast])
  have hascii : ∀ {blanks blanks' : List Char}, (∀ x ∈ blanks, Text.isAsciiBlank x = true) →
      (∀ x ∈ blanks', x ∈ blanks ∨ x = ' ') → ∀ x ∈ blanks', Text.isAsciiBlank x = true :=
    fun hblanks hmem x hx => (hmem x hx).elim (hblanks x) fun hspace => hspace ▸ rfl
  obtain ⟨lead', hbefore, hmem, -⟩ :=
    hleaves '=' d (by decide) hd lead fun x hx => isBlank_of_isAsciiBlank (hlead x hx)
  obtain ⟨gap', hbehind, hmem', hnil⟩ :=
    hleaves c '/' hc (by decide) gap fun x hx => isBlank_of_isAsciiBlank (hgap x hx)
  exact ⟨lead', gap', hascii hlead hmem, hascii hgap hmem', hnil, bridges_valueAndSlash hedit h hfirst hlast hbefore hbehind⟩

/-- Where every blank becomes a space, so does a gap. -/
theorem bridges_collapseWhitespace (h : IsUnquoted value) (hlead : ∀ x ∈ lead, Text.isAsciiBlank x = true)
    (hgap : ∀ x ∈ gap, Text.isAsciiBlank x = true) :
    Bridges Spacing.collapseWhitespace.apply '=' '>' (valueAndSlash lead value gap)
      (valueAndSlash (spaceFor lead) value (spaceFor gap)) := by
  obtain ⟨d, more, hfirst⟩ := List.exists_cons_of_ne_nil h.1
  obtain ⟨most, c, hlast⟩ := (List.eq_nil_or_concat' value).resolve_left h.1
  refine bridges_valueAndSlash Spacing.editsBlanks_collapseWhitespace h hfirst hlast ?_ ?_
  · exact bridges_put_run1 (by decide) (h.isBlank d (by simp [hfirst])) fun x hx => isBlank_of_isAsciiBlank (hlead x hx)
  · exact bridges_put_run1 (h.isBlank c (by simp [hlast])) (by decide) fun x hx => isBlank_of_isAsciiBlank (hgap x hx)

/-- Between the equals sign and the end of a tag no other tag ends. -/
theorem bridges_betweenTags {name : String} {accepts : Char → Bool} {mid : List Char} (hequals : accepts '=' = false)
    (hopen : accepts '<' = false) (hclose : accepts '>' = false) (hmid : '<' ∉ mid) :
    Bridges (betweenTags name accepts).apply '=' '>' mid mid := by
  have hother : (betweenTags name accepts).pattern.avoids '=' = true := avoids_betweenTags hequals (by decide) (by decide)
  refine (puts_betweenTags.cutsAt hother).bridges (cutsAt_betweenTags hother hopen hclose)
    (puts_betweenTags.apply_eq_self hother ?_)
  have hnone : '<' ∉ '=' :: (mid ++ ['>']) := by simp [hmid]
  have hunfold : (betweenTags name accepts).pattern = char '>' ++ run1 accepts ++ char '<' := rfl
  rw [hunfold, exceeds_append, exceeds_char hnone, Bool.or_true]

/-- Where the blanks before the end of a tag are a space, they go. -/
theorem bridges_tagCloseSpace (h : IsUnquoted value) (hlead : ∀ x ∈ lead, x = ' ') (hgap : ∀ x ∈ gap, x = ' ')
    (hne : gap ≠ []) :
    Bridges tagCloseSpace.apply '=' '>' (valueAndSlash lead value gap) (valueAndSlash lead value []) := by
  refine (puts_tagCloseSpace.cutsAt avoids_tagCloseSpace).bridges cutsAt_tagCloseSpace ?_
  have hfront : '>' ∉ '=' :: (lead ++ value) := by
    have hlead' : '>' ∉ lead := fun hmem => absurd (hlead _ hmem) (by decide)
    simp [hlead', h.not_mem (c := '>') (by simp)]
  have hlast : ('=' :: (lead ++ value)).getLast?.any Text.isBlank = false := by
    obtain ⟨most, c, rfl⟩ := (List.eq_nil_or_concat' value).resolve_left h.1
    have hc : Text.isBlank c = false := h.isBlank c (by simp)
    rw [← List.append_assoc, ← List.cons_append, List.getLast?_concat]
    exact hc
  have hgap' : ∀ x ∈ gap, Class.among [' ', '\t', '\n'] x = true := fun x hx => (hgap x hx).symm ▸ rfl
  simpa [valueAndSlash] using tagCloseSpace_apply hfront hlast hgap' hne

/-- The rules for blanks within a tag and between tags, at the moderate level. -/
def spacing (options : Options) : Pipeline :=
  Pipeline.onlyIf options.removeWhitespace
    (if options.preserveLineBreaks then [interTagInline, Spacing.collapseHorizontal, Spacing.trimLines]
    else [interTag, Spacing.collapseWhitespace, tagCloseSpace])

/-- The rules for empty lines and for the ends of the text. -/
def lineRules (options : Options) : Pipeline :=
  Pipeline.onlyIf options.removeEmptyLines [Spacing.emptyLines] ++ [Spacing.trimEnds]

theorem pipeline_eq (h : options.tightens = true) : pipeline options = spacing options ++ lineRules options := by
  simp [pipeline, spacing, lineRules, h, Pipeline.onlyIf]

theorem editsBlanks_lineRules (options : Options) : EditsBlanks (lineRules options).run :=
  Pipeline.editsBlanks_run (.append (.onlyIf fun _ => .cons Spacing.editsBlanks_emptyLines .nil)
    (.cons Spacing.editsBlanks_trimEnds .nil))

theorem leavesGaps_lineRules (options : Options) : LeavesGaps (lineRules options).run :=
  Pipeline.leavesGaps_run (.append (.onlyIf fun _ => .cons Spacing.leavesGaps_emptyLines .nil)
    (.cons Spacing.leavesGaps_trimEnds .nil))

/-- Whether the rule for the end of a tag runs and finds a blank there. -/
def DropsTagEnd (options : Options) : Prop := options.removeWhitespace = true ∧ options.preserveLineBreaks = false

instance (options : Options) : Decidable (DropsTagEnd options) := inferInstanceAs (Decidable (_ ∧ _))

/-- Of the blanks before the slash something is left unless the rule for the end of a tag runs. -/
theorem exists_bridges_spacing (h : IsUnquoted value) (hlead : ∀ x ∈ lead, Text.isAsciiBlank x = true)
    (hgap : ∀ x ∈ gap, Text.isAsciiBlank x = true) (hne : gap ≠ []) :
    ∃ lead' gap', (∀ x ∈ lead', Text.isAsciiBlank x = true) ∧ (∀ x ∈ gap', Text.isAsciiBlank x = true) ∧
      (gap' = [] ↔ DropsTagEnd options) ∧
      Bridges (spacing options).run '=' '>' (valueAndSlash lead value gap) (valueAndSlash lead' value gap') := by
  have hnone : '<' ∉ valueAndSlash lead value gap := valueAndSlash_not_mem h (by decide) hlead hgap
  unfold spacing DropsTagEnd
  by_cases hremove : options.removeWhitespace = true
  · rw [hremove]
    by_cases hpreserve : options.preserveLineBreaks = true
    · obtain ⟨lead', gap', hlead', hgap', hnil, hblanks⟩ := exists_bridges_valueAndSlash
        (Pipeline.editsBlanks_run (.cons Spacing.editsBlanks_collapseHorizontal (.cons Spacing.editsBlanks_trimLines .nil)))
        (Pipeline.leavesGaps_run (.cons Spacing.leavesGaps_collapseHorizontal (.cons Spacing.leavesGaps_trimLines .nil)))
        h hlead hgap
      have htags : Bridges interTagInline.apply '=' '>' (valueAndSlash lead value gap) (valueAndSlash lead value gap) :=
        @bridges_betweenTags "inter-tag-inline" Class.spaceTab _ (by decide) (by decide) (by decide) hnone
      refine ⟨lead', gap', hlead', hgap', by simp [hnil, hne, hpreserve], ?_⟩
      rw [hpreserve]
      exact htags.pipeline_cons hblanks
    · have hpreserve : options.preserveLineBreaks = false := Bool.eq_false_iff.mpr hpreserve
      have htags : Bridges interTag.apply '=' '>' (valueAndSlash lead value gap) (valueAndSlash lead value gap) :=
        @bridges_betweenTags "inter-tag" Text.isBlank _ (by decide) (by decide) (by decide) hnone
      have hclose := bridges_tagCloseSpace h (fun x => @eq_space_of_mem_spaceFor lead x)
        (fun x => @eq_space_of_mem_spaceFor gap x) (mt spaceFor_eq_nil_iff.mp hne)
      refine ⟨spaceFor lead, [], fun x hx => eq_space_of_mem_spaceFor hx ▸ rfl, List.forall_mem_nil _, by simp [hpreserve], ?_⟩
      rw [hpreserve]
      exact htags.pipeline_cons ((bridges_collapseWhitespace h hlead hgap).pipeline_cons
        (hclose.pipeline_cons (.pipeline_nil _ _ _)))
  · have hremove : options.removeWhitespace = false := Bool.eq_false_iff.mpr hremove
    rw [hremove]
    exact ⟨lead, gap, hlead, hgap, by simp [hne], .pipeline_nil _ _ _⟩

theorem exists_bridges_pipeline (htightens : options.tightens = true) (h : IsUnquoted value)
    (hlead : ∀ x ∈ lead, Text.isAsciiBlank x = true) (hgap : ∀ x ∈ gap, Text.isAsciiBlank x = true) (hne : gap ≠ []) :
    ∃ lead' gap', (∀ x ∈ lead', Text.isAsciiBlank x = true) ∧ (∀ x ∈ gap', Text.isAsciiBlank x = true) ∧
      (gap' = [] ↔ DropsTagEnd options) ∧
      Bridges (pipeline options).run '=' '>' (valueAndSlash lead value gap) (valueAndSlash lead' value gap') := by
  obtain ⟨lead₁, gap₁, hlead₁, hgap₁, hnil₁, hspaced⟩ := @exists_bridges_spacing options _ _ _ h hlead hgap hne
  obtain ⟨lead₂, gap₂, hlead₂, hgap₂, hnil₂, hlines⟩ :=
    exists_bridges_valueAndSlash (editsBlanks_lineRules options) (leavesGaps_lineRules options) h hlead₁ hgap₁
  refine ⟨lead₂, gap₂, hlead₂, hgap₂, hnil₂.trans hnil₁, ?_⟩
  rw [pipeline_eq htightens]
  exact hspaced.pipeline_append hlines

theorem unreserved_valueAndSlash (h : IsUnquoted value) (hlead : ∀ x ∈ lead, Text.isAsciiBlank x = true)
    (hgap : ∀ x ∈ gap, Text.isAsciiBlank x = true) : Unreserved (valueAndSlash lead value gap) := by
  have hblanks : ∀ {blanks : List Char}, (∀ x ∈ blanks, Text.isAsciiBlank x = true) → Unreserved blanks := fun hblanks =>
    Text.unreserved_of_blank fun x hx => isBlank_of_isAsciiBlank (hblanks x hx)
  exact unreserved_append.mpr ⟨hblanks hlead, unreserved_append.mpr
    ⟨⟨h.not_mem (by decide), h.not_mem (by decide)⟩, unreserved_append.mpr ⟨hblanks hgap, by decide⟩⟩⟩

variable {content : String} {scanned : MaskedText} {left right : List Char}

/-- The blanks between a value without quotes and the slash at the end of its tag go where the rule for the end of a tag
runs. The rule does not ask what stands before them, so the slash is then read as the last character of the value.
Elsewhere something is left of the blanks, and the same value is read. -/
theorem exists_minify_tagEnd (hmoderate : options.level = .moderate)
    (hscan : Stages.scan .html options content.toList = .ok scanned)
    (htext : (Stages.prepare .html scanned).text =
      left ++ '=' :: (lead ++ (value ++ (gap ++ '/' :: '>' :: right))))
    (hvalue : IsUnquoted value) (hlead : ∀ x ∈ lead, Text.isAsciiBlank x = true)
    (hgap : ∀ x ∈ gap, Text.isAsciiBlank x = true) (hne : gap ≠ []) :
    unquotedValue (lead ++ (value ++ (gap ++ '/' :: '>' :: right))) = value ∧
      (minify content .html options).errors = [] ∧
      ∃ before lead' gap' behind, (pipeline options).run (left ++ ['=']) = before ++ ['='] ∧
        (pipeline options).run ('>' :: right) = '>' :: behind ∧
        (∀ x ∈ lead', Text.isAsciiBlank x = true) ∧ (∀ x ∈ gap', Text.isAsciiBlank x = true) ∧
        (gap' = [] ↔ DropsTagEnd options) ∧
        (minify content .html options).minified.toList = (Stages.prepare .html scanned).unmask before ++ '=' ::
          (lead' ++ (value ++ (gap' ++ '/' :: '>' :: (Stages.prepare .html scanned).unmask behind))) ∧
        unquotedValue (lead' ++ (value ++ (gap' ++ '/' :: '>' :: (Stages.prepare .html scanned).unmask behind))) =
          if DropsTagEnd options then value ++ ['/'] else value := by
  have htightens : options.tightens = true := by
    rw [Options.tightens, hmoderate]
    rfl
  obtain ⟨lead', gap', hlead', hgap', hnil, hbridges⟩ := exists_bridges_pipeline htightens hvalue hlead hgap hne
  obtain ⟨hwhole, ⟨before, hbefore⟩, behind, hbehind⟩ := hbridges left right
  have hsplit : (Stages.prepare .html scanned).text = left ++ '=' :: (valueAndSlash lead value gap ++ '>' :: right) := by
    simp [htext, valueAndSlash]
  have hedit : Stages.edit .html options (Stages.prepare .html scanned) =
      before ++ ([] ++ ('=' :: (valueAndSlash lead' value gap' ++ ['>']) ++ ([] ++ behind))) := by
    have hplain : Stages.edit .html options (Stages.prepare .html scanned) =
        (pipeline options).run (Stages.prepare .html scanned).text :=
      Stages.edit_eq (by rw [hmoderate]; decide) .html _
    rw [hplain, hsplit, hwhole, hbefore, hbehind]
    simp
  have hpiece : Clear ([] ++ ('=' :: (valueAndSlash lead' value gap' ++ ['>']) ++ [])) := by
    refine ⟨?_, '=', by simp, rfl⟩
    rw [List.nil_append, List.append_nil]
    exact unreserved_cons.mpr ⟨by decide, unreserved_append.mpr ⟨unreserved_valueAndSlash hvalue hlead' hgap', by decide⟩⟩
  obtain ⟨herrors, hminified⟩ :=
    Stages.minified_around (by decide) (fun _ => by rw [hmoderate]; decide) hscan (by simp [hsplit]) hedit hpiece
  have hread := hvalue.unquotedValue_eq hlead hgap right
  rw [if_neg hne] at hread
  refine ⟨hread, herrors, before, lead', gap', behind, hbefore, hbehind, hlead', hgap', hnil, ?_, ?_⟩
  · rw [hminified]
    simp [valueAndSlash]
  · rw [hvalue.unquotedValue_eq hlead' hgap']
    exact if_congr hnil rfl rfl

/-- An image whose tag closes itself. -/
theorem exists_minify_tagEnd_image :
    Stages.scan .html {} "<img src=a.png />".toList = .ok ⟨"<img src=a.png />".toList, #[]⟩ ∧
      ∃ before lead' gap' behind, gap' = [] ∧
        (minify "<img src=a.png />" .html {}).minified.toList = MaskedText.unmask ⟨"<img src=a.png />".toList, #[]⟩ before ++
          '=' :: (lead' ++ ("a.png".toList ++ (gap' ++ '/' :: '>' ::
            MaskedText.unmask ⟨"<img src=a.png />".toList, #[]⟩ behind))) := by
  have hscan : Stages.scan .html {} "<img src=a.png />".toList = .ok ⟨"<img src=a.png />".toList, #[]⟩ := by
    decide +kernel
  have hprepare : Stages.prepare .html ⟨"<img src=a.png />".toList, #[]⟩ = ⟨"<img src=a.png />".toList, #[]⟩ := by
    decide +kernel
  have htext : (Stages.prepare .html ⟨"<img src=a.png />".toList, #[]⟩).text =
      "<img src".toList ++ '=' :: ([] ++ ("a.png".toList ++ ([' '] ++ ['/', '>']))) := by
    rw [hprepare]
    decide
  have hvalue : IsUnquoted "a.png".toList := ⟨by decide, Text.forall_mem_of_all (by decide)⟩
  obtain ⟨-, -, before, lead', gap', behind, -, -, -, -, hnil, hminified, -⟩ :=
    exists_minify_tagEnd rfl hscan htext hvalue (List.forall_mem_nil _) (List.forall_mem_singleton.mpr rfl) (by decide)
  rw [hprepare] at hminified
  exact ⟨hscan, before, lead', gap', behind, hnil.mpr (by decide), hminified⟩

/-- Its source then ends with a slash. -/
theorem minify_image :
    minify "<img src=a.png />" .html {} = .ofTexts "<img src=a.png />" "<img src=a.png/>" [] ∧
      unquotedValue "a.png />".toList = "a.png".toList ∧ unquotedValue "a.png/>".toList = "a.png/".toList := by
  decide +kernel

end Value

end Minifier.Markup
