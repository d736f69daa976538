import Minifier.Minify
import Minifier.Proofs.Pattern.Taken
import Minifier.Proofs.Rule.Seams
import Mathlib.Data.List.TakeWhile

/-!
Line breaks between statements of a script. Under the default options blanks around a line break become
that break alone, and it stays if no punctuation stands next to it. Next to punctuation it goes, even
after a closing bracket that ends a statement.
-/

namespace Minifier.Script

open Pattern

/-- The rules for a script without console calls and debugger statements, under the default options. -/
def tightening : Pipeline :=
  [newlineRuns, Spacing.collapseHorizontal, punctuation, Spacing.emptyLines, Spacing.trimEnds]

theorem pipeline_default : pipeline {} = debuggerStatement :: tightening := rfl

/-! ### What the rules put -/

theorem puts_newlineRuns : newlineRuns.Puts fun _ => ['\n'] := .put '\n' (by decide)

/-- The blanks that go around punctuation. -/
def gapBlank : Char → Bool := Class.among [' ', '\n']

theorem not_mem_punctuationMarks_of_isBlank {c : Char} (h : Text.isBlank c = true) :
    c ∉ punctuationMarks := by
  intro hmem
  have hnone : punctuationMarks.any Text.isBlank = false := by decide
  exact List.any_eq_false.mp hnone c hmem h

theorem isBlank_of_gapBlank {c : Char} (h : gapBlank c = true) : Text.isBlank c = true :=
  Class.isBlank_of_among rfl h

/-- A match of punctuation is a mark between blanks. -/
theorem exists_of_takes_around {accepts : Char → Bool} (haccepts : ∀ c, accepts c = true → Text.isBlank c = true)
    {prev : Option Char} {taken behind : List Char} {parts : Parts}
    (h : (run accepts ++ part 1 (oneOf punctuationMarks) ++ run accepts).Takes prev taken behind parts) :
    ∃ before mark after, taken = before ++ mark :: after ∧ mark ∈ punctuationMarks ∧
      (∀ c ∈ before, Text.isBlank c = true) ∧ (∀ c ∈ after, Text.isBlank c = true) ∧ parts = [(.part 1, [mark])] := by
  obtain ⟨_, after, _, _, ⟨before, _, _, _, ⟨hbefore, rfl⟩, hmark, rfl, rfl⟩, ⟨hafter, rfl⟩, rfl, rfl⟩ := h
  obtain ⟨inner, hinner, rfl⟩ := (takes_part 1 _).mp hmark
  obtain ⟨⟨mark, hmem, rfl⟩, rfl⟩ := (takes_oneOf punctuationMarks).mp hinner
  exact ⟨before, mark, after, by simp, hmem, fun c hc => haccepts c (hbefore c hc),
    fun c hc => haccepts c (hafter c hc), rfl⟩

/-- What is left of a match of punctuation. -/
def marksOf (taken : List Char) : List Char := taken.filter punctuationMarks.contains

theorem marksOf_eq_singleton {before after : List Char} {mark : Char}
    (hbefore : ∀ c ∈ before, Text.isBlank c = true) (hmark : mark ∈ punctuationMarks)
    (hafter : ∀ c ∈ after, Text.isBlank c = true) : marksOf (before ++ mark :: after) = [mark] := by
  have hnone : ∀ {text : List Char}, (∀ c ∈ text, Text.isBlank c = true) →
      text.filter punctuationMarks.contains = [] := fun htext =>
    List.filter_eq_nil_iff.mpr fun c hc =>
      mt List.contains_iff_mem.mp (not_mem_punctuationMarks_of_isBlank (htext c hc))
  rw [marksOf, List.filter_append, hnone hbefore, List.filter_cons_of_pos (List.contains_iff_mem.mpr hmark),
    hnone hafter, List.nil_append]

theorem puts_around {name : String} {accepts : Char → Bool}
    (haccepts : ∀ c, accepts c = true → Text.isBlank c = true) :
    (Rule.keepPart name (run accepts ++ part 1 (oneOf punctuationMarks) ++ run accepts)).Puts marksOf where
  exceeds := rfl
  passes := rfl
  replace := by
    intro index prev rest found hfound
    obtain ⟨behind, parts, -, htakes, hlabels⟩ := Match.exists_takes hfound
    obtain ⟨before, mark, after, htext, hmark, hbefore, hafter, rfl⟩ := exists_of_takes_around haccepts htakes
    have hpart : found.part 1 = [mark] := found.part_eq_getD hlabels 1
    rw [htext, marksOf_eq_singleton hbefore hmark hafter, ← hpart]
    rfl

theorem puts_punctuation : punctuation.Puts marksOf := puts_around fun _ => isBlank_of_gapBlank

/-! ### What the rules leave alone -/

variable {c d : Char}

theorem avoids_newlineRuns (h : Text.isBlank c = false) : newlineRuns.pattern.avoids c = true := by
  have havoids : newlineRuns.pattern.avoids c =
      (!Class.among [' ', '\t', '\r', '\x0c'] c && !(c == '\n') && !Text.isBlank c) := rfl
  rw [havoids, Spacing.among_eq_false h (by decide), Spacing.ne_of_not_blank h (by decide), h]
  rfl

theorem avoids_punctuation (h : Text.isBlank c = false) (hmark : c ∉ punctuationMarks) :
    punctuation.pattern.avoids c = true := by
  have havoids : punctuation.pattern.avoids c =
      (!gapBlank c && !punctuationMarks.contains c && !gapBlank c) := rfl
  have hcontains : punctuationMarks.contains c = false :=
    Bool.eq_false_iff.mpr (mt List.contains_iff_mem.mp hmark)
  rw [havoids, gapBlank, Spacing.among_eq_false h (by decide), hcontains]
  rfl

/-! ### Blanks that hold a line break -/

/-- Blanks before the first line break of a gap. -/
def InLine (blanks : List Char) : Prop := ∀ c ∈ blanks, Text.isBlank c = true ∧ c ≠ '\n'

/-- The blanks that a line break takes along from before it. -/
def lineBlank : Char → Bool := Class.among [' ', '\t', '\r', '\x0c']

theorem lineBlank_of_isAsciiBlank {c : Char} (h : Text.isAsciiBlank c = true) (hne : c ≠ '\n') :
    lineBlank c = true := by
  simp only [Text.isAsciiBlank, Bool.or_eq_true, beq_iff_eq] at h
  rcases h with (((rfl | rfl) | rfl) | rfl) | rfl
  · rfl
  · rfl
  · exact absurd rfl hne
  · rfl
  · rfl

/-- What a line break takes along. -/
theorem taken?_newlineRuns (prev : Option Char) (text : List Char) :
    newlineRuns.pattern.taken? prev text = around lineBlank (· == '\n') Text.isBlank text := by
  refine map_text_matchAt_around ?_ (fun _ _ => rfl) (fun _ _ _ => rfl) (fun _ _ _ => rfl) 0 prev text
  intro c hc
  rw [beq_eq_false_iff_ne]
  rintro rfl
  exact absurd hc (by decide)

/-! ### Line breaks that stand alone -/

/-- Behind a line break stands no blank, and before it none of those that it takes along. -/
structure BareBreak (before behind : Option Char) : Prop where
  after : before = some '\n' → behind.any Text.isBlank = false
  ahead : behind = some '\n' → before.any lineBlank = false

theorem sparesEnds_bareBreak : SparesEnds BareBreak where
  start _ := ⟨nofun, fun _ => rfl⟩
  first _ _ := ⟨nofun, fun _ => rfl⟩
  last _ _ := ⟨fun _ => rfl, nofun⟩
  empty := ⟨nofun, nofun⟩

theorem lineBlank_of_horizontal {c : Char} (h : Class.among [' ', '\t', '\x0c'] c = true) : lineBlank c = true :=
  have hwider : [' ', '\t', '\x0c'] ⊆ [' ', '\t', '\r', '\x0c'] := by decide
  List.contains_iff_mem.mpr (hwider (List.contains_iff_mem.mp h))

theorem isBlank_of_lineBlank {c : Char} (h : lineBlank c = true) : Text.isBlank c = true :=
  Class.isBlank_of_among rfl h

/-- The induction is on the text. A character that the line break behind it takes along is not left in front of it. -/
theorem along_of_rewrites_newlineRuns {prev before : Option Char} {text out : List Char}
    (h : newlineRuns.pattern.Rewrites (fun _ => ['\n']) prev text out)
    (hafter : before = some '\n' → text.head?.any Text.isBlank = false)
    (hahead : before.any lineBlank = true → around lineBlank (· == '\n') Text.isBlank text = none) :
    Along BareBreak before out none := by
  induction h generalizing before with
  | nil => exact along_nil.mpr ⟨fun _ => rfl, nofun⟩
  | @plain prev c rest out hnone _ ih =>
    rw [taken?_newlineRuns] at hnone
    have hc : c ≠ '\n' := by
      rintro rfl
      exact absurd hnone (by simp [around, lineBlank, Class.among])
    have hseam : BareBreak before (some c) := ⟨hafter, fun h => absurd (Option.some.inj h) hc⟩
    refine along_cons.mpr ⟨hseam, ih (fun h => absurd (Option.some.inj h) hc) fun hblank => ?_⟩
    have hblank : lineBlank c = true := hblank
    rwa [around_cons_of_pos hblank, Option.map_eq_none_iff] at hnone
  | @hit prev text taken rest out htaken htext _ _ ih =>
    rw [taken?_newlineRuns] at htaken
    obtain ⟨front, c, behind, rfl, hfront, hc, rfl⟩ := exists_of_around_eq_some htaken
    obtain rfl := beq_iff_eq.mp hc
    have hrest : rest = behind.dropWhile Text.isBlank := by
      have hwhole : front ++ '\n' :: behind.takeWhile Text.isBlank ++ behind.dropWhile Text.isBlank =
          front ++ '\n' :: behind := by
        simp
      exact (List.append_cancel_left (hwhole.trans htext)).symm
    have hhead : (front ++ '\n' :: behind).head?.any Text.isBlank = true := by
      cases front with
      | nil => rfl
      | cons d front => exact isBlank_of_lineBlank (hfront d List.mem_cons_self)
    -- A blank or a line break before this one would have been taken together with it.
    have hseam : BareBreak before (some '\n') := by
      refine ⟨fun hbefore => ?_, fun _ => ?_⟩
      · rw [hafter hbefore] at hhead
        cases hhead
      · rw [Bool.eq_false_iff]
        intro hblank
        rw [hahead hblank] at htaken
        cases htaken
    refine along_cons.mpr ⟨hseam, ih (fun _ => ?_) fun hblank => absurd hblank (by decide)⟩
    rw [hrest]
    exact any_head?_dropWhile Text.isBlank behind

theorem rewrites_newlineRuns_of_along {prev before : Option Char} {text : List Char}
    (h : Along BareBreak before text none) : newlineRuns.pattern.Rewrites (fun _ => ['\n']) prev text text := by
  induction text generalizing prev before with
  | nil => exact .nil
  | cons c rest ih =>
    obtain ⟨-, hrest⟩ := along_cons.mp h
    by_cases hc : c = '\n'
    · subst hc
      have hnone : rest.takeWhile Text.isBlank = [] := by
        cases rest with
        | nil => rfl
        | cons d rest => exact List.takeWhile_cons_of_neg (Bool.eq_false_iff.mp ((along_cons.mp hrest).1.after rfl))
      have htaken : newlineRuns.pattern.taken? prev ('\n' :: rest) = some ['\n'] := by
        have haround : around lineBlank (· == '\n') Text.isBlank ([] ++ '\n' :: rest) =
            some ('\n' :: rest.takeWhile Text.isBlank) := around_of_forall (List.forall_mem_nil _) (by decide) rest
        rw [taken?_newlineRuns, ← hnone]
        exact haround
      exact .hit htaken rfl (List.cons_ne_nil _ _) (ih hrest)
    · refine .plain ?_ (ih hrest)
      rw [Option.eq_none_iff_forall_ne_some]
      intro taken htaken
      rw [taken?_newlineRuns] at htaken
      obtain ⟨front, d, behind, htext, hfront, hd, -⟩ := exists_of_around_eq_some htaken
      obtain rfl := beq_iff_eq.mp hd
      rcases List.eq_nil_or_concat' front with rfl | ⟨most, x, rfl⟩
      · exact hc (List.cons.inj htext).1
      · rw [htext, List.append_assoc, List.singleton_append] at h
        have hseam := (along_cons.mp (along_append_cons.mp h).2).1
        have hx := hfront x (by simp)
        exact absurd hx (Bool.eq_false_iff.mp (hseam.ahead rfl))

theorem settles_newlineRuns : newlineRuns.Settles fun text => Along BareBreak none text none where
  good_apply text :=
    along_of_rewrites_newlineRuns (puts_newlineRuns.rewrites_apply (c := 'x') (by decide) text) nofun nofun
  apply_eq h := (puts_newlineRuns.rewrites_apply (c := 'x') (by decide) _).unique (rewrites_newlineRuns_of_along h)

theorem along_collapseHorizontal {text : List Char} (h : Along BareBreak none text none) :
    Along BareBreak none (Spacing.collapseHorizontal.apply text) none := by
  rw [Spacing.collapseHorizontal_apply]
  refine along_squeeze (fun {_ c} hc hseam => ⟨fun hbefore => ?_, fun hbehind => ?_⟩)
    (fun {c _} hc hseam => ⟨fun hbefore => ?_, fun hbehind => ?_⟩) h
  · exact absurd (isBlank_of_lineBlank (lineBlank_of_horizontal hc)) (Bool.eq_false_iff.mp (hseam.after hbefore))
  · exact absurd hbehind (by decide)
  · exact absurd hbefore (by decide)
  · exact absurd (lineBlank_of_horizontal hc) (Bool.eq_false_iff.mp (hseam.ahead hbehind))

/-- Where nothing else stands before it, a line break is all that stays. -/
theorem rewrites_newlineRuns_of_lineBlank (hd : Text.isBlank d = false) {lead trail : List Char}
    (hlead : ∀ c ∈ lead, lineBlank c = true) (htrail : ∀ c ∈ trail, Text.isBlank c = true)
    (prev : Option Char) :
    newlineRuns.pattern.Rewrites (fun _ => ['\n']) prev (lead ++ '\n' :: (trail ++ [d])) ['\n', d] := by
  have hbreak : lineBlank '\n' = false := by decide
  have htaken : newlineRuns.pattern.taken? prev (lead ++ '\n' :: (trail ++ [d])) =
      some (lead ++ '\n' :: trail) := by
    rw [taken?_newlineRuns, around_of_forall hlead hbreak]
    simp [hd, List.takeWhile_append_of_pos htrail]
  exact .hit htaken (by simp) (by simp) (.plain (taken?_stop (avoids_newlineRuns hd) (by decide) _ []) .nil)

/-- A gap becomes its first line break and what stands before it, unless that is taken along. -/
theorem exists_rewrites_newlineRuns (hd : Text.isBlank d = false) {lead trail : List Char}
    (hlead : InLine lead) (htrail : ∀ c ∈ trail, Text.isBlank c = true) (prev : Option Char) :
    ∃ kept, newlineRuns.pattern.Rewrites (fun _ => ['\n']) prev (lead ++ '\n' :: (trail ++ [d]))
        (kept ++ ['\n'] ++ [d]) ∧ InLine kept ∧
      ((∀ c ∈ lead, Text.isAsciiBlank c = true) → kept = []) := by
  induction lead generalizing prev with
  | nil =>
    exact ⟨[], rewrites_newlineRuns_of_lineBlank hd (by simp) htrail prev, by simp [InLine], fun _ => rfl⟩
  | cons c lead ih =>
    -- A line break does not take every blank along: behind a vertical tab the search begins anew.
    by_cases hall : ∀ x ∈ c :: lead, lineBlank x = true
    · exact ⟨[], rewrites_newlineRuns_of_lineBlank hd hall htrail prev, by simp [InLine], fun _ => rfl⟩
    · obtain ⟨hc, hrest⟩ := List.forall_mem_cons.mp hlead
      obtain ⟨kept, hkept, hinLine, -⟩ := ih hrest (some c)
      have hnone : newlineRuns.pattern.taken? prev (c :: (lead ++ '\n' :: (trail ++ [d]))) = none := by
        rw [taken?_newlineRuns, around, ← List.cons_append, List.dropWhile_append]
        cases hdrop : (c :: lead).dropWhile lineBlank with
        | nil => exact absurd (List.dropWhile_eq_nil_iff.mp hdrop) hall
        | cons x more =>
          have hx : x ∈ c :: lead := (List.dropWhile_sublist lineBlank).subset (hdrop ▸ List.mem_cons_self)
          simp [(hlead x hx).2]
      refine ⟨c :: kept, .plain hnone hkept, List.forall_mem_cons.mpr ⟨hc, hinLine⟩, fun hascii => ?_⟩
      exact absurd (fun x hx => lineBlank_of_isAsciiBlank (hascii x hx) (hlead x hx).2) hall

/-- Before a line break blanks stay blanks. -/
theorem exists_rewrites_collapseHorizontal (hc : Text.isBlank c = false) (hd : Text.isBlank d = false)
    {kept : List Char} (hkept : InLine kept) :
    ∃ kept', Spacing.collapseHorizontal.pattern.Rewrites (fun _ => [' ']) (some c) (kept ++ ['\n'] ++ [d])
        (kept' ++ ['\n'] ++ [d]) ∧ InLine kept' ∧ (kept = [] → kept' = []) := by
  have havoids : ∀ {x}, Text.isBlank x = false → Spacing.collapseHorizontal.pattern.avoids x = true :=
    fun hx => Spacing.avoids_run1 (Spacing.among_eq_false hx (by decide))
  have hbreak : Spacing.collapseHorizontal.pattern.avoids '\n' = true := by decide
  have hexceeds := Spacing.puts_collapseHorizontal.exceeds
  have hend : Spacing.collapseHorizontal.pattern.Rewrites (fun _ => [' ']) (some '\n') [d] [d] :=
    .plain (taken?_stop (havoids hd) hexceeds _ []) .nil
  obtain ⟨out, hout⟩ := Spacing.puts_collapseHorizontal.exists_rewrites (havoids hc) (kept ++ ['\n'])
  obtain ⟨⟨kept', rfl, hkept'⟩, hwhole⟩ := hout.append hbreak hexceeds hend
  have hinLine : InLine kept' := by
    intro x hx
    rcases hkept' x hx with hold | ⟨-, hnew⟩
    · exact hkept x hold
    · obtain rfl := List.mem_singleton.mp hnew
      decide
  refine ⟨kept', by simpa using hwhole, hinLine, ?_⟩
  rintro rfl
  obtain ⟨more, hmore, hrest⟩ := hout.of_cons (taken?_stop hbreak hexceeds (some c) [])
  rw [hrest.eq_nil] at hmore
  exact (List.append_eq_singleton_iff.mp hmore).resolve_right (by simp) |>.1

/-- Blanks in which a line break has nothing after it. -/
structure EndsAtBreak (mid : List Char) : Prop where
  blank : ∀ c ∈ mid, Text.isBlank c = true
  last : ∀ before after, mid = before ++ '\n' :: after → after = []

theorem endsAtBreak_of_inLine {kept : List Char} (h : InLine kept) : EndsAtBreak (kept ++ ['\n']) where
  blank := by
    rw [List.forall_mem_append]
    exact ⟨fun c hc => (h c hc).1, List.forall_mem_singleton.mpr rfl⟩
  last before after hsplit := by
    rcases List.eq_nil_or_concat' after with hnil | ⟨more, last, rfl⟩
    · exact hnil
    · rw [← List.cons_append, ← List.append_assoc] at hsplit
      obtain ⟨rfl, -⟩ := List.append_inj' hsplit rfl
      exact absurd rfl (h '\n' (by simp)).2

theorem EndsAtBreak.dropWhile {mid : List Char} (h : EndsAtBreak mid) (accepts : Char → Bool) :
    EndsAtBreak (mid.dropWhile accepts) where
  blank c hc := h.blank c ((List.dropWhile_sublist accepts).subset hc)
  last before after hsplit := by
    refine h.last (mid.takeWhile accepts ++ before) after ?_
    rw [List.append_assoc, ← hsplit, List.takeWhile_append_dropWhile]

/-! ### Next to punctuation -/

/-- What punctuation takes along. -/
theorem taken?_punctuation (prev : Option Char) (text : List Char) :
    punctuation.pattern.taken? prev text = around gapBlank punctuationMarks.contains gapBlank text := by
  refine map_text_matchAt_around ?_ (fun _ _ => rfl) (fun _ _ _ => rfl) (fun _ _ _ => rfl) 0 prev text
  intro c hc
  rw [Bool.eq_false_iff, ne_eq, List.contains_iff_mem]
  exact not_mem_punctuationMarks_of_isBlank (isBlank_of_gapBlank hc)

/-- No punctuation stands among blanks. -/
theorem rewrites_punctuation {mid : List Char} (hmid : ∀ c ∈ mid, Text.isBlank c = true)
    (hd : d ∉ punctuationMarks) (new : List Char → List Char) (prev : Option Char) :
    punctuation.pattern.Rewrites new prev (mid ++ [d]) (mid ++ [d]) := by
  refine .of_forall_ne fun before behind taken hsplit htaken => ?_
  obtain ⟨rest, parts, rfl, htakes⟩ := exists_takes_of_taken? htaken
  obtain ⟨blanks, mark, after, rfl, hmark, -⟩ := exists_of_takes_around (fun _ => isBlank_of_gapBlank) htakes
  have hmem : mark ∈ mid ++ [d] := by
    rw [hsplit]
    simp
  rcases List.mem_append.mp hmem with hblank | hlast
  · exact not_mem_punctuationMarks_of_isBlank (hmid mark hblank) hmark
  · rw [List.mem_singleton.mp hlast] at hmark
    exact hd hmark

theorem gapBlank_of_mark (hc : c ∈ punctuationMarks) : gapBlank c = false := by
  rw [Bool.eq_false_iff]
  exact fun hblank => not_mem_punctuationMarks_of_isBlank (isBlank_of_gapBlank hblank) hc

/-- Blanks before a mark go with it, and so do blanks behind it. -/
theorem rewrites_mark_of_forall (hc : c ∈ punctuationMarks) {left tail tail' : List Char} {prev : Option Char}
    (hleft : ∀ x ∈ left, gapBlank x = true)
    (htail : ∀ prev, punctuation.pattern.Rewrites marksOf prev (tail.dropWhile gapBlank) tail') :
    punctuation.pattern.Rewrites marksOf prev (left ++ c :: tail) (c :: tail') := by
  have hmark : punctuationMarks.contains c = true := List.contains_iff_mem.mpr hc
  have hblank : ∀ {blanks : List Char}, (∀ x ∈ blanks, gapBlank x = true) →
      ∀ x ∈ blanks, Text.isBlank x = true := fun hblanks x hx => isBlank_of_gapBlank (hblanks x hx)
  have htaken : punctuation.pattern.taken? prev (left ++ c :: tail) =
      some (left ++ c :: tail.takeWhile gapBlank) := by
    rw [taken?_punctuation, around_of_forall hleft (gapBlank_of_mark hc), if_pos hmark]
  have hsplit : left ++ c :: tail = left ++ c :: tail.takeWhile gapBlank ++ tail.dropWhile gapBlank := by
    rw [List.append_assoc, List.cons_append, List.takeWhile_append_dropWhile]
  have hmarks : marksOf (left ++ c :: tail.takeWhile gapBlank) = [c] :=
    marksOf_eq_singleton (hblank hleft) hc (hblank fun x hx => List.mem_takeWhile_imp hx)
  rw [← List.singleton_append (l := tail'), ← hmarks]
  exact .hit htaken hsplit (by simp) (htail _)

/-- A text that ends with a mark can be followed by another one, from which the mark takes blanks along. -/
theorem rewrites_mark (hc : c ∈ punctuationMarks) {left out tail tail' : List Char} {prev : Option Char}
    (h : punctuation.pattern.Rewrites marksOf prev (left ++ [c]) out)
    (htail : ∀ prev, punctuation.pattern.Rewrites marksOf prev (tail.dropWhile gapBlank) tail') :
    (∃ before, out = before ++ [c]) ∧
      punctuation.pattern.Rewrites marksOf prev (left ++ c :: tail) (out ++ tail') := by
  have halone : ∀ {left out : List Char} {prev : Option Char}, (∀ x ∈ left, gapBlank x = true) →
      punctuation.pattern.Rewrites marksOf prev (left ++ [c]) out → (∃ before, out = before ++ [c]) ∧
        punctuation.pattern.Rewrites marksOf prev (left ++ c :: tail) (out ++ tail') := by
    intro left out prev hleft h
    obtain rfl := h.unique (rewrites_mark_of_forall hc hleft fun _ => .nil)
    exact ⟨⟨[], rfl⟩, rewrites_mark_of_forall hc hleft htail⟩
  -- Only the match of the last mark reaches what follows; the matches before it are the same in both texts.
  generalize hwhole : left ++ [c] = whole at h
  induction h generalizing left with
  | nil => exact absurd hwhole (by simp)
  | @plain prev d rest out hnone hrest ih =>
    by_cases hleft : ∀ x ∈ left, gapBlank x = true
    · exact halone hleft (hwhole ▸ .plain hnone hrest)
    · obtain ⟨result, hresult, -⟩ := exists_around hleft (gapBlank_of_mark hc)
      have hnothing : result = none := by rw [← hresult [], ← taken?_punctuation prev, hwhole, hnone]
      obtain ⟨e, more, rfl⟩ := List.exists_cons_of_ne_nil (l := left) (by rintro rfl; simp at hleft)
      obtain ⟨rfl, rfl⟩ := List.cons.inj hwhole
      obtain ⟨⟨before, rfl⟩, hmore⟩ := ih rfl
      refine ⟨⟨e :: before, rfl⟩, .plain ?_ hmore⟩
      rw [taken?_punctuation]
      exact (hresult tail).trans hnothing
  | @hit prev whole taken rest out htaken htext hne hrest ih =>
    by_cases hleft : ∀ x ∈ left, gapBlank x = true
    · exact halone hleft (hwhole ▸ .hit htaken htext hne hrest)
    · obtain ⟨result, hresult, hprefix⟩ := exists_around hleft (gapBlank_of_mark hc)
      rw [← hwhole, taken?_punctuation, hresult] at htaken
      obtain ⟨more, rfl⟩ := hprefix taken htaken
      rw [← hwhole, List.append_assoc] at htext
      obtain rfl := List.append_cancel_left htext
      obtain ⟨⟨before, rfl⟩, hmore⟩ := ih rfl
      refine ⟨⟨marksOf taken ++ before, by simp⟩, ?_⟩
      rw [List.append_assoc (marksOf taken)]
      refine .hit ?_ (List.append_assoc _ _ _) hne hmore
      rw [taken?_punctuation]
      exact (hresult tail).trans htaken

theorem bridges_punctuation (hc : Text.isBlank c = false) (hc' : c ∉ punctuationMarks)
    (hd : Text.isBlank d = false) (hd' : d ∉ punctuationMarks) {mid : List Char}
    (hmid : ∀ x ∈ mid, Text.isBlank x = true) : Bridges punctuation.apply c d mid mid :=
  puts_punctuation.bridges (avoids_punctuation hc hc') (avoids_punctuation hd hd')
    (rewrites_punctuation hmid hd' marksOf _)

/-- A mark takes along the blanks behind it. -/
theorem bridges_punctuation_mark (hc : c ∈ punctuationMarks) (hd : Text.isBlank d = false)
    (hd' : d ∉ punctuationMarks) {mid : List Char} (hmid : ∀ x ∈ mid, Text.isBlank x = true) :
    Bridges punctuation.apply c d mid (mid.dropWhile gapBlank) := by
  intro left right
  have havoids := avoids_punctuation hd hd'
  obtain ⟨behind, hbehind, hright⟩ := (puts_punctuation.rewrites_apply havoids (d :: right)).of_cons
    (taken?_stop havoids puts_punctuation.exceeds none right)
  have htail : ∀ prev, punctuation.pattern.Rewrites marksOf prev ((mid ++ d :: right).dropWhile gapBlank)
      (mid.dropWhile gapBlank ++ [d] ++ behind) := by
    intro prev
    have hblank : ¬ gapBlank d = true := Bool.eq_false_iff.mp (Spacing.among_eq_false hd (by decide))
    have hdrop : (mid ++ d :: right).dropWhile gapBlank = mid.dropWhile gapBlank ++ d :: right := by
      rw [List.dropWhile_append, List.dropWhile_cons_of_neg hblank]
      split
      · rename_i hempty
        rw [List.isEmpty_iff.mp hempty, List.nil_append]
      · rfl
    rw [hdrop]
    have hkept : ∀ x ∈ mid.dropWhile gapBlank, Text.isBlank x = true := fun x hx =>
      hmid x ((List.dropWhile_sublist gapBlank).subset hx)
    exact ((rewrites_punctuation hkept hd' marksOf prev).append havoids puts_punctuation.exceeds hright).2
  obtain ⟨hbefore, hwhole⟩ := rewrites_mark hc (puts_punctuation.rewrites_apply havoids (left ++ [c])) htail
  refine ⟨(puts_punctuation.rewrites_apply havoids _).unique ?_, hbefore, behind, hbehind⟩
  rw [hbehind]
  simpa using hwhole

/-! ### Lines and ends -/

/-- No line among the blanks is empty. -/
theorem rewrites_emptyLines {mid : List Char} (hmid : EndsAtBreak mid) (hc : Text.isBlank c = false)
    (hd : Text.isBlank d = false) (new : List Char → List Char) :
    Spacing.emptyLines.pattern.Rewrites new (some c) (mid ++ [d]) (mid ++ [d]) := by
  refine .of_forall_ne fun before behind taken hsplit htaken => ?_
  obtain ⟨rest, parts, rfl, htakes⟩ := exists_takes_of_taken? htaken
  have hd' : d ∉ taken := htakes.not_mem (Spacing.avoids_emptyLines hd)
  have hne : taken ≠ [] := ne_nil_of_taken? Spacing.puts_emptyLines.exceeds htaken
  obtain ⟨_, _, _, _, ⟨_, _, _, _, ⟨_, _, _, _, ⟨hstart, -⟩, -⟩, -⟩, -⟩ := htakes
  -- An empty line begins behind a line break, where nothing but the last character is left.
  have hline : before.getLast? = some '\n' := by
    rcases Option.or_eq_some_iff.mp (Anchor.holdsBetween_lineStart.mp hstart |>.resolve_left (by simp)) with
      hlast | ⟨-, hfirst⟩
    · exact hlast
    · rw [Option.some.inj hfirst] at hc
      exact absurd hc (by decide)
  obtain ⟨line, rfl⟩ := List.getLast?_eq_some_iff.mp hline
  obtain ⟨more, hmore, -⟩ := Spacing.exists_before_last hne hd' hsplit
  have hnil : taken ++ more = [] := hmid.last line _ (by simpa using hmore)
  exact hne (List.append_eq_nil_iff.mp hnil).1

/-! ### Whole runs -/

/-- Between two characters that are no blanks, blanks with a line break become blanks with one. If they
are ASCII blanks, they become that line break alone, or nothing where the first of the two is a mark. -/
theorem exists_bridges_tightening (hc : Text.isBlank c = false) (hd : Text.isBlank d = false)
    (hd' : d ∉ punctuationMarks) {gap : List Char} (hgap : ∀ x ∈ gap, Text.isBlank x = true)
    (hbreak : '\n' ∈ gap) :
    ∃ mid, Bridges tightening.run c d gap mid ∧ (∀ x ∈ mid, Text.isBlank x = true) ∧
      (c ∉ punctuationMarks → '\n' ∈ mid) ∧
      ((∀ x ∈ gap, Text.isAsciiBlank x = true) → mid = if c ∈ punctuationMarks then [] else ['\n']) := by
  obtain ⟨lead, trail, rfl, hfirst⟩ := List.eq_append_cons_of_mem hbreak
  obtain ⟨hlead, htrail⟩ := List.forall_mem_append.mp hgap
  have hinLine : InLine lead := fun x hx => ⟨hlead x hx, fun heq => hfirst (heq ▸ hx)⟩
  obtain ⟨kept, hkept, hkeptLine, hascii⟩ :=
    exists_rewrites_newlineRuns hd hinLine (List.forall_mem_cons.mp htrail).2 (some c)
  obtain ⟨kept', hkept', hkeptLine', hnil⟩ := exists_rewrites_collapseHorizontal hc hd hkeptLine
  have hruns : Bridges newlineRuns.apply c d (lead ++ '\n' :: trail) (kept ++ ['\n']) :=
    puts_newlineRuns.bridges (avoids_newlineRuns hc) (avoids_newlineRuns hd) (by simpa using hkept)
  have hhorizontal : Bridges Spacing.collapseHorizontal.apply c d (kept ++ ['\n']) (kept' ++ ['\n']) :=
    Spacing.puts_collapseHorizontal.bridges (Spacing.avoids_run1 (Spacing.among_eq_false hc (by decide)))
      (Spacing.avoids_run1 (Spacing.among_eq_false hd (by decide))) hkept'
  have hends := endsAtBreak_of_inLine hkeptLine'
  have hrest : ∀ {mid}, EndsAtBreak mid → Bridges punctuation.apply c d (kept' ++ ['\n']) mid →
      Bridges tightening.run c d (lead ++ '\n' :: trail) mid := by
    intro mid hmid hpunctuation
    have hempty : Bridges Spacing.emptyLines.apply c d mid mid :=
      Spacing.puts_emptyLines.bridges (Spacing.avoids_emptyLines hc) (Spacing.avoids_emptyLines hd)
        (rewrites_emptyLines hmid hc hd _)
    have htrim : Bridges Spacing.trimEnds.apply c d mid mid :=
      Spacing.puts_trimEnds.bridges (Spacing.avoids_trimEnds hc) (Spacing.avoids_trimEnds hd)
        (Spacing.rewrites_trimEnds hd _)
    exact .pipeline_cons hruns (.pipeline_cons hhorizontal (.pipeline_cons hpunctuation
      (.pipeline_cons hempty (.pipeline_cons htrim (.pipeline_nil c d mid)))))
  have halone : (∀ x ∈ lead ++ '\n' :: trail, Text.isAsciiBlank x = true) → kept' = [] := fun hall =>
    hnil (hascii (List.forall_mem_append.mp hall).1)
  by_cases hmark : c ∈ punctuationMarks
  · have hdrop := hends.dropWhile gapBlank
    refine ⟨_, hrest hdrop (bridges_punctuation_mark hmark hd hd' hends.blank), hdrop.blank,
      fun hnot => absurd hmark hnot, fun hall => ?_⟩
    rw [halone hall, if_pos hmark]
    rfl
  · refine ⟨_, hrest hends (bridges_punctuation hc hmark hd hd' hends.blank), hends.blank,
      fun _ => by simp, fun hall => ?_⟩
    rw [halone hall, if_neg hmark]
    rfl

/-- A script whose literals end and that holds nothing reserved is minified. Where, apart from debugger
statements, a line break stands between a character and one that is neither a blank nor punctuation, it
still does so unless the first of the two is punctuation; and after punctuation nothing is left of ASCII
blanks. -/
theorem exists_minify_lineBreak {text left gap right : List Char} {masked : MaskedText}
    (hmask : MaskedText.mask lexer true text = .ok masked) (hcheck : check masked.text = .ok ())
    (htext : debuggerStatement.apply masked.text = left ++ c :: (gap ++ d :: right))
    (hc : Text.isBlank c = false) (hd : Text.isBlank d = false) (hd' : d ∉ punctuationMarks)
    (hgap : ∀ x ∈ gap, Text.isBlank x = true) (hbreak : '\n' ∈ gap) :
    ∃ before mid behind, minify text {} = .ok (masked.unmask (before ++ c :: (mid ++ d :: behind)), []) ∧
      before ++ [c] = tightening.run (left ++ [c]) ∧ d :: behind = tightening.run (d :: right) ∧
      (∀ x ∈ mid, Text.isBlank x = true) ∧ (c ∉ punctuationMarks → '\n' ∈ mid) ∧
      ((∀ x ∈ gap, Text.isAsciiBlank x = true) → mid = if c ∈ punctuationMarks then [] else ['\n']) := by
  obtain ⟨mid, hbridges, hblank, hkept, hascii⟩ := exists_bridges_tightening hc hd hd' hgap hbreak
  obtain ⟨hwhole, ⟨before, hbefore⟩, behind, hbehind⟩ := hbridges left right
  refine ⟨before, mid, behind, ?_, hbefore.symm, hbehind.symm, hblank, hkept, hascii⟩
  have hrun : (pipeline {}).run masked.text = before ++ c :: (mid ++ d :: behind) := by
    rw [pipeline_default, Pipeline.run_cons, htext, hwhole, hbefore, hbehind]
    simp
  have hmangles : Options.mangles {} = false := rfl
  have hcomments : Options.removeComments {} = true := rfl
  rw [minify, hcomments, hmask, ← hrun, hmangles]
  simp only [bind, Except.bind, hcheck, pure, Except.pure]
  rfl

/-- Two calls on two lines, without semicolons. -/
def twoCalls : List Char := "a()\nb()".toList

/-- The line break between them goes. -/
theorem exists_minify_twoCalls :
    MaskedText.mask lexer true twoCalls = .ok ⟨twoCalls, #[]⟩ ∧ check twoCalls = .ok () ∧
      debuggerStatement.apply twoCalls = "a(".toList ++ ')' :: (['\n'] ++ 'b' :: "()".toList) ∧
      ∃ before mid behind,
        minify twoCalls {} =
          .ok (MaskedText.unmask ⟨twoCalls, #[]⟩ (before ++ ')' :: (mid ++ 'b' :: behind)), []) ∧
        before ++ [')'] = tightening.run ("a(".toList ++ [')']) ∧
        'b' :: behind = tightening.run ('b' :: "()".toList) ∧
        (∀ x ∈ mid, Text.isBlank x = true) ∧ (')' ∉ punctuationMarks → '\n' ∈ mid) ∧
        ((∀ x ∈ ['\n'], Text.isAsciiBlank x = true) →
          mid = if ')' ∈ punctuationMarks then [] else ['\n']) := by
  have hmask : MaskedText.mask lexer true twoCalls = .ok ⟨twoCalls, #[]⟩ := by decide +kernel
  have hcheck : check twoCalls = .ok () := by decide +kernel
  have htext : debuggerStatement.apply twoCalls = "a(".toList ++ ')' :: (['\n'] ++ 'b' :: "()".toList) := by
    decide +kernel
  exact ⟨hmask, hcheck, htext,
    exists_minify_lineBreak hmask hcheck htext (by decide) (by decide) (by decide)
      (List.forall_mem_singleton.mpr rfl) List.mem_cons_self⟩

theorem minify_twoCalls : minify twoCalls {} = .ok ("a()b()".toList, []) := by
  decide +kernel

end Minifier.Script
