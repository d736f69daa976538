import Minifier.Proofs.Pattern.Taken
import Minifier.Proofs.Rule.Rewriting
import Minifier.Proofs.Text.Narrow
import Minifier.Rule.Spacing

/-!
What the shared rules for blanks do to a whole text: a run of blanks becomes one space, blanks go from the ends
of every line, lines that hold nothing else go, and blanks go from the ends of the text.
-/

namespace Minifier

open Pattern

/-! ### Classes of blanks -/

namespace Class

variable {c : Char}

theorem of_spaceTab {accepts : Char → Bool} (hspace : accepts ' ' = true) (htab : accepts '\t' = true)
    (h : spaceTab c = true) : accepts c = true := by
  simp only [spaceTab, Bool.or_eq_true, beq_iff_eq] at h
  rcases h with rfl | rfl
  · exact hspace
  · exact htab

theorem isBlank_of_spaceTab (h : spaceTab c = true) : Text.isBlank c = true :=
  of_spaceTab rfl rfl h

theorem isBlank_of_among {chars : List Char} (h : chars.all Text.isBlank = true) (hc : among chars c = true) :
    Text.isBlank c = true :=
  List.all_eq_true.mp h c (List.contains_iff_mem.mp hc)

end Class

/-! ### Collapsing -/

/-- One character in the place of every run of characters of a class, of which the first may belong to a run that
has been replaced already. -/
def squeezeFrom (accepts : Char → Bool) (new : Char) : (busy : Bool) → List Char → List Char
  | _, [] => []
  | busy, c :: rest =>
    if accepts c then
      if busy then squeezeFrom accepts new true rest else new :: squeezeFrom accepts new true rest
    else c :: squeezeFrom accepts new false rest

/-- One character in the place of every run of characters of a class. -/
def squeeze (accepts : Char → Bool) (new : Char) (text : List Char) : List Char :=
  squeezeFrom accepts new false text

section Squeeze

variable {accepts : Char → Bool} {new c : Char} {rest text : List Char} {busy : Bool}

theorem squeezeFrom_cons_of_neg (hc : accepts c = false) :
    squeezeFrom accepts new busy (c :: rest) = c :: squeezeFrom accepts new false rest := by
  rw [squeezeFrom, hc]
  rfl

theorem squeezeFrom_true_cons (hc : accepts c = true) :
    squeezeFrom accepts new true (c :: rest) = squeezeFrom accepts new true rest := by
  rw [squeezeFrom, if_pos hc]
  rfl

theorem squeezeFrom_false_cons (hc : accepts c = true) :
    squeezeFrom accepts new false (c :: rest) = new :: squeezeFrom accepts new true rest := by
  rw [squeezeFrom, if_pos hc]
  rfl

theorem not_mem_squeezeFrom (hc : accepts c = true) (hne : c ≠ new) (busy : Bool) (text : List Char) :
    c ∉ squeezeFrom accepts new busy text := by
  induction text generalizing busy with
  | nil => exact List.not_mem_nil
  | cons d rest ih =>
    rw [squeezeFrom]
    split
    · split
      · exact ih true
      · exact List.not_mem_cons_of_ne_of_not_mem hne (ih true)
    · rename_i hd
      refine List.not_mem_cons_of_ne_of_not_mem ?_ (ih false)
      rintro rfl
      exact hd hc

/-- Inside a run, what is left of it goes. -/
private theorem rewrites_squeezeFrom (accepts : Char → Bool) (new : Char) (text : List Char) :
    (∀ prev, (run1 accepts).Rewrites (fun _ => [new]) prev text (squeezeFrom accepts new false text)) ∧
      ∀ prev, (run1 accepts).Rewrites (fun _ => [new]) prev (text.dropWhile accepts)
        (squeezeFrom accepts new true text) := by
  induction text with
  | nil => exact ⟨fun _ => .nil, fun _ => .nil⟩
  | cons c rest ih =>
    by_cases hc : accepts c = true
    · rw [squeezeFrom_false_cons hc, squeezeFrom_true_cons hc, List.dropWhile_cons_of_pos hc]
      exact ⟨fun prev => .hit (taken?_run1_of_pos hc) (cons_takeWhile_append_dropWhile c accepts rest)
        (List.cons_ne_nil _ _) (ih.2 _), ih.2⟩
    · have hneg : accepts c = false := Bool.eq_false_iff.mpr hc
      rw [squeezeFrom_cons_of_neg hneg, squeezeFrom_cons_of_neg hneg, List.dropWhile_cons_of_neg hc]
      have hplain (prev : Option Char) : (run1 accepts).Rewrites (fun _ => [new]) prev (c :: rest)
          (c :: squeezeFrom accepts new false rest) := .plain (taken?_run1_of_neg hneg) (ih.1 _)
      exact ⟨hplain, hplain⟩

/-- A class that leaves out some character has its runs replaced one by one. -/
theorem Rule.put_run1_apply (name : String) (new : Char) (text : List Char) (hc : accepts c = false) :
    (Rule.put name (run1 accepts) new).apply text = squeeze accepts new text := by
  have havoids : (run1 accepts).avoids c = true := by
    have hboth : (run1 accepts).avoids c = (!accepts c && !accepts c) := rfl
    rw [hboth, hc]
    rfl
  have hputs : (Rule.put name (run1 accepts) new).Puts fun _ => [new] := .put new rfl
  exact (hputs.rewrites_apply havoids text).unique ((rewrites_squeezeFrom accepts new text).1 none)

/-- Where blanks are dropped before runs are replaced, one run may be left out or be cut short. -/
private theorem Drops.squeezeFrom {dropped : Char → Bool} {old new' : List Char} (h : Drops dropped old new')
    (hwider : ∀ c, dropped c = true → accepts c = true) (hnew : dropped new = true) :
    (∀ busy, Drops dropped (squeezeFrom accepts new busy old) (squeezeFrom accepts new busy new')) ∧
      Drops dropped (new :: Minifier.squeezeFrom accepts new true old)
        (Minifier.squeezeFrom accepts new false new') := by
  induction h with
  | nil => exact ⟨fun _ => .nil, .drop hnew .nil⟩
  | drop hc _ ih =>
    refine ⟨fun busy => ?_, ?_⟩
    · cases busy with
      | false =>
        rw [squeezeFrom_false_cons (hwider _ hc)]
        exact ih.2
      | true =>
        rw [squeezeFrom_true_cons (hwider _ hc)]
        exact ih.1 true
    · rw [squeezeFrom_true_cons (hwider _ hc)]
      exact ih.2
  | keep c _ ih =>
    by_cases hc : accepts c = true
    · refine ⟨fun busy => ?_, ?_⟩
      · cases busy with
        | false =>
          rw [squeezeFrom_false_cons hc, squeezeFrom_false_cons hc]
          exact .keep new (ih.1 true)
        | true =>
          rw [squeezeFrom_true_cons hc, squeezeFrom_true_cons hc]
          exact ih.1 true
      · rw [squeezeFrom_true_cons hc, squeezeFrom_false_cons hc]
        exact .keep new (ih.1 true)
    · have hneg : accepts c = false := Bool.eq_false_iff.mpr hc
      refine ⟨fun busy => ?_, ?_⟩
      · rw [squeezeFrom_cons_of_neg hneg, squeezeFrom_cons_of_neg hneg]
        exact .keep c (ih.1 false)
      · rw [squeezeFrom_cons_of_neg hneg, squeezeFrom_cons_of_neg hneg]
        exact .drop hnew (.keep c (ih.1 false))

theorem Drops.squeeze {dropped : Char → Bool} {old new' : List Char} (h : Drops dropped old new')
    (hwider : ∀ c, dropped c = true → accepts c = true) (hnew : dropped new = true) :
    Drops dropped (squeeze accepts new old) (squeeze accepts new new') :=
  (h.squeezeFrom hwider hnew).1 false

end Squeeze

namespace Spacing

variable {prev : Option Char} {c : Char} {rest text out line behind last : List Char} {ended : List (List Char)}

theorem puts_collapseWhitespace : collapseWhitespace.Puts fun _ => [' '] := .put ' ' (by decide)

theorem puts_collapseHorizontal : collapseHorizontal.Puts fun _ => [' '] := .put ' ' (by decide)

theorem collapseWhitespace_apply (text : List Char) :
    collapseWhitespace.apply text = squeeze Text.isBlank ' ' text :=
  Rule.put_run1_apply _ ' ' text (show Text.isBlank 'x' = false by decide)

theorem collapseHorizontal_apply (text : List Char) :
    collapseHorizontal.apply text = squeeze (Class.among [' ', '\t', '\x0c']) ' ' text :=
  Rule.put_run1_apply _ ' ' text (show Class.among [' ', '\t', '\x0c'] 'x' = false by decide)

/-! ### Both ends of the text -/

theorem puts_trimEnds : trimEnds.Puts fun _ => [] := .drop (by decide)

theorem taken?_trimEnds_of_not_blank (hc : Text.isBlank c = false) :
    trimEnds.pattern.taken? prev (c :: rest) = none := by
  have hpattern : trimEnds.pattern =
      alt (anchor .textStart ++ run1 Text.isBlank) (run1 Text.isBlank ++ anchor .textEnd) := rfl
  rw [hpattern, taken?_alt, taken?_anchor_append, taken?_run1_of_neg hc, taken?_run1_anchor_of_neg hc]
  split <;> rfl

/-- At the beginning of the text all blanks are taken. -/
theorem taken?_trimEnds_none (hc : Text.isBlank c = true) :
    trimEnds.pattern.taken? none (c :: rest) = some (c :: rest.takeWhile Text.isBlank) := by
  have hpattern : trimEnds.pattern =
      alt (anchor .textStart ++ run1 Text.isBlank) (run1 Text.isBlank ++ anchor .textEnd) := rfl
  rw [hpattern, taken?_alt, taken?_anchor_append, taken?_run1_of_pos hc]
  rfl

/-- Anywhere else they are taken if nothing stands behind them. -/
theorem taken?_trimEnds_some (d : Char) (hc : Text.isBlank c = true) :
    trimEnds.pattern.taken? (some d) (c :: rest) =
      if rest.dropWhile Text.isBlank = [] then some (c :: rest.takeWhile Text.isBlank) else none := by
  have hpattern : trimEnds.pattern =
      alt (anchor .textStart ++ run1 Text.isBlank) (run1 Text.isBlank ++ anchor .textEnd) := rfl
  have hend : ∀ stop : Spot, (∃ d ∈ stop.rest.head?, Text.isBlank d = true) → Anchor.textEnd.holds stop = false := by
    rintro stop ⟨d, hd, -⟩
    obtain ⟨more, hmore⟩ := List.head?_eq_some_iff.mp hd
    simp [Anchor.holds, hmore]
  rw [hpattern, taken?_alt, taken?_anchor_append, taken?_run1_anchor_of_pos hc hend]
  simp only [Anchor.holds, Option.isNone_some, Bool.false_eq_true, if_false, Option.none_or, Spot.behind,
    Spot.after_rest, List.isEmpty_iff]

private theorem rewrites_dropTail (d : Char) (text : List Char) :
    trimEnds.pattern.Rewrites (fun _ => []) (some d) text (Text.dropTail Text.isBlank text) := by
  induction text generalizing d with
  | nil => exact .nil
  | cons c rest ih =>
    by_cases hall : ∀ x ∈ c :: rest, Text.isBlank x = true
    · rw [Text.dropTail_eq_nil hall]
      obtain ⟨hc, hrest⟩ := List.forall_mem_cons.mp hall
      have htaken := @taken?_trimEnds_some c rest d hc
      have hnil : rest.dropWhile Text.isBlank = [] := List.dropWhile_eq_nil_iff.mpr hrest
      rw [if_pos hnil] at htaken
      have htext : c :: rest = c :: rest.takeWhile Text.isBlank ++ [] := by
        rw [← hnil]
        exact cons_takeWhile_append_dropWhile c Text.isBlank rest
      exact .hit htaken htext (List.cons_ne_nil _ _) .nil
    · rw [Text.dropTail_cons hall]
      refine .plain ?_ (ih c)
      by_cases hc : Text.isBlank c = true
      · rw [taken?_trimEnds_some d hc, if_neg]
        intro hnil
        exact hall (List.forall_mem_cons.mpr ⟨hc, List.dropWhile_eq_nil_iff.mp hnil⟩)
      · exact taken?_trimEnds_of_not_blank (Bool.eq_false_iff.mpr hc)

theorem trimEnds_apply (text : List Char) : trimEnds.apply text = Text.trim text := by
  have hrewrites := puts_trimEnds.rewrites_apply (c := 'x') (by decide) text
  refine hrewrites.unique ?_
  cases text with
  | nil => exact .nil
  | cons c rest =>
    by_cases hc : Text.isBlank c = true
    · rw [Text.trim, List.dropWhile_cons_of_pos hc]
      refine .hit (taken?_trimEnds_none hc) (cons_takeWhile_append_dropWhile c Text.isBlank rest)
        (List.cons_ne_nil _ _) ?_
      rw [getLast?_cons_or]
      cases hlast : (rest.takeWhile Text.isBlank).getLast? with
      | none => exact rewrites_dropTail c _
      | some d => exact rewrites_dropTail d _
    · rw [Text.trim, List.dropWhile_cons_of_neg hc]
      have hneg := Bool.eq_false_iff.mpr hc
      rw [Text.dropTail_cons fun hall => hc (hall c List.mem_cons_self)]
      exact .plain (taken?_trimEnds_of_not_blank hneg) (rewrites_dropTail c rest)

/-! ### Ends of lines -/

theorem puts_trimLines : trimLines.Puts fun _ => [] := .drop (by decide)

/-- The blanks that go from the end of a line. -/
def tailBlank : Char → Bool := Class.among [' ', '\t', '\r']

/-- A line without the blanks at its ends. -/
def trimLine (line : List Char) : List Char :=
  Text.dropTail tailBlank (line.dropWhile Class.spaceTab)

theorem tailBlank_of_spaceTab (h : Class.spaceTab c = true) : tailBlank c = true :=
  Class.of_spaceTab (by decide) (by decide) h

theorem trimLines_pattern : trimLines.pattern = alt (anchor .lineStart ++ run1 Class.spaceTab) lineTail := rfl

theorem lineEnd_holds_eq_false {stop : Spot} (h : ∃ d ∈ stop.rest.head?, tailBlank d = true) :
    Anchor.lineEnd.holds stop = false := by
  obtain ⟨d, hd, hblank⟩ := h
  obtain ⟨more, hmore⟩ := List.head?_eq_some_iff.mp hd
  have hne : d ≠ '\n' := by
    rintro rfl
    exact absurd hblank (by decide)
  simp [Anchor.holds, hmore, hne]

/-- What stands behind a line: nothing, or a line feed. -/
def EndsLine (behind : List Char) : Prop := behind = [] ∨ behind.head? = some '\n'

namespace EndsLine

variable {accepts : Char → Bool}

theorem takeWhile (h : EndsLine behind) (hbreak : accepts '\n' = false) (line : List Char) :
    (line ++ behind).takeWhile accepts = line.takeWhile accepts := by
  induction line with
  | nil =>
    rcases h with rfl | h
    · rfl
    · obtain ⟨more, rfl⟩ := List.head?_eq_some_iff.mp h
      rw [List.nil_append, List.takeWhile_cons_of_neg (by simp [hbreak]), List.takeWhile_nil]
  | cons c line ih => simp only [List.cons_append, List.takeWhile_cons, ih]

theorem dropWhile (h : EndsLine behind) (hbreak : accepts '\n' = false) (line : List Char) :
    (line ++ behind).dropWhile accepts = line.dropWhile accepts ++ behind := by
  induction line with
  | nil =>
    rcases h with rfl | h
    · rfl
    · obtain ⟨more, rfl⟩ := List.head?_eq_some_iff.mp h
      rw [List.nil_append, List.dropWhile_cons_of_neg (by simp [hbreak]), List.dropWhile_nil, List.nil_append]
  | cons c line ih =>
    simp only [List.cons_append, List.dropWhile_cons, ih]
    split <;> rfl

end EndsLine

/-- Blanks at the end of a line are taken, and no others. -/
theorem taken?_lineTail (hline : '\n' ∉ c :: rest) (hbehind : EndsLine behind) (prev : Option Char) :
    lineTail.taken? prev (c :: (rest ++ behind)) =
      if (c :: rest).all tailBlank then some (c :: rest) else none := by
  have hpattern : lineTail = run1 tailBlank ++ anchor .lineEnd := rfl
  obtain ⟨-, hrest⟩ := not_or.mp (mt List.mem_cons.mpr hline)
  rw [hpattern]
  by_cases hc : tailBlank c = true
  · have hends : Anchor.lineEnd.holds (Spot.behind ⟨1, some c, rest ++ behind, []⟩ tailBlank) = true ↔
        EndsLine (rest.dropWhile tailBlank ++ behind) := by
      rw [Anchor.holds_iff, Spot.behind, Spot.after_rest, hbehind.dropWhile (by decide)]
      exact Anchor.holdsBetween_lineEnd
    rw [taken?_run1_anchor_of_pos hc fun _ => lineEnd_holds_eq_false, hbehind.takeWhile (by decide)]
    by_cases hall : ∀ x ∈ c :: rest, tailBlank x = true
    · obtain ⟨-, htail⟩ := List.forall_mem_cons.mp hall
      have hnone : rest.dropWhile tailBlank = [] := List.dropWhile_eq_nil_iff.mpr htail
      rw [if_pos (List.all_eq_true.mpr hall), if_pos (hends.mpr (by rwa [hnone, List.nil_append])),
        List.takeWhile_eq_self_iff.mpr htail]
    · rw [if_neg (mt List.all_eq_true.mp hall), if_neg (mt hends.mp ?_)]
      cases hdrop : rest.dropWhile tailBlank with
      | nil => exact (hall (List.forall_mem_cons.mpr ⟨hc, List.dropWhile_eq_nil_iff.mp hdrop⟩)).elim
      | cons x more =>
        have hx : x ∈ rest := (List.dropWhile_sublist tailBlank).subset (hdrop ▸ List.mem_cons_self)
        have hxne : x ≠ '\n' := fun h => hrest (h ▸ hx)
        simp [EndsLine, hxne]
  · rw [taken?_run1_anchor_of_neg (Bool.eq_false_iff.mpr hc),
      if_neg fun hall => hc (List.all_eq_true.mp hall c List.mem_cons_self)]

/-- A pattern that takes nothing but blanks at the end of a line, except where a line begins with some of a class. -/
private theorem rewrites_dropTail_line {pattern : Pattern} {lead : Char → Bool}
    (hpattern : ∀ {prev c rest}, (Anchor.lineStart.HoldsBetween prev [] → lead c = false) →
      pattern.taken? prev (c :: rest) = lineTail.taken? prev (c :: rest))
    (hline : '\n' ∉ line) (hbehind : EndsLine behind)
    (hout : ∀ prev, pattern.Rewrites (fun _ => []) prev behind out)
    (hfront : Anchor.lineStart.HoldsBetween prev [] → ∀ c ∈ line.head?, lead c = false) :
    pattern.Rewrites (fun _ => []) prev (line ++ behind) (Text.dropTail tailBlank line ++ out) := by
  induction line generalizing prev with
  | nil => exact hout prev
  | cons c rest ih =>
    have htaken : pattern.taken? prev (c :: (rest ++ behind)) =
        if (c :: rest).all tailBlank then some (c :: rest) else none := by
      rw [hpattern fun hholds => hfront hholds c rfl, taken?_lineTail hline hbehind]
    obtain ⟨hne, hrest⟩ := not_or.mp (mt List.mem_cons.mpr hline)
    by_cases hall : ∀ x ∈ c :: rest, tailBlank x = true
    · rw [if_pos (List.all_eq_true.mpr hall)] at htaken
      rw [Text.dropTail_eq_nil hall]
      exact .hit htaken rfl (List.cons_ne_nil _ _) (hout _)
    · rw [if_neg (mt List.all_eq_true.mp hall)] at htaken
      rw [Text.dropTail_cons hall]
      refine .plain htaken (ih hrest fun hholds => ?_)
      rcases Anchor.holdsBetween_lineStart.mp hholds with h | h
      · cases h
      · exact absurd (Option.some.inj h).symm hne

/-- Where no line begins with a space or tab, only the blanks at its end go. -/
private theorem taken?_trimLines (h : Anchor.lineStart.HoldsBetween prev [] → Class.spaceTab c = false) :
    trimLines.pattern.taken? prev (c :: rest) = lineTail.taken? prev (c :: rest) := by
  rw [trimLines_pattern, taken?_alt, taken?_anchor_append]
  split
  · rename_i hholds
    rw [taken?_run1_of_neg (h hholds), Option.none_or]
  · exact Option.none_or

/-- At the beginning of a line, spaces and tabs go first. -/
private theorem rewrites_trimLine (hline : '\n' ∉ line) (hbehind : EndsLine behind)
    (hout : ∀ prev, trimLines.pattern.Rewrites (fun _ => []) prev behind out)
    (hprev : Anchor.lineStart.HoldsBetween prev []) :
    trimLines.pattern.Rewrites (fun _ => []) prev (line ++ behind) (trimLine line ++ out) := by
  cases line with
  | nil => exact hout prev
  | cons c rest =>
    obtain ⟨hne, hrest⟩ := not_or.mp (mt List.mem_cons.mpr hline)
    by_cases hc : Class.spaceTab c = true
    · have htaken : trimLines.pattern.taken? prev (c :: (rest ++ behind)) =
          some (c :: rest.takeWhile Class.spaceTab) := by
        have hholds : Anchor.lineStart.holds ⟨0, prev, c :: (rest ++ behind), []⟩ = true := hprev
        rw [trimLines_pattern, taken?_alt, taken?_anchor_append, if_pos hholds, taken?_run1_of_pos hc,
          hbehind.takeWhile (by decide), Option.some_or]
      have htext : c :: (rest ++ behind) =
          c :: rest.takeWhile Class.spaceTab ++ (rest.dropWhile Class.spaceTab ++ behind) := by
        rw [← List.append_assoc, ← cons_takeWhile_append_dropWhile, List.cons_append]
      rw [trimLine, List.dropWhile_cons_of_pos hc]
      refine .hit htaken htext (List.cons_ne_nil _ _)
        (rewrites_dropTail_line taken?_trimLines ?_ hbehind hout fun _ => ?_)
      · exact fun hmem => hrest ((List.dropWhile_sublist _).subset hmem)
      · intro x hx
        have hnot := List.head?_dropWhile_not Class.spaceTab rest
        rw [Option.mem_def.mp hx] at hnot
        simpa using hnot
    · rw [trimLine, List.dropWhile_cons_of_neg hc]
      refine rewrites_dropTail_line taken?_trimLines hline hbehind hout fun _ x hx => ?_
      obtain rfl := Option.some.inj hx
      exact Bool.eq_false_iff.mpr hc

/-- A rule that accepts no line feed and edits a line by itself, whatever stands behind it, edits every line. -/
private theorem apply_joinLines {rule : Rule} {new : List Char → List Char} {edit : List Char → List Char}
    (hputs : rule.Puts new) (hbreak : rule.pattern.avoids '\n' = true)
    (hedit : ∀ {line behind out prev}, '\n' ∉ line → EndsLine behind →
      (∀ prev, rule.pattern.Rewrites new prev behind out) → Anchor.lineStart.HoldsBetween prev [] →
        rule.pattern.Rewrites new prev (line ++ behind) (edit line ++ out)) (h : Text.AreLines ended last) :
    rule.apply (Text.joinLines ended last) = Text.joinLines (ended.map edit) (edit last) := by
  have hlines (prev : Option Char) (hprev : Anchor.lineStart.HoldsBetween prev []) :
      rule.pattern.Rewrites new prev (Text.joinLines ended last) (Text.joinLines (ended.map edit) (edit last)) := by
    induction ended generalizing prev with
    | nil =>
      have hlast := hedit h.2 (Or.inl rfl) (fun _ => .nil) hprev
      rwa [List.append_nil, List.append_nil] at hlast
    | cons line ended ih =>
      rw [Text.areLines_cons] at h
      refine hedit h.1 (Or.inr rfl) (fun prev => ?_) hprev
      exact .plain (taken?_stop hbreak hputs.exceeds prev _) (ih h.2 (some '\n') rfl)
  exact (hputs.rewrites_apply hbreak _).unique (hlines none rfl)

/-- Every line is trimmed by itself. -/
theorem trimLines_apply (h : Text.AreLines ended last) :
    trimLines.apply (Text.joinLines ended last) = Text.joinLines (ended.map trimLine) (trimLine last) :=
  apply_joinLines puts_trimLines (by decide) rewrites_trimLine h

theorem puts_trailingSpace : trailingSpace.Puts fun _ => [] := .drop (by decide)

/-- Every line loses the blanks at its end. -/
theorem trailingSpace_apply (h : Text.AreLines ended last) : trailingSpace.apply (Text.joinLines ended last) =
    Text.joinLines (ended.map (Text.dropTail tailBlank)) (Text.dropTail tailBlank last) := by
  refine apply_joinLines puts_trailingSpace (by decide) (fun {line _ _ prev} hline hbehind hout _ => ?_) h
  have hkept : Anchor.lineStart.HoldsBetween prev [] → ∀ c ∈ line.head?, (fun _ : Char => false) c = false :=
    fun _ _ _ => rfl
  exact rewrites_dropTail_line (fun _ => rfl) hline hbehind hout hkept

/-! ### Blanks within a line -/

/-- Two spaces or tabs behind something else on the line. -/
def wideGap (c d e : Char) : Bool := Class.except [' ', '\t', '\n'] c && (Class.spaceTab d && Class.spaceTab e)

theorem wideGap_iff {d e : Char} : wideGap c d e = true ↔
    (Class.spaceTab c = false ∧ c ≠ '\n') ∧ Class.spaceTab d = true ∧ Class.spaceTab e = true := by
  have hother : Class.except [' ', '\t', '\n'] c = true ↔ Class.spaceTab c = false ∧ c ≠ '\n' := by
    simp [Class.except, Class.spaceTab, and_assoc]
  rw [wideGap, Bool.and_eq_true, Bool.and_eq_true, hother]

/-- Such a gap is taken with more spaces and tabs behind it, and what stands before them is kept. -/
theorem exists_of_takes_innerSpaces {taken : List Char} {parts : Parts}
    (h : innerSpaces.pattern.Takes prev taken behind parts) :
    ∃ c d e more, taken = c :: d :: e :: more ∧ parts = [(.part 1, [c])] ∧ wideGap c d e = true ∧
      ∀ x ∈ d :: e :: more, Class.spaceTab x = true := by
  obtain ⟨_, _, _, _, ⟨_, _, _, _, hfirst, ⟨⟨d, hd, rfl⟩, rfl⟩, rfl, rfl⟩, hblanks, rfl, rfl⟩ := h
  obtain ⟨_, ⟨⟨c, hc, rfl⟩, rfl⟩, rfl⟩ := (takes_part 1 _).mp hfirst
  obtain ⟨hne, hall, rfl⟩ := (takes_run1 _).mp hblanks
  obtain ⟨e, more, rfl⟩ := List.exists_cons_of_ne_nil hne
  have hwide : wideGap c d e = true := by
    rw [wideGap, hc, hd, hall e List.mem_cons_self]
    rfl
  exact ⟨c, d, e, more, rfl, rfl, hwide, List.forall_mem_cons.mpr ⟨hd, hall⟩⟩

/-! ### Empty lines -/

theorem puts_emptyLines : emptyLines.Puts fun _ => [] := .drop (by decide)

/-- Whether a line holds only spaces and tabs, and perhaps a carriage return at its end. -/
def isEmptyLine (line : List Char) : Bool :=
  (line.dropWhile Class.spaceTab).isEmpty || line.dropWhile Class.spaceTab == ['\r']

theorem isEmptyLine_iff : isEmptyLine line = true ↔
    ∃ blanks, (∀ c ∈ blanks, Class.spaceTab c = true) ∧ (line = blanks ∨ line = blanks ++ ['\r']) := by
  simp only [isEmptyLine, Bool.or_eq_true, List.isEmpty_iff, beq_iff_eq]
  have htake : ∀ c ∈ line.takeWhile Class.spaceTab, Class.spaceTab c = true := List.all_eq_true.mp List.all_takeWhile
  constructor
  · intro h
    refine ⟨line.takeWhile Class.spaceTab, htake, ?_⟩
    rcases h with h | h
    · exact Or.inl (List.takeWhile_eq_self_iff.mpr (List.dropWhile_eq_nil_iff.mp h)).symm
    · exact Or.inr (by rw [← h, List.takeWhile_append_dropWhile])
  · rintro ⟨blanks, hblanks, rfl | rfl⟩
    · exact Or.inl (List.dropWhile_eq_nil_iff.mpr hblanks)
    · exact Or.inr (by rw [List.dropWhile_append_of_pos hblanks]; decide)

theorem not_mem_of_isEmptyLine (h : isEmptyLine line = true) : '\n' ∉ line := by
  obtain ⟨blanks, hblanks, hline⟩ := isEmptyLine_iff.mp h
  have hnone : '\n' ∉ blanks := fun hmem => absurd (hblanks _ hmem) (by decide)
  rcases hline with rfl | rfl
  · exact hnone
  · simpa using hnone

theorem takes_emptyLines {taken : List Char} {parts : Parts} :
    emptyLines.pattern.Takes prev taken behind parts ↔ Anchor.lineStart.HoldsBetween prev [] ∧
      (∃ line, isEmptyLine line = true ∧ taken = line ++ ['\n']) ∧ parts = [] := by
  simp only [isEmptyLine_iff]
  constructor
  · rintro ⟨_, _, _, _, ⟨blanks, tail, _, _, ⟨_, _, _, _, ⟨hprev, rfl, rfl⟩, ⟨hblanks, rfl⟩, rfl, rfl⟩, htail, rfl,
      rfl⟩, hbreak, rfl, rfl⟩
    obtain ⟨rfl, rfl⟩ := (takes_char '\n').mp hbreak
    refine ⟨hprev, ?_⟩
    rcases htail with h | ⟨rfl, rfl⟩
    · obtain ⟨rfl, rfl⟩ := (takes_char '\r').mp h
      exact ⟨⟨blanks ++ ['\r'], ⟨blanks, hblanks, Or.inr rfl⟩, by simp⟩, rfl⟩
    · exact ⟨⟨blanks, ⟨blanks, hblanks, Or.inl rfl⟩, by simp⟩, rfl⟩
  · rintro ⟨hprev, ⟨line, ⟨blanks, hblanks, hline⟩, rfl⟩, rfl⟩
    have hbreak {prev : Option Char} : (char '\n').Takes prev ['\n'] behind [] := (takes_char '\n').mpr ⟨rfl, rfl⟩
    have htail {tail : List Char} (h : tail = [] ∨ tail = ['\r']) :
        (optional (char '\r')).Takes (blanks.getLast?.or prev) tail ('\n' :: behind) [] := by
      rcases h with rfl | rfl
      · exact Or.inr ⟨rfl, rfl⟩
      · exact Or.inl ((takes_char '\r').mpr ⟨rfl, rfl⟩)
    have hwhole (tail : List Char) (h : tail = [] ∨ tail = ['\r']) :
        emptyLines.pattern.Takes prev (blanks ++ tail ++ ['\n']) behind [] :=
      ⟨_, _, [], [], ⟨_, _, [], [], ⟨[], _, [], [], ⟨hprev, rfl, rfl⟩, ⟨hblanks, rfl⟩, rfl, rfl⟩, htail h, rfl, rfl⟩,
        hbreak, rfl, rfl⟩
    rcases hline with rfl | rfl
    · simpa using hwhole [] (Or.inl rfl)
    · exact hwhole ['\r'] (Or.inr rfl)

/-- At the beginning of a line, an empty one is taken with its line feed. -/
theorem taken?_emptyLines_iff {taken : List Char} : emptyLines.pattern.taken? prev text = some taken ↔
    Anchor.lineStart.HoldsBetween prev [] ∧
      ∃ line rest, isEmptyLine line = true ∧ taken = line ++ ['\n'] ∧ text = line ++ '\n' :: rest := by
  have hfirst : ∀ {taken}, emptyLines.pattern.taken? prev text = some taken →
      Anchor.lineStart.HoldsBetween prev [] ∧
        ∃ line rest, isEmptyLine line = true ∧ taken = line ++ ['\n'] ∧ text = line ++ '\n' :: rest := by
    intro taken h
    obtain ⟨behind, parts, rfl, htakes⟩ := exists_takes_of_taken? h
    obtain ⟨hprev, ⟨line, hline, rfl⟩, -⟩ := takes_emptyLines.mp htakes
    exact ⟨hprev, line, behind, hline, rfl, by simp⟩
  refine ⟨hfirst, ?_⟩
  rintro ⟨hprev, line, rest, hline, rfl, rfl⟩
  have hsome : (emptyLines.pattern.taken? prev (line ++ '\n' :: rest)).isSome = true := by
    rw [taken?, Option.isSome_map, matchAt_isSome_iff]
    exact ⟨line ++ ['\n'], rest, [], by simp, takes_emptyLines.mpr ⟨hprev, ⟨line, hline, rfl⟩, rfl⟩⟩
  obtain ⟨taken, htaken⟩ := Option.isSome_iff_exists.mp hsome
  obtain ⟨-, other, rest', hother, rfl, heq⟩ := hfirst htaken
  obtain ⟨rfl, -⟩ :=
    Text.eq_of_append_break (not_mem_of_isEmptyLine hline) (not_mem_of_isEmptyLine hother) heq
  exact htaken

/-- Where no empty line begins, a line stays. -/
private theorem rewrites_line (hline : '\n' ∉ line)
    (hnone : emptyLines.pattern.taken? prev (line ++ '\n' :: rest) = none)
    (hrest : emptyLines.pattern.Rewrites (fun _ => []) (some '\n') rest out) :
    emptyLines.pattern.Rewrites (fun _ => []) prev (line ++ '\n' :: rest) (line ++ '\n' :: out) := by
  induction line generalizing prev with
  | nil => exact .plain hnone hrest
  | cons c line ih =>
    obtain ⟨hne, hmem⟩ := not_or.mp (mt List.mem_cons.mpr hline)
    refine .plain hnone (ih hmem ?_)
    rw [Option.eq_none_iff_forall_ne_some]
    intro taken htaken
    rcases Anchor.holdsBetween_lineStart.mp (taken?_emptyLines_iff.mp htaken).1 with h | h
    · cases h
    · exact hne (Option.some.inj h).symm

/-- Empty lines go, but the last one has no line feed to go with. -/
theorem emptyLines_apply (h : Text.AreLines ended last) : emptyLines.apply (Text.joinLines ended last) =
    Text.joinLines (ended.filter fun line => !isEmptyLine line) last := by
  have hlines (prev : Option Char) (hprev : Anchor.lineStart.HoldsBetween prev []) :
      emptyLines.pattern.Rewrites (fun _ => []) prev (Text.joinLines ended last)
        (Text.joinLines (ended.filter fun line => !isEmptyLine line) last) := by
    induction ended generalizing prev with
    | nil =>
      refine .of_forall_ne fun before behind taken hsplit htaken => ?_
      obtain ⟨-, line, rest, -, -, rfl⟩ := taken?_emptyLines_iff.mp htaken
      have hmem : '\n' ∈ last := by
        have hlast : last = before ++ (line ++ '\n' :: rest) := hsplit
        simp [hlast]
      exact h.2 hmem
    | cons line ended ih =>
      rw [Text.areLines_cons] at h
      have hrest := ih h.2 (some '\n') rfl
      by_cases hempty : isEmptyLine line = true
      · have htaken := taken?_emptyLines_iff.mpr ⟨hprev, line, Text.joinLines ended last, hempty, rfl, rfl⟩
        rw [List.filter_cons_of_neg (by simp [hempty])]
        have htext : Text.joinLines (line :: ended) last = line ++ ['\n'] ++ Text.joinLines ended last := by simp
        refine .hit htaken htext (by simp) ?_
        rw [List.getLast?_concat]
        exact hrest
      · rw [List.filter_cons_of_pos (by simp [hempty])]
        refine rewrites_line h.1 ?_ hrest
        rw [Option.eq_none_iff_forall_ne_some]
        intro taken htaken
        obtain ⟨-, other, rest, hother, -, heq⟩ := taken?_emptyLines_iff.mp htaken
        obtain ⟨rfl, -⟩ := Text.eq_of_append_break h.1 (not_mem_of_isEmptyLine hother) heq
        exact hempty hother
  exact (puts_emptyLines.rewrites_apply (c := 'x') (by decide) _).unique (hlines none rfl)

end Spacing

end Minifier
