import Minifier.Generic
import Minifier.Proofs.Rule.Indentation
import Minifier.Proofs.Rule.Lines
import Mathlib.Logic.Relation

/-!
The first line of a text under the rules for blanks. Blanks in it may become fewer, and unless every line break becomes
a space, nothing else joins it: the line break behind it stays, or nothing stands behind it.
-/

namespace Minifier

open Pattern Text Spacing

variable {c : Char} {old new left right line behind text out blanks : List Char}

/-! ### Fewer blanks -/

/-- A run of blanks gives way to one that is no longer, or the blanks at the end go. -/
inductive ShortensBlanks : List Char → List Char → Prop where
  | run (left right : List Char) {blanks blanks' : List Char} : (∀ c ∈ blanks, isBlank c = true) →
      (∀ c ∈ blanks', isBlank c = true) → blanks' ≠ [] → blanks'.length ≤ blanks.length →
      ShortensBlanks (left ++ (blanks ++ right)) (left ++ (blanks' ++ right))
  | tail (left : List Char) {blanks : List Char} : (∀ c ∈ blanks, isBlank c = true) →
      ShortensBlanks (left ++ blanks) left

/-- The second text is the first one with runs of blanks shortened and blanks gone from its end. No run within the text
goes altogether. -/
def FewerBlanks : List Char → List Char → Prop := Relation.ReflTransGen ShortensBlanks

theorem ShortensBlanks.append_left (kept : List Char) (h : ShortensBlanks old new) :
    ShortensBlanks (kept ++ old) (kept ++ new) := by
  cases h with
  | run left right hold hnew hne hlength =>
    rw [← List.append_assoc, ← List.append_assoc kept]
    exact .run (kept ++ left) right hold hnew hne hlength
  | tail _ hblanks =>
    rw [← List.append_assoc]
    exact .tail (kept ++ new) hblanks

namespace FewerBlanks

theorem refl (text : List Char) : FewerBlanks text text := Relation.ReflTransGen.refl

theorem trans {first second third : List Char} (h : FewerBlanks first second) (h' : FewerBlanks second third) :
    FewerBlanks first third :=
  Relation.ReflTransGen.trans h h'

theorem append_left (kept : List Char) (h : FewerBlanks old new) : FewerBlanks (kept ++ old) (kept ++ new) :=
  Relation.ReflTransGen.lift (kept ++ ·) (fun _ _ hstep => ShortensBlanks.append_left kept hstep) _ _ h

theorem cons (c : Char) (h : FewerBlanks old new) : FewerBlanks (c :: old) (c :: new) := h.append_left [c]

/-- A run of blanks at the beginning gives way to a shorter one. -/
theorem run {blanks' : List Char} (right : List Char) (hold : ∀ c ∈ blanks, isBlank c = true)
    (hnew : ∀ c ∈ blanks', isBlank c = true) (hne : blanks' ≠ []) (hlength : blanks'.length ≤ blanks.length) :
    FewerBlanks (blanks ++ right) (blanks' ++ right) :=
  .single (.run [] right hold hnew hne hlength)

theorem tail (left : List Char) (hblanks : ∀ c ∈ blanks, isBlank c = true) : FewerBlanks (left ++ blanks) left :=
  .single (.tail left hblanks)

/-- Nothing but blanks comes in or goes. -/
theorem nonBlank_eq (h : FewerBlanks old new) : nonBlank old = nonBlank new := by
  induction h with
  | refl => rfl
  | tail _ hstep ih =>
    rw [ih]
    cases hstep with
    | run left right hold hnew _ _ =>
      simp only [nonBlank_append, nonBlank_eq_nil_iff.mpr hold, nonBlank_eq_nil_iff.mpr hnew]
    | tail _ hblanks => rw [nonBlank_append, nonBlank_eq_nil_iff.mpr hblanks, List.append_nil]

theorem forall_isBlank_iff (h : FewerBlanks old new) :
    (∀ c ∈ new, isBlank c = true) ↔ ∀ c ∈ old, isBlank c = true := by
  rw [← nonBlank_eq_nil_iff, ← nonBlank_eq_nil_iff, h.nonBlank_eq]

theorem mem_iff (h : FewerBlanks old new) (hc : isBlank c = false) : c ∈ new ↔ c ∈ old := by
  have hmem : ∀ text, c ∈ nonBlank text ↔ c ∈ text := fun text => by simp [nonBlank, List.mem_filter, hc]
  rw [← hmem, ← h.nonBlank_eq, hmem]

theorem length_le (h : FewerBlanks old new) : new.length ≤ old.length := by
  induction h with
  | refl => exact Nat.le_refl _
  | tail _ hstep ih =>
    refine Nat.le_trans ?_ ih
    cases hstep with
    | run _ _ _ _ _ hlength => simpa using hlength
    | tail _ _ => simp

/-- A first character that is no blank stays, and what stands behind it is shortened. -/
theorem exists_of_cons (hc : isBlank c = false) (h : FewerBlanks (c :: old) new) :
    ∃ rest, new = c :: rest ∧ FewerBlanks old rest := by
  induction h with
  | refl => exact ⟨old, rfl, .refl old⟩
  | @tail _ last _ hstep ih =>
    obtain ⟨rest, rfl, hrest⟩ := ih
    generalize hbetween : c :: rest = between at hstep
    have hne : ∀ {blanks text : List Char}, (∀ d ∈ blanks, isBlank d = true) → c :: rest = blanks ++ text →
        blanks = [] := by
      intro blanks text hblanks heq
      cases blanks with
      | nil => rfl
      | cons d blanks =>
        obtain ⟨rfl, -⟩ := List.cons.inj heq
        rw [hblanks c List.mem_cons_self] at hc
        cases hc
    cases hstep with
    | @run left right blanks blanks' hold hnew hnonempty hlength =>
      cases left with
      | nil =>
        obtain rfl := hne hold hbetween
        exact absurd (List.eq_nil_of_length_eq_zero (Nat.le_zero.mp hlength)) hnonempty
      | cons d left =>
        obtain ⟨rfl, rfl⟩ := List.cons.inj hbetween
        exact ⟨_, rfl, hrest.trans (.single (.run left right hold hnew hnonempty hlength))⟩
    | @tail _ blanks hblanks =>
      cases last with
      | nil =>
        obtain rfl := @hne blanks [] hblanks (by simpa using hbetween)
        cases hbetween
      | cons d last =>
        obtain ⟨rfl, rfl⟩ := List.cons.inj hbetween
        exact ⟨last, rfl, hrest.trans (.tail last hblanks)⟩

/-- So does a whole word. -/
theorem exists_of_append {word : List Char} (hword : ∀ c ∈ word, isBlank c = false)
    (h : FewerBlanks (word ++ old) new) : ∃ rest, new = word ++ rest ∧ FewerBlanks old rest := by
  induction word generalizing new with
  | nil => exact ⟨new, rfl, h⟩
  | cons c word ih =>
    obtain ⟨hc, hrest⟩ := List.forall_mem_cons.mp hword
    obtain ⟨more, rfl, hmore⟩ := h.exists_of_cons hc
    obtain ⟨rest, rfl, hfewer⟩ := ih hrest hmore
    exact ⟨rest, rfl, hfewer⟩

end FewerBlanks

/-! ### First lines -/

/-- A text begins with a line, whose blanks may have become fewer, as a line of its own. -/
def BeginsWithLine (line text : List Char) : Prop :=
  ∃ line' behind, text = line' ++ behind ∧ FewerBlanks line line' ∧ '\n' ∉ line' ∧ EndsLine behind

/-- An edit leaves the first line of a text a line of its own, if the line begins with something else than a blank. -/
def KeepsFirstLine (edit : List Char → List Char) : Prop :=
  ∀ c line text, isBlank c = false → BeginsWithLine (c :: line) text → BeginsWithLine (c :: line) (edit text)

theorem keepsFirstLine_run {pipeline : Pipeline} (h : pipeline.Each fun rule => KeepsFirstLine rule.apply) :
    KeepsFirstLine pipeline.run := by
  intro c line text hc
  exact @Pipeline.run_of_apply (fun old new => BeginsWithLine (c :: line) old → BeginsWithLine (c :: line) new)
    (fun _ => id) (fun h h' => h' ∘ h) pipeline (fun rule hrule text => h rule hrule c line text hc) text

/-- It is enough to look at a text that begins with the line as it is. -/
theorem KeepsFirstLine.of_line {edit : List Char → List Char}
    (h : ∀ c line behind, isBlank c = false → '\n' ∉ c :: line → EndsLine behind →
      BeginsWithLine (c :: line) (edit (c :: line ++ behind))) : KeepsFirstLine edit := by
  rintro c line _ hc ⟨line', behind, rfl, hfewer, hline, hbehind⟩
  obtain ⟨rest, rfl, -⟩ := hfewer.exists_of_cons hc
  obtain ⟨line'', behind', heq, hfewer', hline', hbehind'⟩ := h c rest behind hc hline hbehind
  exact ⟨line'', behind', heq, hfewer.trans hfewer', hline', hbehind'⟩

/-! ### Rules that stay within a line -/

/-- What a rule does where a line does not begin with a blank: it shortens blanks, or takes those at the end of the
line. -/
structure ShortensInLine (pattern : Pattern) (replace : List Char → List Char) : Prop where
  avoids : pattern.avoids '\n' = true
  exceeds : pattern.exceeds [] = true
  swap : ∀ {prev taken rest parts}, pattern.Takes prev taken rest parts →
    (prev = none ∨ prev = some '\n' → ∀ c ∈ taken.head?, isBlank c = false) →
    '\n' ∉ replace taken ∧ ((∀ right, FewerBlanks (taken ++ right) (replace taken ++ right)) ∨
      (∀ c ∈ taken, isBlank c = true) ∧ replace taken = [] ∧ EndsLine rest)

/-- What is taken without a line break from a line lies in the line. -/
theorem Spacing.EndsLine.exists_of_append_eq {taken rest : List Char} (hbehind : EndsLine behind)
    (htaken : '\n' ∉ taken) (h : line ++ behind = taken ++ rest) :
    ∃ more, line = taken ++ more ∧ rest = more ++ behind := by
  rcases List.append_eq_append_iff.mp h with ⟨more, rfl, hmore⟩ | ⟨more, rfl, rfl⟩
  · cases more with
    | nil => exact ⟨[], by simp, by simpa using hmore.symm⟩
    | cons d more =>
      rcases hbehind with rfl | hhead
      · cases hmore
      · rw [hmore] at hhead
        obtain rfl := Option.some.inj hhead
        exact absurd (List.mem_append_right _ List.mem_cons_self) htaken
  · exact ⟨more, rfl, rfl⟩

/-- Before the end of a line stands all of the line. -/
theorem Spacing.EndsLine.eq_nil (hline : '\n' ∉ line) (h : EndsLine (line ++ behind)) : line = [] := by
  cases line with
  | nil => rfl
  | cons d line =>
    rcases h with hnil | hhead
    · cases hnil
    · obtain rfl := Option.some.inj hhead
      exact absurd List.mem_cons_self hline

/-- The induction is on the text: what is taken before the line break lies in the line, and the line break itself is not
taken. -/
theorem Pattern.Rewrites.beginsWithLine {pattern : Pattern} {replace : List Char → List Char} {prev : Option Char}
    (hrule : ShortensInLine pattern replace) (h : pattern.Rewrites replace prev text out)
    (htext : text = line ++ behind) (hline : '\n' ∉ line) (hbehind : EndsLine behind)
    (hfront : prev = none ∨ prev = some '\n' → ∀ c ∈ line.head?, isBlank c = false) : BeginsWithLine line out := by
  induction h generalizing line with
  | nil =>
    obtain ⟨rfl, rfl⟩ := List.append_eq_nil_iff.mp htext.symm
    exact ⟨[], [], rfl, .refl _, List.not_mem_nil, Or.inl rfl⟩
  | @plain _ c rest out _ _ ih =>
    cases line with
    | nil =>
      rcases hbehind with rfl | hhead
      · cases htext
      · rw [← List.nil_append behind, ← htext] at hhead
        exact ⟨[], c :: out, rfl, .refl _, List.not_mem_nil, Or.inr hhead⟩
    | cons d line =>
      obtain ⟨rfl, rfl⟩ := List.cons.inj htext
      obtain ⟨hne, hmem⟩ := not_or.mp (mt List.mem_cons.mpr hline)
      have hinside : some c = none ∨ some c = some '\n' → ∀ d ∈ line.head?, isBlank d = false := by
        rintro (hnone | hbreak)
        · cases hnone
        · exact absurd (Option.some.inj hbreak).symm hne
      obtain ⟨line', behind', rfl, hfewer, hline', hends⟩ := ih rfl hmem hinside
      exact ⟨c :: line', behind', rfl, hfewer.cons c, List.not_mem_cons_of_ne_of_not_mem hne hline', hends⟩
  | @hit prev text taken rest out htaken hsplit hne _ ih =>
    obtain ⟨_, _, hsplit', htakes⟩ := exists_takes_of_taken? htaken
    obtain rfl := List.append_cancel_left (hsplit.symm.trans hsplit')
    have hbreak : '\n' ∉ taken := htakes.not_mem hrule.avoids
    obtain ⟨more, rfl, rfl⟩ := hbehind.exists_of_append_eq hbreak (htext.symm.trans hsplit)
    obtain ⟨-, hmore⟩ := not_or.mp (mt List.mem_append.mpr hline)
    obtain ⟨d, taken, rfl⟩ := List.exists_cons_of_ne_nil hne
    have hinside : ((d :: taken).getLast?.or prev) = none ∨ ((d :: taken).getLast?.or prev) = some '\n' →
        ∀ c ∈ more.head?, isBlank c = false := by
      rw [List.getLast?_eq_some_getLast hne, Option.some_or]
      rintro (hnone | hlast)
      · cases hnone
      · exact absurd (Option.some.inj hlast ▸ List.getLast_mem hne) hbreak
    obtain ⟨line', behind', rfl, hfewer, hline', hends⟩ := ih rfl hmore hinside
    obtain ⟨hnew, hshort⟩ := hrule.swap htakes (fun hstart => hfront hstart)
    refine ⟨replace (d :: taken) ++ line', behind', by simp, ?_, by simp [hnew, hline'], hends⟩
    rcases hshort with hshort | ⟨hblank, hnil, hend⟩
    · exact (hshort more).trans (hfewer.append_left _)
    · obtain rfl := hend.eq_nil hmore
      rw [hnil, List.append_nil]
      exact (FewerBlanks.tail [] hblank).trans hfewer

theorem ShortensInLine.keepsFirstLine {rule : Rule} {replace : List Char → List Char} (hputs : rule.Puts replace)
    (h : ShortensInLine rule.pattern replace) : KeepsFirstLine rule.apply := by
  refine .of_line fun c line behind hc hline hbehind => ?_
  refine (hputs.rewrites_apply h.avoids _).beginsWithLine h rfl hline hbehind fun _ d hd => ?_
  obtain rfl := Option.some.inj hd
  exact hc

namespace Spacing

theorem keepsFirstLine_collapseHorizontal : KeepsFirstLine collapseHorizontal.apply := by
  refine ShortensInLine.keepsFirstLine puts_collapseHorizontal ⟨by decide, by decide, fun htakes _ => ?_⟩
  obtain ⟨hne, hall, -⟩ := (takes_run1 _).mp htakes
  refine ⟨by decide, Or.inl fun right => .run right (fun c hc => Class.isBlank_of_among (by decide) (hall c hc))
    (List.all_eq_true.mp rfl) (by decide) (List.length_pos_iff.mpr hne)⟩

/-- Blanks at the end of a line. -/
theorem endsLine_of_takes_lineTail {prev : Option Char} {taken rest : List Char} {parts : Parts}
    (h : lineTail.Takes prev taken rest parts) : (∀ c ∈ taken, isBlank c = true) ∧ EndsLine rest := by
  refine ⟨fun c hc => Class.isBlank_of_among (by decide) (mem_of_takes_lineTail h c hc), ?_⟩
  obtain ⟨_, _, _, _, -, ⟨hends, rfl, -⟩, -, -⟩ := h
  exact Anchor.holdsBetween_lineEnd.mp hends

theorem keepsFirstLine_trailingSpace : KeepsFirstLine trailingSpace.apply := by
  have hputs : trailingSpace.Puts fun _ => [] := .drop (by decide)
  refine ShortensInLine.keepsFirstLine hputs ⟨by decide, by decide, fun htakes _ => ⟨List.not_mem_nil, Or.inr ?_⟩⟩
  obtain ⟨hblank, hends⟩ := endsLine_of_takes_lineTail htakes
  exact ⟨hblank, rfl, hends⟩

theorem keepsFirstLine_trimLines : KeepsFirstLine trimLines.apply := by
  refine ShortensInLine.keepsFirstLine puts_trimLines ⟨by decide, by decide, fun htakes hfront => ?_⟩
  refine ⟨List.not_mem_nil, Or.inr ?_⟩
  rcases htakes with ⟨_, blanks, _, _, ⟨hstart, rfl, -⟩, hblanks, rfl, -⟩ | htail
  · obtain ⟨hne, hall, -⟩ := (takes_run1 _).mp hblanks
    obtain ⟨d, blanks, rfl⟩ := List.exists_cons_of_ne_nil hne
    have hd := Class.isBlank_of_spaceTab (hall d List.mem_cons_self)
    rw [hfront (Anchor.holdsBetween_lineStart.mp hstart) d rfl] at hd
    cases hd
  · obtain ⟨hblank, hends⟩ := endsLine_of_takes_lineTail htail
    exact ⟨hblank, rfl, hends⟩

theorem puts_innerSpaces : innerSpaces.Puts fun taken => taken.take 1 ++ [' '] where
  exceeds := by decide
  passes := rfl
  replace := by
    intro index prev rest found hfound
    obtain ⟨behind, _, rfl, -⟩ := Match.exists_takes hfound
    obtain ⟨c, blanks, htext, hreplace, -⟩ := exists_of_matchAt_innerSpaces hfound
    rw [hreplace, htext]
    rfl

theorem keepsFirstLine_innerSpaces : KeepsFirstLine innerSpaces.apply := by
  refine ShortensInLine.keepsFirstLine puts_innerSpaces ⟨by decide, by decide, fun htakes _ => ?_⟩
  obtain ⟨c, d, e, more, rfl, -, hwide, hblanks⟩ := exists_of_takes_innerSpaces htakes
  obtain ⟨⟨-, hc⟩, -⟩ := wideGap_iff.mp hwide
  refine ⟨by simpa using hc.symm, Or.inl fun right => ?_⟩
  have hspace : FewerBlanks (d :: e :: more ++ right) ([' '] ++ right) :=
    .run right (fun x hx => Class.isBlank_of_spaceTab (hblanks x hx)) (List.all_eq_true.mp rfl) (by decide)
      (Nat.le_add_left 1 _)
  exact hspace.cons c

/-! ### Rules across lines -/

theorem keepsFirstLine_emptyLines : KeepsFirstLine emptyLines.apply := by
  refine .of_line fun c line behind hc hline hbehind => ?_
  rcases hbehind with rfl | hhead
  · have hlines : AreLines [] (c :: line) := ⟨by simp, hline⟩
    have happly := emptyLines_apply hlines
    rw [joinLines_nil] at happly
    rw [List.append_nil, happly]
    exact ⟨c :: line, [], by simp, .refl _, hline, Or.inl rfl⟩
  · obtain ⟨rest, rfl⟩ := List.head?_eq_some_iff.mp hhead
    obtain ⟨ended, last, rfl, hlines⟩ := exists_joinLines rest
    have hkept : isEmptyLine (c :: line) = false := by
      rw [Bool.eq_false_iff]
      intro hempty
      rw [isBlank_of_isEmptyLine hempty c List.mem_cons_self] at hc
      cases hc
    have happly := emptyLines_apply (areLines_cons.mpr ⟨hline, hlines⟩)
    rw [joinLines_cons, List.filter_cons_of_pos (by simp [hkept]), joinLines_cons] at happly
    rw [happly]
    exact ⟨c :: line, _, rfl, .refl _, hline, Or.inr rfl⟩

end Spacing

namespace Text

/-- Behind something that stays, the tail is that of what follows. -/
theorem dropTail_append {p : Char → Bool} (h : ¬ ∀ c ∈ right, p c = true) (left : List Char) :
    dropTail p (left ++ right) = left ++ dropTail p right := by
  induction left with
  | nil => rfl
  | cons c left ih =>
    have hnot : ¬ ∀ d ∈ c :: (left ++ right), p d = true := fun hall =>
      h fun d hd => hall d (List.mem_cons_of_mem _ (List.mem_append_right _ hd))
    rw [List.cons_append, dropTail_cons hnot, ih, List.cons_append]

theorem dropTail_append_of_forall {p : Char → Bool} (h : ∀ c ∈ right, p c = true) (left : List Char) :
    dropTail p (left ++ right) = dropTail p left := by
  rw [dropTail, dropTail, List.reverse_append, List.dropWhile_append_of_pos (by simpa using h)]

/-- A text that begins with something else than a blank is only trimmed at its end. -/
theorem trim_cons_of_not_blank (hc : isBlank c = false) (rest : List Char) :
    trim (c :: rest) = dropTail isBlank (c :: rest) := by
  rw [trim, List.dropWhile_cons_of_neg (by simp [hc])]

end Text

theorem FewerBlanks.dropTail (text : List Char) : FewerBlanks text (Text.dropTail isBlank text) := by
  have hsplit : text = Text.dropTail isBlank text ++ text.rtakeWhile isBlank := by
    rw [dropTail_eq_rdropWhile, List.rdropWhile_append_rtakeWhile]
  have htail : FewerBlanks (Text.dropTail isBlank text ++ text.rtakeWhile isBlank) (Text.dropTail isBlank text) :=
    .tail _ fun c hc => List.mem_rtakeWhile_imp hc
  rwa [← hsplit] at htail

namespace Spacing

theorem keepsFirstLine_trimEnds : KeepsFirstLine trimEnds.apply := by
  refine .of_line fun c line behind hc hline hbehind => ?_
  rw [trimEnds_apply, List.cons_append, trim_cons_of_not_blank hc, ← List.cons_append]
  by_cases hblank : ∀ d ∈ behind, isBlank d = true
  · rw [dropTail_append_of_forall hblank]
    have hsub : (dropTail isBlank (c :: line)).Sublist (c :: line) := by
      rw [dropTail_eq_rdropWhile]
      exact (List.rdropWhile_prefix _ _).sublist
    exact ⟨_, [], by simp, .dropTail _, fun hmem => hline (hsub.subset hmem), Or.inl rfl⟩
  · rw [dropTail_append hblank]
    refine ⟨_, _, rfl, .refl _, hline, Or.inr ?_⟩
    rcases hbehind with rfl | hhead
    · exact absurd (by simp) hblank
    · obtain ⟨rest, rfl⟩ := List.head?_eq_some_iff.mp hhead
      rw [dropTail_cons hblank]
      rfl

end Spacing

/-! ### Line breaks that become spaces -/

section Squeeze

/-- Inside a run, of which a blank stands before the text, what is left of it goes. -/
theorem FewerBlanks.squeezeFrom (text : List Char) : FewerBlanks text (squeezeFrom isBlank ' ' false text) ∧
    ∀ blank, isBlank blank = true →
      FewerBlanks (blank :: text) (' ' :: Minifier.squeezeFrom isBlank ' ' true text) := by
  have hspace : ∀ blank, isBlank blank = true → ∀ text, FewerBlanks ([blank] ++ text) ([' '] ++ text) :=
    fun blank hblank text => .run text (by simpa using hblank) (List.all_eq_true.mp rfl) (by simp) (by simp)
  induction text with
  | nil => exact ⟨.refl [], fun blank hblank => hspace blank hblank []⟩
  | cons c rest ih =>
    by_cases hc : isBlank c = true
    · rw [squeezeFrom_false_cons hc, squeezeFrom_true_cons hc]
      refine ⟨ih.2 c hc, fun blank hblank => ?_⟩
      have hpair : FewerBlanks ([blank, c] ++ rest) ([c] ++ rest) :=
        .run rest (by simp [hblank, hc]) (by simpa using hc) (by simp) (by simp)
      exact hpair.trans (ih.2 c hc)
    · have hneg : isBlank c = false := Bool.eq_false_iff.mpr hc
      rw [squeezeFrom_cons_of_neg hneg, squeezeFrom_cons_of_neg hneg]
      exact ⟨ih.1.cons c, fun blank hblank => (hspace blank hblank _).trans ((ih.1.cons c).cons ' ')⟩

/-- Runs of blanks before and behind something else become shorter by themselves. -/
theorem squeezeFrom_append_cons (hc : isBlank c = false) (busy : Bool) (left right : List Char) :
    squeezeFrom isBlank ' ' busy (left ++ c :: right) =
      squeezeFrom isBlank ' ' busy left ++ c :: squeezeFrom isBlank ' ' false right := by
  induction left generalizing busy with
  | nil =>
    rw [List.nil_append, squeezeFrom_cons_of_neg hc]
    rfl
  | cons d left ih =>
    by_cases hd : isBlank d = true
    · cases busy with
      | false => rw [List.cons_append, squeezeFrom_false_cons hd, squeezeFrom_false_cons hd, ih, List.cons_append]
      | true => rw [List.cons_append, squeezeFrom_true_cons hd, squeezeFrom_true_cons hd, ih]
    · have hneg : isBlank d = false := Bool.eq_false_iff.mpr hd
      rw [List.cons_append, squeezeFrom_cons_of_neg hneg, squeezeFrom_cons_of_neg hneg, ih, List.cons_append]

theorem exists_last_not_blank (h : ∃ c ∈ text, isBlank c = false) :
    ∃ front d tail, text = front ++ d :: tail ∧ isBlank d = false ∧ ∀ c ∈ tail, isBlank c = true := by
  induction text with
  | nil => simp at h
  | cons c rest ih =>
    by_cases hrest : ∃ d ∈ rest, isBlank d = false
    · obtain ⟨front, d, tail, rfl, hd, htail⟩ := ih hrest
      exact ⟨c :: front, d, tail, rfl, hd, htail⟩
    · have hblank : ∀ d ∈ rest, isBlank d = true := by simpa using hrest
      obtain ⟨d, hd, hnot⟩ := h
      rcases List.mem_cons.mp hd with rfl | hmem
      · exact ⟨[], d, rest, rfl, hnot, hblank⟩
      · rw [hblank d hmem] at hnot
        cases hnot

/-- Where every line break becomes a space, the first line of a trimmed text stands alone only if nothing but blanks
stands behind it. -/
theorem exists_trim_squeeze (hc : isBlank c = false) (hbehind : EndsLine behind) :
    ∃ line' behind', trim (squeeze isBlank ' ' (c :: line ++ behind)) = line' ++ behind' ∧
      FewerBlanks (c :: line) line' ∧ '\n' ∉ line' ∧
      ((∀ d ∈ behind, isBlank d = true) ∧ behind' = [] ∨
        (∃ d ∈ behind, isBlank d = false) ∧ behind'.head? = some ' ') := by
  obtain ⟨front, d, tail, hsplit, hd, htail⟩ := exists_last_not_blank ⟨c, List.mem_cons_self (l := line), hc⟩
  have hsqueeze : ∀ text, squeeze isBlank ' ' (front ++ d :: text) =
      squeeze isBlank ' ' front ++ [d] ++ squeeze isBlank ' ' text := fun text => by
    rw [squeeze, squeezeFrom_append_cons hd, List.append_assoc]
    rfl
  have hfewer : FewerBlanks (c :: line) (squeeze isBlank ' ' front ++ [d]) := by
    have hend : front ++ d :: tail = front ++ [d] ++ tail := by simp
    have hshort := (FewerBlanks.squeezeFrom (front ++ [d])).1
    rw [← squeeze, hsqueeze []] at hshort
    rw [hsplit, hend]
    exact (FewerBlanks.tail _ htail).trans (hshort.trans (.tail _ (by simp [squeeze, squeezeFrom])))
  have hbreak : '\n' ∉ squeeze isBlank ' ' front ++ [d] := by
    have hfront : '\n' ∉ squeeze isBlank ' ' front := not_mem_squeezeFrom (by decide) (by decide) false front
    have hne : d ≠ '\n' := by
      rintro rfl
      cases hd
    simp [hfront, hne.symm]
  have htext : trim (squeeze isBlank ' ' (c :: line ++ behind)) =
      dropTail isBlank (squeeze isBlank ' ' front ++ [d] ++ squeeze isBlank ' ' (tail ++ behind)) := by
    obtain ⟨rest, hrest, -⟩ := hfewer.exists_of_cons hc
    rw [hsplit, List.append_assoc, List.cons_append, hsqueeze, hrest, List.cons_append, trim_cons_of_not_blank hc]
  have hshort := (FewerBlanks.squeezeFrom (tail ++ behind)).1
  rw [← squeeze] at hshort
  refine ⟨squeeze isBlank ' ' front ++ [d], ?_⟩
  by_cases hblank : ∀ x ∈ behind, isBlank x = true
  · have hall := hshort.forall_isBlank_iff.mpr (List.forall_mem_append.mpr ⟨htail, hblank⟩)
    have hkeep : ¬ ∀ x ∈ [d], isBlank x = true := by simp [hd]
    refine ⟨[], ?_, hfewer, hbreak, Or.inl ⟨hblank, rfl⟩⟩
    rw [htext, dropTail_append_of_forall hall, dropTail_append hkeep, dropTail_cons hkeep]
    simp [dropTail]
  · have hrest : ¬ ∀ x ∈ squeeze isBlank ' ' (tail ++ behind), isBlank x = true := fun hall =>
      hblank (List.forall_mem_append.mp (hshort.forall_isBlank_iff.mp hall)).2
    obtain ⟨b, more, hmore, hb⟩ : ∃ b more, tail ++ behind = b :: more ∧ isBlank b = true := by
      cases tail with
      | nil =>
        rcases hbehind with rfl | hhead
        · exact absurd (by simp) hblank
        · obtain ⟨more, rfl⟩ := List.head?_eq_some_iff.mp hhead
          exact ⟨'\n', more, rfl, rfl⟩
      | cons b tail => exact ⟨b, tail ++ behind, rfl, htail b List.mem_cons_self⟩
    refine ⟨_, htext.trans (dropTail_append hrest _), hfewer, hbreak, Or.inr ⟨by simpa using hblank, ?_⟩⟩
    rw [hmore, squeeze, squeezeFrom_false_cons hb] at hrest ⊢
    rw [dropTail_cons hrest]
    rfl

end Squeeze

end Minifier
