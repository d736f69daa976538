import Minifier.Proofs.Rule.FirstLine
import Minifier.Proofs.Rule.Gaps
import Minifier.Proofs.Rule.Seams

/-!
The shared rules for blanks, one by one: which texts a rule leaves as they are, and which of the rules behind it leave
it nothing new to do. Most of these texts are told by their seams. Where a line is indented, the blanks at its beginning
stay, so it takes three characters to tell blanks that are too many.
-/

namespace Minifier

open Pattern Text

namespace Spacing

variable {prev before behind before' behind' : Option Char} {c d e : Char} {accepts : Char → Bool} {new : Char}
  {text taken rest out word line last : List Char} {ended : List (List Char)}

/-! ### Runs of blanks -/

theorem settles_collapseWhitespace :
    collapseWhitespace.Settles fun text => Along (Squeezed isBlank ' ') none text none :=
  Rule.settles_squeeze collapseWhitespace_apply rfl

theorem settles_collapseHorizontal :
    collapseHorizontal.Settles fun text => Along (Squeezed horizontal ' ') none text none :=
  Rule.settles_squeeze collapseHorizontal_apply rfl

/-! ### Ends of lines -/

theorem settles_trimLines : trimLines.Settles fun text => Along (Trimmed Class.spaceTab) none text none :=
  Rule.settles_cut (by decide) fun hlines => trimLines_apply hlines

/-- A line of which only the end is cut. -/
theorem cut_never : cut (fun _ => false) tailBlank = dropTail tailBlank := by
  funext line
  cases line <;> rfl

theorem settles_trailingSpace : trailingSpace.Settles fun text => Along (Trimmed fun _ => false) none text none := by
  refine Rule.settles_cut rfl fun hlines => ?_
  rw [trailingSpace_apply hlines, cut_never]

theorem trimmed_never_iff : Trimmed (fun _ => false) before behind ↔
    (AtEdge behind → before.any tailBlank = false) :=
  ⟨fun h => h.tail, fun h => ⟨fun _ => by cases behind <;> rfl, h⟩⟩

theorem along_trimLine (hbreak : accepts '\n' = false) (h : Along (Squeezed accepts new) before line behind)
    (hbefore : AtEdge before') (hbehind : AtEdge behind') :
    Along (Squeezed accepts new) before' (trimLine line) behind' := by
  by_cases hempty : trimLine line = []
  · rw [hempty]
    exact along_nil.mpr (squeezed_of_not (any_eq_false_of_atEdge hbreak hbehind))
  · obtain ⟨_, _, hcore⟩ := h.of_infix (infix_cut Class.spaceTab tailBlank line)
    refine hcore.ends hempty (fun c _ hseam => ?_) fun d _ _ => ?_
    · exact fun d hd haccepts => ⟨(hseam d hd haccepts).1, any_eq_false_of_atEdge hbreak hbefore⟩
    · exact squeezed_of_not (any_eq_false_of_atEdge hbreak hbehind)

/-- Where no two blanks of a line stand together, none do when its ends are trimmed. -/
theorem along_trimLines (hbreak : accepts '\n' = false) (h : Along (Squeezed accepts new) none text none) :
    Along (Squeezed accepts new) none (trimLines.apply text) none := by
  obtain ⟨ended, last, rfl, hlines⟩ := exists_joinLines text
  obtain ⟨hended, _, _, hlast⟩ := h.of_joinLines (.inl rfl)
  rw [trimLines_apply hlines]
  refine along_joinLines (.inl rfl) (List.forall_mem_map.mpr fun line hmem _ hbefore => ?_) fun hbefore => ?_
  · obtain ⟨_, _, hline⟩ := hended line hmem
    exact along_trimLine hbreak hline hbefore (.inr rfl)
  · exact along_trimLine hbreak hlast hbefore (.inl rfl)

/-! ### Blanks within an indented line -/

theorem break_not_mem_of_wideGap (h : wideGap c d e = true) : '\n' ∉ [c, d, e] := by
  obtain ⟨⟨-, hc⟩, hd, he⟩ := wideGap_iff.mp h
  have hblank : ∀ {x}, Class.spaceTab x = true → '\n' ≠ x := by
    rintro _ hx rfl
    exact absurd hx (by decide)
  simp [hc.symm, hblank hd, hblank he]

theorem walk_innerSpaces (prev : Option Char) (rest : List Char) (h : wideGap c d e = true) :
    ∃ labels, innerSpaces.pattern.walk ⟨0, prev, c :: d :: e :: rest, []⟩ some =
      (run Class.spaceTab).walk ⟨3, some e, rest, labels⟩ some := by
  simp only [wideGap, Bool.and_eq_true] at h
  obtain ⟨hc, hd, he⟩ := h
  exact ⟨_, (if_pos hc).trans ((if_pos hd).trans (if_pos he))⟩

/-- Behind the first character all spaces and tabs are taken, if there are two at least. -/
theorem taken?_innerSpaces (prev : Option Char) (rest : List Char) (h : wideGap c d e = true) :
    innerSpaces.pattern.taken? prev (c :: d :: e :: rest) =
      some (c :: d :: e :: rest.takeWhile Class.spaceTab) := by
  obtain ⟨labels, hwalk⟩ := walk_innerSpaces prev rest h
  rw [walk_run_of_isSome rfl] at hwalk
  have htext : c :: d :: e :: rest =
      c :: d :: e :: rest.takeWhile Class.spaceTab ++ rest.dropWhile Class.spaceTab := by
    simp only [List.cons_append, List.takeWhile_append_dropWhile]
  exact taken?_of_walk hwalk htext (Nat.add_comm 3 _)

theorem exists_of_taken?_innerSpaces (h : innerSpaces.pattern.taken? prev text = some taken) :
    ∃ c d e rest, text = c :: d :: e :: rest ∧ taken = c :: d :: e :: rest.takeWhile Class.spaceTab ∧
      wideGap c d e = true := by
  obtain ⟨behind, _, rfl, htakes⟩ := exists_takes_of_taken? h
  obtain ⟨c, d, e, more, rfl, -, hwide, -⟩ := exists_of_takes_innerSpaces htakes
  have htaken := (taken?_innerSpaces prev (more ++ behind) hwide).symm.trans h
  exact ⟨c, d, e, more ++ behind, rfl, (Option.some.inj htaken).symm, hwide⟩

theorem taken?_innerSpaces_of_spaceTab (hc : Class.spaceTab c = true) :
    innerSpaces.pattern.taken? prev (c :: rest) = none := by
  rw [Option.eq_none_iff_forall_ne_some]
  intro taken htaken
  obtain ⟨c', d, e, more, heq, -, hwide⟩ := exists_of_taken?_innerSpaces htaken
  obtain ⟨rfl, -⟩ := List.cons.inj heq
  exact absurd hc (Bool.eq_false_iff.mp (wideGap_iff.mp hwide).1.1)

/-- A text in which no two spaces or tabs stand behind something else on their line. -/
def LacksWideGaps (text : List Char) : Prop := ∀ c d e, [c, d, e] <:+: text → wideGap c d e = false

theorem LacksWideGaps.cons (h : LacksWideGaps text) (hfront : ∀ d e rest, text = d :: e :: rest → wideGap c d e = false) :
    LacksWideGaps (c :: text) := by
  intro c' d e hgap
  rcases List.infix_cons_iff.mp hgap with hbegin | hbehind
  · obtain ⟨rfl, rest, rfl⟩ := List.cons_prefix_cons.mp hbegin
    exact hfront d e rest rfl
  · exact h c' d e hbehind

/-- The first character of a text stays, so what can be taken together with a character in front of it can still. -/
theorem head?_of_rewrites_innerSpaces
    (h : innerSpaces.pattern.Rewrites (fun taken => taken.take 1 ++ [' ']) prev text out) : out.head? = text.head? := by
  cases h with
  | nil => rfl
  | plain _ _ => rfl
  | hit htaken htext hne _ =>
    obtain ⟨c, taken, rfl⟩ := List.exists_cons_of_ne_nil hne
    rw [htext]
    rfl

/-- Two spaces or tabs at the beginning stand there already. -/
theorem exists_of_rewrites_innerSpaces (hd : Class.spaceTab d = true)
    (h : innerSpaces.pattern.Rewrites (fun taken => taken.take 1 ++ [' ']) prev text (d :: e :: out)) :
    ∃ rest, text = d :: e :: rest := by
  obtain ⟨rest, rfl⟩ := List.head?_eq_some_iff.mp (head?_of_rewrites_innerSpaces h).symm
  obtain ⟨_, heq, hmore⟩ := h.of_cons (taken?_innerSpaces_of_spaceTab hd)
  obtain ⟨-, rfl⟩ := List.cons.inj heq
  obtain ⟨rest, rfl⟩ := List.head?_eq_some_iff.mp (head?_of_rewrites_innerSpaces hmore).symm
  exact ⟨rest, rfl⟩

theorem lacksWideGaps_of_rewrites
    (h : innerSpaces.pattern.Rewrites (fun taken => taken.take 1 ++ [' ']) prev text out) : LacksWideGaps out := by
  induction h with
  | nil => exact fun c d e hgap => absurd (List.infix_nil.mp hgap) (List.cons_ne_nil _ _)
  | @plain prev c rest out hnone hrest ih =>
    -- A gap that begins at a character that stays is there in the text, and would have been taken.
    refine ih.cons ?_
    rintro d e more rfl
    rw [Bool.eq_false_iff]
    intro hwide
    obtain ⟨rest, rfl⟩ := exists_of_rewrites_innerSpaces (wideGap_iff.mp hwide).2.1 hrest
    rw [taken?_innerSpaces prev rest hwide] at hnone
    cases hnone
  | @hit prev text taken rest out htaken htext _ hrest ih =>
    obtain ⟨c, d, e, behind, rfl, rfl, -⟩ := exists_of_taken?_innerSpaces htaken
    -- The blanks are taken to the last, so none comes behind the space that is put.
    have hstop : out.head?.any Class.spaceTab = false := by
      have hsplit : behind = behind.takeWhile Class.spaceTab ++ rest := by simpa using htext
      rw [head?_of_rewrites_innerSpaces hrest,
        ← List.append_cancel_left ((List.takeWhile_append_dropWhile).trans hsplit)]
      exact any_head?_dropWhile Class.spaceTab behind
    refine (ih.cons fun d e more _ => rfl).cons fun d e more hout => ?_
    obtain ⟨-, rfl⟩ := List.cons.inj hout
    rw [Bool.eq_false_iff]
    exact fun hwide => absurd (wideGap_iff.mp hwide).2.2 (Bool.eq_false_iff.mp hstop)

theorem settles_innerSpaces : innerSpaces.Settles LacksWideGaps where
  good_apply text := lacksWideGaps_of_rewrites (puts_innerSpaces.rewrites_apply (c := '\n') (by decide) text)
  apply_eq {text} h := by
    refine (puts_innerSpaces.rewrites_apply (c := '\n') (by decide) text).unique
      (.of_forall_ne fun before behind taken hsplit htaken => ?_)
    obtain ⟨c, d, e, rest, rfl, -, hwide⟩ := exists_of_taken?_innerSpaces htaken
    have hgap : [c, d, e] <:+: text := ⟨before, rest, by simp [hsplit]⟩
    exact absurd hwide (Bool.eq_false_iff.mp (h c d e hgap))

/-- What is taken does not end a line, or the blanks there would be gone, so the space that is put does not end one. -/
theorem along_of_rewrites_innerSpaces
    (hrewrites : innerSpaces.pattern.Rewrites (fun taken => taken.take 1 ++ [' ']) prev text out)
    (h : Along (Trimmed fun _ => false) before text none) : Along (Trimmed fun _ => false) before out none := by
  induction hrewrites generalizing before with
  | nil => exact h
  | plain _ _ ih =>
    obtain ⟨hseam, hrest⟩ := along_cons.mp h
    exact along_cons.mpr ⟨hseam, ih hrest⟩
  | @hit prev text taken rest out htaken htext _ hrest ih =>
    obtain ⟨_, _, -, htakes⟩ := exists_takes_of_taken? htaken
    obtain ⟨c, d, e, more, rfl, -, -, hblanks⟩ := exists_of_takes_innerSpaces htakes
    obtain ⟨most, x, hmost⟩ := (List.eq_nil_or_concat' (d :: e :: more)).resolve_left (List.cons_ne_nil _ _)
    have hx : Class.spaceTab x = true := hblanks x (by simp [hmost])
    rw [htext, hmost, List.cons_append, List.append_assoc, List.singleton_append] at h
    obtain ⟨hseam, htail⟩ := along_cons.mp h
    have hlast := ih (along_append_cons.mp htail).2
    refine along_cons.mpr ⟨hseam, along_cons.mpr ⟨trimmed_never_iff.mpr fun hedge => ?_, hlast.imp_before fun hend => ?_⟩⟩
    · exact absurd hedge (by simp [AtEdge])
    · refine trimmed_never_iff.mpr fun hedge => ?_
      exact absurd (tailBlank_of_spaceTab hx) (Bool.eq_false_iff.mp (hend.tail hedge))

theorem staysUnder_trailingSpace_innerSpaces : trailingSpace.StaysUnder innerSpaces :=
  settles_trailingSpace.staysUnder fun text =>
    along_of_rewrites_innerSpaces (puts_innerSpaces.rewrites_apply (c := '\n') (by decide) text)

theorem LacksWideGaps.of_infix (h : LacksWideGaps text) (hword : word <:+: text) : LacksWideGaps word :=
  fun c d e hgap => h c d e (hgap.trans hword)

/-- Blanks that are too many stand on one line. -/
theorem lacksWideGaps_joinLines_iff : LacksWideGaps (joinLines ended last) ↔
    (∀ line ∈ ended, LacksWideGaps line) ∧ LacksWideGaps last := by
  induction ended with
  | nil => simp
  | cons line ended ih =>
    rw [List.forall_mem_cons, and_assoc, ← ih, joinLines_cons]
    constructor
    · exact fun h => ⟨h.of_infix ⟨[], _, rfl⟩, h.of_infix ⟨line ++ ['\n'], [], by simp⟩⟩
    · rintro ⟨hline, hrest⟩ c d e hgap
      rw [Bool.eq_false_iff]
      intro hwide
      rcases (infix_append_cons_iff (break_not_mem_of_wideGap hwide)).mp hgap with hgap | hgap
      · exact absurd hwide (Bool.eq_false_iff.mp (hline c d e hgap))
      · exact absurd hwide (Bool.eq_false_iff.mp (hrest c d e hgap))

theorem LacksWideGaps.emptyLines (h : LacksWideGaps text) : LacksWideGaps (Spacing.emptyLines.apply text) := by
  obtain ⟨ended, last, rfl, hlines⟩ := exists_joinLines text
  obtain ⟨hended, hlast⟩ := lacksWideGaps_joinLines_iff.mp h
  rw [emptyLines_apply hlines]
  exact lacksWideGaps_joinLines_iff.mpr ⟨fun line hline => hended line (List.mem_of_mem_filter hline), hlast⟩

theorem LacksWideGaps.trimEnds (h : LacksWideGaps text) : LacksWideGaps (Spacing.trimEnds.apply text) := by
  rw [trimEnds_apply]
  exact h.of_infix (infix_cut isBlank isBlank text)

/-! ### Empty lines -/

/-- A text in which no line but the last is empty. -/
def LacksEmptyLines (text : List Char) : Prop :=
  ∀ front line behind, text = front ++ (line ++ '\n' :: behind) → AtEdge front.getLast? → isEmptyLine line = false

theorem lacksEmptyLines_joinLines (hlines : AreLines ended last) (h : ∀ line ∈ ended, isEmptyLine line = false) :
    LacksEmptyLines (joinLines ended last) := by
  intro front line behind htext hedge
  rw [Bool.eq_false_iff]
  intro hempty
  induction ended generalizing front with
  | nil =>
    have hmem : '\n' ∈ last := by
      rw [joinLines_nil] at htext
      simp [htext]
    exact hlines.2 hmem
  | cons first ended ih =>
    rw [areLines_cons] at hlines
    obtain ⟨hfirst, hended⟩ := List.forall_mem_cons.mp h
    -- The first line feed ends the first line, so an empty line is this one or stands behind it.
    by_cases hmem : '\n' ∈ front
    · obtain ⟨line', rest, rfl, hline'⟩ := List.eq_append_cons_of_mem hmem
      have hsplit : first ++ '\n' :: joinLines ended last = line' ++ '\n' :: (rest ++ (line ++ '\n' :: behind)) := by
        simpa using htext
      obtain ⟨-, hrest⟩ := eq_of_append_break hlines.1 hline' hsplit
      refine ih hlines.2 hended rest hrest ?_
      rcases List.eq_nil_or_concat' rest with rfl | ⟨most, d, rfl⟩
      · exact .inl rfl
      · rwa [List.getLast?_concat, ← List.getLast?_concat (l := line' ++ '\n' :: most), List.append_assoc,
          List.cons_append]
    · obtain rfl : front = [] :=
        List.getLast?_eq_none_iff.mp (hedge.resolve_right fun hlast => hmem (List.mem_of_getLast? hlast))
      obtain ⟨rfl, -⟩ := eq_of_append_break hlines.1 (not_mem_of_isEmptyLine hempty) htext
      exact absurd hempty (Bool.eq_false_iff.mp hfirst)

theorem settles_emptyLines : emptyLines.Settles LacksEmptyLines where
  good_apply text := by
    obtain ⟨ended, last, rfl, hlines⟩ := exists_joinLines text
    rw [emptyLines_apply hlines]
    refine lacksEmptyLines_joinLines ⟨fun line hline => hlines.1 line (List.mem_of_mem_filter hline), hlines.2⟩ ?_
    exact fun line hline => by simpa using List.of_mem_filter hline
  apply_eq {text} h := by
    refine (puts_emptyLines.rewrites_apply (c := 'x') (by decide) text).unique
      (.of_forall_ne fun front behind taken hsplit htaken => ?_)
    obtain ⟨hstart, line, rest, hempty, -, rfl⟩ := taken?_emptyLines_iff.mp htaken
    rw [Option.or_none] at hstart
    exact absurd hempty (Bool.eq_false_iff.mp (h front line rest hsplit (Anchor.holdsBetween_lineStart.mp hstart)))

/-- A line that begins the trimmed text begins with something else than a blank, and any other stands in the text. -/
theorem LacksEmptyLines.trimEnds (h : LacksEmptyLines text) : LacksEmptyLines (Spacing.trimEnds.apply text) := by
  rw [trimEnds_apply, trim_eq_cut]
  intro front line behind htrim hedge
  rcases List.eq_nil_or_concat' front with rfl | ⟨most, d, rfl⟩
  · rw [Bool.eq_false_iff]
    intro hempty
    have hblank : (line ++ '\n' :: behind).head?.any isBlank = true := by
      cases line with
      | nil => rfl
      | cons c line => exact isBlank_of_isEmptyLine hempty c List.mem_cons_self
    have hfirst := head?_cut isBlank isBlank text
    rw [htrim, List.nil_append, hblank] at hfirst
    cases hfirst
  · obtain ⟨before, after, htext⟩ := infix_cut isBlank isBlank text
    have hsplit : text = before ++ (most ++ [d]) ++ (line ++ '\n' :: (behind ++ after)) := by
      rw [← htext, htrim]
      simp
    refine h _ line (behind ++ after) hsplit ?_
    rwa [List.getLast?_append, List.getLast?_concat, Option.some_or, ← List.getLast?_concat (l := most)]

/-! ### Both ends of the text -/

theorem settles_trimEnds : trimEnds.Settles fun text =>
    text.head?.any isBlank = false ∧ text.getLast?.any isBlank = false where
  good_apply text := by
    rw [trimEnds_apply]
    exact ⟨head?_cut isBlank isBlank text, getLast?_cut isBlank isBlank text⟩
  apply_eq h := by
    rw [trimEnds_apply]
    exact cut_eq_self h.1 h.2

end Spacing

end Minifier
