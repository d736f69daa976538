import Minifier.Masking
import Minifier.Proofs.Masking.SetAside
import Minifier.Proofs.Pattern.Segments

/-!
Filling placeholders in. Two placeholders never overlap, since each begins with the one marking
character and ends with the other. So the order in which they are filled in does not matter, and
every way from a text to one without placeholders has the same number of steps. A round of filling in
takes at least one of these steps. As many rounds as steps are therefore enough, whatever the literals
hold: whole placeholders, pieces of them, or nothing.
-/

namespace Minifier

namespace Placeholder

theorem opening_ne_closing : opening ≠ closing := by decide

theorem opening_not_digit : Text.isDecimalDigit opening = false := by decide +kernel

theorem closing_not_digit : Text.isDecimalDigit closing = false := by decide +kernel

/-- The literal that digits between the marking characters stand for. -/
def valueOf (literals : Array (List Char)) (digits : List Char) : List Char :=
  ((number? digits).bind (literals[·]?)).getD []

/-- Digits in the sense of the pattern, between the marking characters. -/
def Digits (digits : List Char) : Prop := ∀ d ∈ digits, Text.isDecimalDigit d = true

theorem Digits.opening_not_mem {digits : List Char} (h : Digits digits) : opening ∉ digits := by
  intro hmem
  have := h _ hmem
  rw [opening_not_digit] at this
  cases this

theorem Digits.closing_not_mem {digits : List Char} (h : Digits digits) : closing ∉ digits := by
  intro hmem
  have := h _ hmem
  rw [closing_not_digit] at this
  cases this

/-- Digits end at the first closing character. -/
theorem Digits.eq_of_closing {digits digits' behind behind' : List Char} (h : Digits digits)
    (h' : Digits digits') (heq : digits ++ closing :: behind = digits' ++ closing :: behind') :
    digits = digits' ∧ behind = behind' := by
  induction digits generalizing digits' with
  | nil =>
    cases digits' with
    | nil => exact ⟨rfl, (List.cons.inj heq).2⟩
    | cons d digits' =>
      obtain ⟨rfl, -⟩ := List.cons.inj heq
      exact absurd (by simp) h'.closing_not_mem
  | cons d digits ih =>
    cases digits' with
    | nil =>
      obtain ⟨rfl, -⟩ := List.cons.inj heq
      exact absurd (by simp) h.closing_not_mem
    | cons d' digits' =>
      obtain ⟨rfl, hrest⟩ := List.cons.inj heq
      obtain ⟨rfl, rfl⟩ := ih (List.forall_mem_cons.mp h).2 (List.forall_mem_cons.mp h').2 hrest
      exact ⟨rfl, rfl⟩

/-! ### Numbers -/

/-- ASCII digits are read as the number that they write. -/
private theorem number?_from {digits : List Char} (h : ∀ d ∈ digits, d.isDigit = true) (n : Nat) :
    digits.foldl (fun n c => do
        let n ← n
        if c.isDigit then some (n * 10 + (c.toNat - 48)) else none) (some n) =
      some (Nat.ofDigitChars 10 digits n) := by
  induction digits generalizing n with
  | nil => rfl
  | cons d digits ih =>
    rw [List.forall_mem_cons] at h
    rw [List.foldl_cons, Nat.ofDigitChars_cons, ← ih h.2]
    simp [h.1, Nat.mul_comm]

theorem isDigit_of_mem_digitChars {n : Nat} {d : Char} (h : d ∈ Decimal.digitChars n) :
    d.isDigit = true :=
  Nat.isDigit_of_mem_toDigits (by decide) (by decide) h

theorem digitChars_ne_nil (n : Nat) : Decimal.digitChars n ≠ [] := Nat.toDigits_ne_nil

/-- The digits that are written for a number are read as that number. -/
theorem number?_digitChars (n : Nat) : number? (Decimal.digitChars n) = some n := by
  rw [number?, number?_from fun d hd => isDigit_of_mem_digitChars hd]
  exact congrArg some Nat.ofDigitChars_ten_toDigits

theorem isDecimalDigit_of_isDigit {d : Char} (h : d.isDigit = true) : Text.isDecimalDigit d = true := by
  have hascii : d.toNat < 128 := by
    simp only [Char.isDigit, Bool.and_eq_true, decide_eq_true_eq] at h
    have hlast : d.toNat ≤ 57 := UInt32.le_iff_toNat_le.mp h.2
    omega
  rw [Text.isDecimalDigit, if_pos hascii, h]

theorem digits_digitChars (n : Nat) : Digits (Decimal.digitChars n) :=
  fun _ hd => isDecimalDigit_of_isDigit (isDigit_of_mem_digitChars hd)

/-! ### The matches of a placeholder -/

/-- The pattern takes the two marking characters with digits between them, and nothing else. -/
theorem takes_pattern {prev : Option Char} {taken behind : List Char} {parts : Parts} :
    pattern.Takes prev taken behind parts ↔
      ∃ digits, digits ≠ [] ∧ Digits digits ∧ taken = opening :: (digits ++ [closing]) ∧
        parts = [(.part 1, digits)] := by
  simp only [pattern, Pattern.takes_append, Pattern.takes_part, Pattern.takes_char,
    Pattern.takes_run1]
  constructor
  · rintro ⟨_, _, _, _, ⟨_, digits, _, _, ⟨rfl, rfl⟩, ⟨_, ⟨hne, hdigits, rfl⟩, rfl⟩, rfl, rfl⟩,
      ⟨rfl, rfl⟩, rfl, rfl⟩
    exact ⟨digits, hne, hdigits, by simp, by simp⟩
  · rintro ⟨digits, hne, hdigits, rfl, rfl⟩
    exact ⟨opening :: digits, [closing], [(.part 1, digits)], [],
      ⟨[opening], digits, [], _, ⟨rfl, rfl⟩, ⟨[], ⟨hne, hdigits, rfl⟩, rfl⟩, rfl, rfl⟩,
      ⟨rfl, rfl⟩, by simp, rfl⟩

end Placeholder

/-! ### Steps -/

/-- One placeholder of a text gives way to what it stands for. -/
inductive FillsOne (literals : Array (List Char)) : List Char → List Char → Prop where
  | fill (before : List Char) {digits : List Char} (behind : List Char) :
      digits ≠ [] → Placeholder.Digits digits →
      FillsOne literals (before ++ Placeholder.opening :: (digits ++ Placeholder.closing :: behind))
        (before ++ (Placeholder.valueOf literals digits ++ behind))

/-- As many placeholders as given are filled in, one after the other. -/
inductive FillsIn (literals : Array (List Char)) : Nat → List Char → List Char → Prop where
  | none (text : List Char) : FillsIn literals 0 text text
  | more {n : Nat} {text next filled : List Char} :
      FillsOne literals text next → FillsIn literals n next filled →
      FillsIn literals (n + 1) text filled

variable {literals : Array (List Char)} {n m : Nat} {text next other filled : List Char}

namespace FillsOne

theorem append_left (before : List Char) (h : FillsOne literals text next) :
    FillsOne literals (before ++ text) (before ++ next) := by
  cases h with
  | fill inner behind hne hdigits =>
    have hfill : FillsOne literals _ _ := .fill (before ++ inner) behind hne hdigits
    simpa using hfill

theorem opening_mem (h : FillsOne literals text next) : Placeholder.opening ∈ text := by
  cases h with
  | fill before behind _ _ => simp

/-- A placeholder that begins behind the opening of another one begins behind its end. -/
private theorem exists_between {digits inner behind rest : List Char}
    (hdigits : Placeholder.Digits digits)
    (h : digits ++ Placeholder.closing :: behind = inner ++ Placeholder.opening :: rest) :
    ∃ between, inner = digits ++ Placeholder.closing :: between ∧
      behind = between ++ Placeholder.opening :: rest := by
  rcases List.append_eq_append_iff.mp h with ⟨more, rfl, hmore⟩ | ⟨more, rfl, hmore⟩
  · cases more with
    | nil => exact absurd (List.cons.inj hmore).1.symm Placeholder.opening_ne_closing
    | cons c between =>
      obtain ⟨rfl, rfl⟩ := List.cons.inj hmore
      exact ⟨between, rfl, rfl⟩
  · cases more with
    | nil => exact absurd (List.cons.inj hmore).1 Placeholder.opening_ne_closing
    | cons c between =>
      obtain ⟨rfl, -⟩ := List.cons.inj hmore
      exact absurd (by simp) hdigits.opening_not_mem

/-- Two placeholders of one text, the first not behind the second: either they are the same one, or
each can still be filled in after the other. -/
private theorem diamond_of_prefix {before more behind behind' digits digits' : List Char}
    (hne : digits ≠ []) (hdigits : Placeholder.Digits digits)
    (hne' : digits' ≠ []) (hdigits' : Placeholder.Digits digits')
    (h : Placeholder.opening :: (digits ++ Placeholder.closing :: behind) =
      more ++ Placeholder.opening :: (digits' ++ Placeholder.closing :: behind')) :
    before ++ (Placeholder.valueOf literals digits ++ behind) =
        before ++ more ++ (Placeholder.valueOf literals digits' ++ behind') ∨
      ∃ joined,
        FillsOne literals (before ++ (Placeholder.valueOf literals digits ++ behind)) joined ∧
        FillsOne literals
          (before ++ more ++ (Placeholder.valueOf literals digits' ++ behind')) joined := by
  cases more with
  | nil =>
    have hsame : digits ++ Placeholder.closing :: behind =
        digits' ++ Placeholder.closing :: behind' := (List.cons.inj h).2
    obtain ⟨rfl, rfl⟩ := hdigits.eq_of_closing hdigits' hsame
    exact Or.inl (by simp)
  | cons c inner =>
    obtain ⟨rfl, hinner⟩ := List.cons.inj h
    obtain ⟨between, rfl, rfl⟩ := exists_between hdigits hinner
    have hlater : FillsOne literals _ _ :=
      .fill (before ++ Placeholder.valueOf literals digits ++ between) behind' hne' hdigits'
    have hearlier : FillsOne literals _ _ :=
      .fill before (between ++ (Placeholder.valueOf literals digits' ++ behind')) hne hdigits
    refine Or.inr ⟨before ++ Placeholder.valueOf literals digits ++ between ++
      (Placeholder.valueOf literals digits' ++ behind'), ?_, ?_⟩
    · simpa using hlater
    · simpa using hearlier

/-- Two placeholders of one text are the same one, or each can still be filled in after the other. -/
theorem diamond (h : FillsOne literals text next) (h' : FillsOne literals text other) :
    next = other ∨ ∃ joined, FillsOne literals next joined ∧ FillsOne literals other joined := by
  cases h with
  | @fill before digits behind hne hdigits =>
    generalize htext : before ++ Placeholder.opening :: (digits ++ Placeholder.closing :: behind) =
      text at h'
    cases h' with
    | @fill before' digits' behind' hne' hdigits' =>
      rcases List.append_eq_append_iff.mp htext with ⟨more, rfl, hmore⟩ | ⟨more, rfl, hmore⟩
      · exact diamond_of_prefix hne hdigits hne' hdigits' hmore
      · rcases diamond_of_prefix hne' hdigits' hne hdigits hmore with
          heq | ⟨joined, hfirst, hsecond⟩
        · exact Or.inl heq.symm
        · exact Or.inr ⟨joined, hsecond, hfirst⟩

end FillsOne

namespace FillsIn

theorem append_left (before : List Char) (h : FillsIn literals n text filled) :
    FillsIn literals n (before ++ text) (before ++ filled) := by
  induction h with
  | none text => exact .none _
  | more hone _ ih => exact .more (hone.append_left before) ih

theorem trans (h : FillsIn literals n text next) (h' : FillsIn literals m next filled) :
    FillsIn literals (n + m) text filled := by
  induction h with
  | none text => rwa [Nat.zero_add]
  | @more n text _ _ hone _ ih =>
    rw [Nat.add_right_comm]
    exact .more hone (ih h')

/-- Where no placeholder is left in the end, any step is a step on the way: one less is left. -/
theorem of_fillsOne (h : FillsIn literals n text filled) (hend : Placeholder.opening ∉ filled)
    (hone : FillsOne literals text next) :
    ∃ m, n = m + 1 ∧ FillsIn literals m next filled := by
  induction h generalizing next with
  | none text => exact absurd hone.opening_mem hend
  | @more n text first filled hfirst hrest ih =>
    rcases hone.diamond hfirst with rfl | ⟨joined, hnext, hjoined⟩
    · exact ⟨n, rfl, hrest⟩
    · obtain ⟨m, rfl, hm⟩ := ih hend hjoined
      exact ⟨m + 1, rfl, .more hnext hm⟩

/-- Where no placeholder is left in the end, any steps are steps on the way. -/
theorem of_fillsIn (h : FillsIn literals n text filled) (hend : Placeholder.opening ∉ filled)
    (hsome : FillsIn literals m text next) :
    ∃ k, n = m + k ∧ FillsIn literals k next filled := by
  induction hsome generalizing n with
  | none text => exact ⟨n, by omega, h⟩
  | more hone _ ih =>
    obtain ⟨k, rfl, hk⟩ := h.of_fillsOne hend hone
    obtain ⟨l, rfl, hl⟩ := ih hk
    exact ⟨l, by omega, hl⟩

end FillsIn

/-! ### Rounds -/

namespace MaskedText

theorem literalOf_eq (literals : Array (List Char)) (found : Match) :
    literalOf literals found = Placeholder.valueOf literals (found.part 1) := by
  rw [literalOf, Placeholder.valueOf]
  cases Placeholder.number? (found.part 1) <;> rfl

/-- A search for placeholders fills in as many as it finds. -/
private theorem exists_fillsIn_of_segmented {index : Nat} {prev : Option Char}
    {segments : List Segment} (h : Placeholder.pattern.Segmented index prev text segments) :
    ∃ n, FillsIn literals n text (segments.flatMap (Segment.replaced (literalOf literals))) ∧
      (n = 0 → ∀ found, .hit found ∉ segments) := by
  induction h with
  | done => exact ⟨0, .none [], by simp⟩
  | @plain _ _ c _ _ _ _ ih =>
    obtain ⟨n, hfills, hplain⟩ := ih
    exact ⟨n, hfills.append_left [c], by simpa using hplain⟩
  | @hit _ _ _ rest found segments hfound htext _ ih =>
    obtain ⟨n, hfills, -⟩ := ih
    obtain ⟨_, _, -, htakes, hlabels⟩ := Match.exists_takes hfound
    obtain ⟨digits, hne, hdigits, hfoundtext, rfl⟩ := Placeholder.takes_pattern.mp htakes
    have hdigitspart : found.part 1 = digits := by simp [found.part_eq, hlabels]
    have hone : FillsOne literals (found.text ++ rest) (literalOf literals found ++ rest) := by
      have hfill : FillsOne literals _ _ := .fill [] rest hne hdigits
      rw [hfoundtext, literalOf_eq, hdigitspart]
      simpa using hfill
    refine ⟨n + 1, ?_, by simp⟩
    rw [htext, List.flatMap_cons]
    exact .more hone (hfills.append_left _)

/-- A round fills placeholders in, and at least one where there is one. -/
theorem exists_round (literals : Array (List Char)) (text : List Char) :
    ∃ n, FillsIn literals n text (Placeholder.pattern.replaceAll (literalOf literals) text) ∧
      (n = 0 → ∀ next, ¬ FillsOne literals text next) := by
  have hsegmented := Pattern.segments_segmented Placeholder.pattern text
  obtain ⟨n, hfills, hplain⟩ := exists_fillsIn_of_segmented hsegmented
  refine ⟨n, hfills, ?_⟩
  rintro hn _ ⟨before, behind, hne, hdigits⟩
  rename_i digits
  have htext : before ++ Placeholder.opening :: (digits ++ Placeholder.closing :: behind) =
      before ++ (Placeholder.opening :: (digits ++ [Placeholder.closing]) ++ behind) := by simp
  have htakes : Placeholder.pattern.Takes (before.getLast?.or none)
      (Placeholder.opening :: (digits ++ [Placeholder.closing])) behind [(.part 1, digits)] :=
    Placeholder.takes_pattern.mpr ⟨digits, hne, hdigits, rfl, rfl⟩
  obtain ⟨found, hfound⟩ := Option.isSome_iff_exists.mp
    (Pattern.matchAt_isSome_iff.mpr ⟨_, _, _, rfl, htakes⟩)
  have hnil := hsegmented.text_eq_nil_of_plain (hplain hn) htext (by simp) hfound
  obtain ⟨_, _, -, htakes', -⟩ := Match.exists_takes hfound
  obtain ⟨_, -, -, hfoundtext, -⟩ := Placeholder.takes_pattern.mp htakes'
  rw [hnil] at hfoundtext
  cases hfoundtext

/-- As many rounds as there are steps are enough. -/
theorem fillIn_eq {passes : Nat} (h : FillsIn literals n text filled)
    (hend : Placeholder.opening ∉ filled) (hpasses : n ≤ passes) :
    fillIn literals passes text = filled := by
  induction passes generalizing n text with
  | zero =>
    obtain rfl : n = 0 := by omega
    cases h
    rfl
  | succ passes ih =>
    rw [fillIn]
    split
    · rename_i hopening
      obtain ⟨k, hround, hnone⟩ := exists_round literals text
      have hk : k ≠ 0 := by
        intro hk
        cases h with
        | none _ => exact hend (by simpa using hopening)
        | more hone _ => exact hnone hk _ hone
      obtain ⟨l, rfl, hrest⟩ := h.of_fillsIn hend hround
      exact ih hrest (by omega)
    · rename_i hopening
      cases h with
      | none _ => rfl
      | more hone _ => exact absurd (by simpa using hone.opening_mem) hopening

end MaskedText

end Minifier

/-!
## Setting literals aside and putting them back

Each piece that is set aside adds one literal and one step
of filling in, the steps of later searches being taken before those of earlier ones. So there are as many
steps as literals, also where a later search cuts an earlier placeholder: its piece is put back before
the placeholder is filled in.
-/

namespace Minifier.MaskedText

/-- Setting pieces aside only adds literals. From the edited text each of them takes one step back,
whatever else is set aside later on. -/
theorem exists_fillsIn_of_edits {literals literals' : Array (List Char)} {text out : List Char}
    (h : Edits SetsAside literals text out literals') :
    ∃ n, literals'.size = literals.size + n ∧ literals.toList <+: literals'.toList ∧
      ∀ final : Array (List Char), literals'.toList <+: final.toList → FillsIn final n out text := by
  induction h with
  | keep kept => exact ⟨0, rfl, List.prefix_rfl, fun _ _ => .none _⟩
  | @swap literals _ literals' kept _ _ rest out hswap _ ih =>
    obtain ⟨before, literal, behind, rfl, rfl, rfl⟩ := hswap
    obtain ⟨n, hsize, hprefix, hfills⟩ := ih
    rw [Array.toList_push] at hprefix
    rw [Array.size_push] at hsize
    refine ⟨n + 1, by omega, (List.prefix_append _ _).trans hprefix, ?_⟩
    intro final hfinal
    refine .append_left kept ?_
    have hvalue : Placeholder.valueOf final (Decimal.digitChars literals.size) = literal := by
      obtain ⟨more, hmore⟩ := hprefix.trans hfinal
      have hget : final[literals.size]? = some literal := by
        rw [← Array.getElem?_toList, ← hmore]
        simp
      simp [Placeholder.valueOf, Placeholder.number?_digitChars, hget]
    have hone : FillsOne final _ _ := .fill before (behind ++ out)
      (Placeholder.digitChars_ne_nil literals.size) (Placeholder.digits_digitChars literals.size)
    have hrest := (hfills final hfinal).append_left (before ++ literal ++ behind)
    rw [hvalue] at hone
    refine .more ?_ hrest
    simpa [Placeholder.render] using hone

/-- The same of any number of further searches. -/
theorem exists_fillsIn_foldl_maskAlso (patterns : List Pattern) (masked : MaskedText) :
    ∃ n, (patterns.foldl maskAlso masked).literals.size = masked.literals.size + n ∧
      masked.literals.toList <+: (patterns.foldl maskAlso masked).literals.toList ∧
      FillsIn (patterns.foldl maskAlso masked).literals n (patterns.foldl maskAlso masked).text
        masked.text := by
  induction patterns generalizing masked with
  | nil => exact ⟨0, rfl, List.prefix_rfl, .none _⟩
  | cons pattern patterns ih =>
    obtain ⟨n, hsize, hprefix, hfills⟩ := ih (masked.maskAlso pattern)
    have hedits : Edits SetsAside masked.literals masked.text (masked.maskAlso pattern).text
        (masked.maskAlso pattern).literals := by
      refine (masked.edits_maskAlso pattern).mono ?_
      rintro literals _ new rest literals' ⟨index, prev, found, hfound, rfl, hset⟩
      have hswap := setsAside_setAsideMatch hfound literals rest
      rw [hset] at hswap
      exact hswap
    obtain ⟨m, hsize', hprefix', hfills'⟩ := exists_fillsIn_of_edits hedits
    refine ⟨n + m, ?_, hprefix'.trans hprefix, hfills.trans (hfills' _ hprefix)⟩
    rw [List.foldl_cons, hsize, hsize', Nat.add_assoc, Nat.add_comm m n]

/-- Where comments stay, filling in brings the text back, whatever was set aside after the scan: as many rounds as
there are literals are enough. -/
theorem fillIn_of_mask {lexer : Lexer} {text : List Char} {scanned : MaskedText}
    (h : mask lexer false text = .ok scanned) (patterns : List Pattern) {passes : Nat}
    (hpasses : (patterns.foldl maskAlso scanned).literals.size ≤ passes) :
    fillIn (patterns.foldl maskAlso scanned).literals passes (patterns.foldl maskAlso scanned).text = text := by
  have hedits : Edits SetsAside #[] text scanned.text scanned.literals :=
    (edits_mask h).mono fun _ _ _ _ _ hswap => hswap.resolve_right (by simp)
  obtain ⟨n, hsize, -, hfills⟩ := exists_fillsIn_of_edits hedits
  obtain ⟨m, hsize', hprefix, hfills'⟩ := exists_fillsIn_foldl_maskAlso patterns scanned
  rw [Array.size_empty] at hsize
  exact fillIn_eq (hfills'.trans (hfills _ hprefix)) (not_or.mp (not_reserved_of_mask h)).1 (by omega)

/-- A text without reserved characters comes back whole, whichever lexer set its literals aside and
whatever was set aside after that: matches that hold placeholders, cut them, or are empty. As many
rounds as there are literals are enough. -/
theorem unmask_foldl_maskAlso (lexer : Lexer) (patterns : List Pattern) (text : List Char)
    (hopening : Placeholder.opening ∉ text) (hclosing : Placeholder.closing ∉ text) :
    ∃ scanned, mask lexer false text = .ok scanned ∧
      (patterns.foldl maskAlso scanned).unmask (patterns.foldl maskAlso scanned).text = text ∧
      ∀ passes, (patterns.foldl maskAlso scanned).literals.size ≤ passes →
        fillIn (patterns.foldl maskAlso scanned).literals passes
          (patterns.foldl maskAlso scanned).text = text := by
  obtain ⟨scanned, hscanned⟩ := exists_mask lexer false (not_or.mpr ⟨hopening, hclosing⟩)
  exact ⟨scanned, hscanned, fillIn_of_mask hscanned patterns (Nat.le_succ _),
    fun _ hpasses => fillIn_of_mask hscanned patterns hpasses⟩

/-- Digits are set aside after quoted text, among them those of the placeholders, and then nothing at
every place. -/
theorem unmask_foldl_maskAlso_digits :
    ∃ scanned, mask ⟨Lexer.quoted, Lexer.stripAll⟩ false "x=\"1\"+'b'".toList = .ok scanned ∧
      ([Pattern.run1 Char.isDigit, Pattern.empty].foldl maskAlso scanned).unmask
        ([Pattern.run1 Char.isDigit, Pattern.empty].foldl maskAlso scanned).text =
          "x=\"1\"+'b'".toList ∧
      ∀ passes,
        ([Pattern.run1 Char.isDigit, Pattern.empty].foldl maskAlso scanned).literals.size ≤ passes →
        fillIn ([Pattern.run1 Char.isDigit, Pattern.empty].foldl maskAlso scanned).literals passes
          ([Pattern.run1 Char.isDigit, Pattern.empty].foldl maskAlso scanned).text =
            "x=\"1\"+'b'".toList :=
  unmask_foldl_maskAlso _ _ _ (by decide) (by decide)

end Minifier.MaskedText
