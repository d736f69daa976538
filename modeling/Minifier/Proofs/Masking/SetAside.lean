import Minifier.Masking
import Minifier.Proofs.Pattern.Segments

/-!
Setting literals aside, as an edit of the text whose state is the literals so far. A swap either sets one
piece of a match aside, or it puts what is left of a removed comment in the place of the match.
Nothing is said here about which piece a lexer chooses: a further search may cut placeholders or find
nothing to take, and what holds of one swap holds of these as well.
-/

namespace Minifier.MaskedText

variable {pattern : Pattern} {index : Nat} {prev : Option Char} {rest : List Char} {found : Match}

/-- One piece of what is swapped is set aside, and its placeholder takes its place. -/
def SetsAside (literals : Array (List Char)) (old new _rest : List Char)
    (literals' : Array (List Char)) : Prop :=
  ∃ before literal behind, old = before ++ literal ++ behind ∧
    new = before ++ Placeholder.render literals.size ++ behind ∧ literals' = literals.push literal

/-- A piece of what is swapped is a comment, and what a lexer leaves of it takes the place of all. -/
def Strips (lexer : Lexer) (literals : Array (List Char)) (old new _rest : List Char)
    (literals' : Array (List Char)) : Prop :=
  ∃ comment index, comment <:+: old ∧ lexer.strip comment index = some new ∧ literals' = literals

/-- The labelled piece of a match is set aside, and what stands around it stays. -/
theorem exists_setAsideMatch_eq (h : pattern.matchAt index prev rest = some found) {span : Span}
    (hspan : found.label? .literal = some span) (literals : Array (List Char)) :
    ∃ before behind, found.text = before ++ span.text ++ behind ∧ span.start = found.start + before.length ∧
      setAsideMatch literals found =
        (before ++ Placeholder.render literals.size ++ behind, literals.push span.text) := by
  obtain ⟨before, behind, htext, hstart, hlength⟩ := Match.span_within h hspan
  refine ⟨before, behind, htext, hstart, ?_⟩
  have hbefore : span.start - found.start = before.length := by omega
  have htake : found.text.take before.length = before := by
    rw [htext, List.append_assoc, List.take_left]
  have hdrop : found.text.drop (before.length + span.length) = behind := by
    rw [htext, hlength, ← List.length_append, List.drop_left]
  simp only [setAsideMatch, hspan, hbefore, htake, hdrop, setAside]

/-- A match without a labelled piece is set aside as a whole. -/
theorem setAsideMatch_of_eq_none (h : found.label? .literal = none) (literals : Array (List Char)) :
    setAsideMatch literals found = (Placeholder.render literals.size, literals.push found.text) := by
  rw [setAsideMatch, h]
  rfl

/-- A labelled piece at the end of a match is known by its first character, if that stands nowhere before it. -/
theorem setAsideMatch_of_not_mem (h : pattern.matchAt index prev rest = some found) {front literal : List Char}
    {first : Char} (hliteral : (found.label? .literal).map Span.text = some (first :: literal))
    (htext : found.text = front ++ first :: literal) (hfirst : first ∉ front) (literals : Array (List Char)) :
    setAsideMatch literals found = (front ++ Placeholder.render literals.size, literals.push (first :: literal)) := by
  obtain ⟨span, hspan, hspanText⟩ := Option.map_eq_some_iff.mp hliteral
  obtain ⟨before, behind, hsplit, -, hset⟩ := exists_setAsideMatch_eq h hspan literals
  rw [hspanText, htext, List.append_assoc] at hsplit
  rw [hspanText] at hset
  obtain ⟨rfl, rfl⟩ : before = front ∧ behind = [] := by
    have hlength := congrArg List.length hsplit
    simp only [List.length_append, List.length_cons] at hlength
    rcases List.append_eq_append_iff.mp hsplit with ⟨more, rfl, -⟩ | ⟨more, rfl, hmore⟩
    · rw [List.length_append] at hlength
      have hnil : more = [] := List.eq_nil_of_length_eq_zero (by omega)
      exact ⟨by simp [hnil], List.eq_nil_of_length_eq_zero (by omega)⟩
    · cases more with
      | nil => exact ⟨by simp, by simpa using hmore⟩
      | cons c more =>
        obtain ⟨rfl, -⟩ := List.cons.inj hmore
        exact absurd (by simp) hfirst
  rw [hset, List.append_nil]

/-- Setting a match aside replaces the labelled piece of it, or all of it. -/
theorem setsAside_setAsideMatch (h : pattern.matchAt index prev rest = some found)
    (literals : Array (List Char)) (onward : List Char) :
    SetsAside literals found.text (setAsideMatch literals found).1 onward
      (setAsideMatch literals found).2 := by
  cases hspan : found.label? .literal with
  | none =>
    rw [setAsideMatch, hspan]
    exact ⟨[], found.text, [], by simp, by simp [setAside], rfl⟩
  | some span =>
    obtain ⟨before, behind, htext, -, hset⟩ := exists_setAsideMatch_eq h hspan literals
    rw [hset]
    exact ⟨before, span.text, behind, htext, rfl, rfl⟩

/-- What takes the place of a match of a lexer. -/
theorem swaps_replaceMatch (h : pattern.matchAt index prev rest = some found) (lexer : Lexer)
    (stripComments : Bool) (literals : Array (List Char)) (onward : List Char) :
    SetsAside literals found.text (replaceMatch lexer stripComments literals found).1 onward
        (replaceMatch lexer stripComments literals found).2 ∨
      stripComments = true ∧
        Strips lexer literals found.text (replaceMatch lexer stripComments literals found).1 onward
          (replaceMatch lexer stripComments literals found).2 := by
  rw [replaceMatch]
  split
  · exact Or.inl (setsAside_setAsideMatch h literals onward)
  · rename_i comment hcomment
    split
    · rename_i left hleft
      have hstrip : stripComments = true ∧ lexer.strip comment.text comment.start = some left := by
        cases stripComments with
        | false => cases hleft
        | true => exact ⟨rfl, hleft⟩
      obtain ⟨before, behind, htext, -, -⟩ := Match.span_within h hcomment
      exact Or.inr ⟨hstrip.1, comment.text, comment.start, ⟨before, behind, htext.symm⟩, hstrip.2, rfl⟩
    · exact Or.inl ⟨[], found.text, [], by simp, by simp [setAside], rfl⟩

/-! ### Edits -/

/-- Going through segments with the reversed text so far gives what replacing one match after the
other gives. -/
private theorem foldl_eq_replaceFrom
    (replace : Array (List Char) → Match → List Char × Array (List Char))
    {step : List Char × Array (List Char) → Segment → List Char × Array (List Char)}
    (hplain : ∀ state c, step state (.plain c) = (c :: state.1, state.2))
    (hhit : ∀ state found, step state (.hit found) =
      ((replace state.2 found).1.reverseAux state.1, (replace state.2 found).2))
    (segments : List Segment) (reversed : List Char) (literals : Array (List Char)) :
    segments.foldl step (reversed, literals) =
      ((Pattern.replaceFrom replace segments literals).1.reverse ++ reversed,
        (Pattern.replaceFrom replace segments literals).2) := by
  induction segments generalizing reversed literals with
  | nil => rfl
  | cons segment segments ih =>
    rw [List.foldl_cons]
    cases segment with
    | plain c => simp [hplain, ih, Pattern.replaceFrom]
    | hit found => simp [hhit, ih, Pattern.replaceFrom, List.reverseAux_eq]

theorem replaceSegments_eq (replace : Array (List Char) → Match → List Char × Array (List Char))
    (segments : List Segment) (literals : Array (List Char)) :
    replaceSegments replace segments literals =
      ⟨(Pattern.replaceFrom replace segments literals).1,
        (Pattern.replaceFrom replace segments literals).2⟩ := by
  rw [replaceSegments, foldl_eq_replaceFrom replace]
  · simp
  · exact fun _ _ => rfl
  · exact fun _ _ => rfl

/-- What is set aside stays so. -/
theorem literals_prefix_replaceFrom (lexer : Lexer) (stripComments : Bool) (segments : List Segment)
    (literals : Array (List Char)) :
    literals.toList <+: (Pattern.replaceFrom (replaceMatch lexer stripComments) segments literals).2.toList := by
  have hmatch : ∀ found literals, literals.toList <+: (replaceMatch lexer stripComments literals found).2.toList := by
    intro found literals
    have hpush : ∀ literal, literals.toList <+: (setAside literals literal).2.toList := by simp [setAside]
    rw [replaceMatch]
    split
    · rw [setAsideMatch]
      split <;> exact hpush _
    · split
      · exact List.prefix_rfl
      · exact hpush _
  induction segments generalizing literals with
  | nil => exact List.prefix_rfl
  | cons segment rest ih =>
    cases segment with
    | plain c => exact ih literals
    | hit found => exact (hmatch found literals).trans (ih _)

theorem reserved_iff {text : List Char} :
    reserved text = true ↔ Placeholder.opening ∈ text ∨ Placeholder.closing ∈ text := by
  simp only [reserved, List.any_eq_true, Bool.or_eq_true, beq_iff_eq]
  constructor
  · rintro ⟨c, hc, rfl | rfl⟩
    · exact Or.inl hc
    · exact Or.inr hc
  · rintro (h | h)
    · exact ⟨_, h, Or.inl rfl⟩
    · exact ⟨_, h, Or.inr rfl⟩

/-- Masking fails on a text that holds a character that marks placeholders, and on no other. -/
theorem mask_eq_error (lexer : Lexer) (stripComments : Bool) {text : List Char}
    (h : Placeholder.opening ∈ text ∨ Placeholder.closing ∈ text) :
    mask lexer stripComments text = .error .reservedCharacter := by
  rw [mask, if_pos (reserved_iff.mpr h)]

theorem exists_mask (lexer : Lexer) (stripComments : Bool) {text : List Char}
    (h : ¬ (Placeholder.opening ∈ text ∨ Placeholder.closing ∈ text)) :
    ∃ masked, mask lexer stripComments text = .ok masked := by
  rw [mask, if_neg (mt reserved_iff.mp h)]
  exact ⟨_, rfl⟩

theorem not_reserved_of_mask {lexer : Lexer} {stripComments : Bool} {text : List Char}
    {masked : MaskedText} (h : mask lexer stripComments text = .ok masked) :
    ¬ (Placeholder.opening ∈ text ∨ Placeholder.closing ∈ text) := by
  intro hreserved
  rw [mask_eq_error lexer stripComments hreserved] at h
  cases h

/-- Masking is an edit of the text. -/
theorem edits_mask {lexer : Lexer} {stripComments : Bool} {text : List Char} {masked : MaskedText}
    (h : mask lexer stripComments text = .ok masked) :
    Edits (fun literals old new rest literals' =>
        SetsAside literals old new rest literals' ∨
          stripComments = true ∧ Strips lexer literals old new rest literals')
      #[] text masked.text masked.literals := by
  rw [mask, if_neg (mt reserved_iff.mp (not_reserved_of_mask h))] at h
  obtain rfl := Except.ok.inj h
  rw [replaceSegments_eq]
  refine ((Pattern.segments_segmented _ _).edits _ _).mono ?_
  rintro literals old new rest literals' ⟨index, prev, found, hfound, rfl, hreplace⟩
  have hswaps := swaps_replaceMatch hfound lexer stripComments literals rest
  rw [hreplace] at hswaps
  exact hswaps

/-- Setting further matches aside is an edit of the masked text, in which each swap is about a match at
its place. -/
theorem edits_maskAlso (masked : MaskedText) (pattern : Pattern) :
    Edits (fun literals old new rest literals' => ∃ index prev found,
        pattern.matchAt index prev (old ++ rest) = some found ∧ found.text = old ∧
          setAsideMatch literals found = (new, literals'))
      masked.literals masked.text (masked.maskAlso pattern).text
      (masked.maskAlso pattern).literals := by
  rw [maskAlso, replaceSegments_eq]
  exact (Pattern.segments_segmented _ _).edits _ _

end Minifier.MaskedText
