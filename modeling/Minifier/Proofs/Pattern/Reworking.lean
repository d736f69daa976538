import Minifier.Proofs.Pattern.Segments

/-!
Pieces of a text that give way to other texts, told by what they are and by the character before them. A stretch of the
text that none of them overlaps stays as it is, whatever becomes of the text around it.
-/

namespace Minifier

/-- A text and what becomes of it from left to right: a character stays, or a piece of a kind gives way to a text. -/
inductive Reworks (piece : Option Char → List Char → Prop) : Option Char → List Char → List Char → Prop where
  | nil {prev : Option Char} : Reworks piece prev [] []
  | keep {prev : Option Char} {c : Char} {rest out : List Char} : Reworks piece (some c) rest out →
      Reworks piece prev (c :: rest) (c :: out)
  | swap {prev : Option Char} {taken new rest out : List Char} : taken ≠ [] → piece prev taken →
      Reworks piece (taken.getLast?.or prev) rest out → Reworks piece prev (taken ++ rest) (new ++ out)

/-- No piece in a text overlaps a stretch of it: each ends before the stretch begins, or begins behind it. -/
def Apart (piece : Option Char → List Char → Prop) (prev : Option Char) (before kept behind : List Char) : Prop :=
  ∀ first taken last, before ++ (kept ++ behind) = first ++ (taken ++ last) → piece (first.getLast?.or prev) taken →
    (first ++ taken).length ≤ before.length ∨ (before ++ kept).length ≤ first.length

variable {piece : Option Char → List Char → Prop} {prev : Option Char}
  {text before kept behind out out' rest : List Char}

/-- So none does behind the first characters of the text. -/
theorem Apart.of_append {front : List Char} (h : Apart piece prev (front ++ before) kept behind) :
    Apart piece (front.getLast?.or prev) before kept behind := by
  intro first taken last htext hpiece
  have hwhole : front ++ before ++ (kept ++ behind) = front ++ first ++ (taken ++ last) := by simp [htext]
  rw [← Option.or_assoc, ← List.getLast?_append] at hpiece
  have hapart := h _ _ _ hwhole hpiece
  simp only [List.length_append] at hapart ⊢
  omega

/-- A piece that comes first ends before the stretch. -/
theorem Apart.exists_before {taken : List Char} (h : Apart piece prev before kept behind)
    (htext : before ++ (kept ++ behind) = taken ++ rest) (hne : taken ≠ []) (hpiece : piece prev taken) :
    (∃ more, before = taken ++ more ∧ rest = more ++ (kept ++ behind)) ∨ before = [] ∧ kept = [] := by
  have hpos := List.length_pos_iff.mpr hne
  rcases h [] taken rest htext hpiece with hle | hle
  · rcases List.append_eq_append_iff.mp htext with ⟨more, rfl, -⟩ | ⟨more, rfl, hrest⟩
    · rw [List.nil_append, List.length_append] at hle
      obtain rfl : more = [] := List.eq_nil_of_length_eq_zero (by omega)
      exact Or.inl ⟨[], by simp, by simpa using htext.symm⟩
    · exact Or.inl ⟨more, rfl, hrest⟩
  · exact Or.inr (List.append_eq_nil_iff.mp (List.eq_nil_of_length_eq_zero (Nat.le_zero.mp hle)))

namespace Reworks

theorem append (h : Reworks piece prev text out) (h' : Reworks piece (text.getLast?.or prev) rest out') :
    Reworks piece prev (text ++ rest) (out ++ out') := by
  induction h with
  | nil => exact h'
  | keep _ ih =>
    rw [getLast?_cons_or] at h'
    exact .keep (ih h')
  | swap hne hpiece _ ih =>
    rw [List.getLast?_append, Option.or_assoc] at h'
    rw [List.append_assoc, List.append_assoc]
    exact .swap hne hpiece (ih h')

/-- A character with which no piece begins stays, and what stood before it does not matter. -/
theorem exists_of_cons {c : Char} (hc : ∀ prev taken, piece prev taken → taken.head? ≠ some c)
    (h : Reworks piece prev (c :: rest) out) : ∃ more, out = c :: more ∧ Reworks piece (some c) rest more := by
  generalize htext : c :: rest = text at h
  cases h with
  | nil => cases htext
  | keep hrest =>
    obtain ⟨rfl, rfl⟩ := List.cons.inj htext
    exact ⟨_, rfl, hrest⟩
  | swap hne hpiece _ =>
    obtain ⟨d, more, rfl⟩ := List.exists_cons_of_ne_nil hne
    obtain ⟨rfl, -⟩ := List.cons.inj htext
    exact absurd rfl (hc _ _ hpiece)

/-- A stretch at the beginning stays there. -/
theorem exists_append (h : Reworks piece prev (kept ++ behind) out) (hapart : Apart piece prev [] kept behind) :
    ∃ behind', out = kept ++ behind' := by
  generalize htext : kept ++ behind = text at h
  induction h generalizing kept with
  | nil => exact ⟨[], by rw [(List.append_eq_nil_iff.mp htext).1]; rfl⟩
  | @keep prev c rest out _ ih =>
    cases kept with
    | nil => exact ⟨_, rfl⟩
    | cons d kept =>
      obtain ⟨rfl, hrest⟩ := List.cons.inj htext
      have hbehind : Apart piece (some d) [] kept behind := by
        intro first taken last hsplit hpiece
        have hwhole : [] ++ (d :: kept ++ behind) = d :: first ++ (taken ++ last) := congrArg (d :: ·) hsplit
        rw [← getLast?_cons_or] at hpiece
        have hlength := hapart _ _ _ hwhole hpiece
        simp only [List.nil_append, List.length_cons, List.length_append, List.length_nil] at hlength ⊢
        omega
      obtain ⟨behind', rfl⟩ := ih hbehind hrest
      exact ⟨behind', rfl⟩
  | swap hne hpiece _ _ =>
    rcases hapart.exists_before htext hne hpiece with ⟨more, hmore, -⟩ | ⟨-, rfl⟩
    · exact absurd (List.append_eq_nil_iff.mp hmore.symm).1 hne
    · exact ⟨_, rfl⟩

/-- A stretch that no piece overlaps stays. -/
theorem exists_of_apart (h : Reworks piece prev (before ++ (kept ++ behind)) out)
    (hapart : Apart piece prev before kept behind) : ∃ before' behind', out = before' ++ (kept ++ behind') := by
  generalize htext : before ++ (kept ++ behind) = text at h
  induction h generalizing before with
  | nil =>
    obtain ⟨-, hkept⟩ := List.append_eq_nil_iff.mp htext
    obtain ⟨rfl, -⟩ := List.append_eq_nil_iff.mp hkept
    exact ⟨[], [], rfl⟩
  | @keep prev c rest out hrest ih =>
    cases before with
    | nil =>
      have hwhole : Reworks piece prev (kept ++ behind) (c :: out) := by
        rw [← List.nil_append (kept ++ behind), htext]
        exact .keep hrest
      obtain ⟨behind', hout⟩ := hwhole.exists_append hapart
      exact ⟨[], behind', hout⟩
    | cons d before =>
      obtain ⟨rfl, hmore⟩ := List.cons.inj htext
      have hfront : Apart piece prev ([d] ++ before) kept behind := hapart
      obtain ⟨before', behind', rfl⟩ := ih hfront.of_append hmore
      exact ⟨d :: before', behind', rfl⟩
  | @swap prev taken new rest out hne hpiece _ ih =>
    rcases hapart.exists_before htext hne hpiece with ⟨more, rfl, hmore⟩ | ⟨rfl, rfl⟩
    · obtain ⟨before', behind', rfl⟩ := ih hapart.of_append hmore.symm
      exact ⟨new ++ before', behind', by simp⟩
    · exact ⟨[], _, rfl⟩

theorem of_segmented {pattern : Pattern} (hexceeds : pattern.exceeds [] = true)
    (hpiece : ∀ prev taken behind parts, pattern.Takes prev taken behind parts → piece prev taken)
    (replace : Match → List Char) {index : Nat} {segments : List Segment}
    (h : pattern.Segmented index prev text segments) :
    Reworks piece prev text (segments.flatMap (Segment.replaced replace)) := by
  induction h with
  | done => exact .nil
  | plain _ _ ih => exact .keep ih
  | hit hfound htext _ ih =>
    obtain ⟨_, _, -, htakes, -⟩ := Match.exists_takes hfound
    rw [htext]
    exact .swap (Pattern.ne_nil_of_matchAt hexceeds hfound) (hpiece _ _ _ _ htakes) ih

/-- Replacing all matches of a pattern reworks a text, if what the pattern takes is a piece. -/
theorem replaceAll {pattern : Pattern} (hexceeds : pattern.exceeds [] = true)
    (hpiece : ∀ prev taken behind parts, pattern.Takes prev taken behind parts → piece prev taken)
    (replace : Match → List Char) (text : List Char) :
    Reworks piece none text (pattern.replaceAll replace text) := by
  rw [Pattern.replaceAll_eq]
  exact .of_segmented hexceeds hpiece replace (Pattern.segments_segmented pattern text)

end Reworks

end Minifier
