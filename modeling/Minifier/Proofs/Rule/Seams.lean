import Minifier.Proofs.Rule.Breaks
import Minifier.Proofs.Rule.Marks
import Minifier.Proofs.Rule.Tightening

/-!
Texts that a rule leaves as they are. Most rules for blanks ask of a text only which characters stand next to each
other, so the texts that such a rule leaves are told by its seams: by what stands on the two sides of each place, the
beginning and the end of the text included. A rule behind it may drop characters or put others. If every seam that
comes about in this way is one that the first rule leaves too, then this rule finds nothing to do afterwards.
-/

namespace Minifier

open Pattern Text

/-! ### Rules that find nothing to do -/

namespace Rule

variable {rule later : Rule} {good : List Char → Prop}

/-- What a rule makes of a text is good, and good texts it leaves as they are. -/
structure Settles (rule : Rule) (good : List Char → Prop) : Prop where
  good_apply : ∀ text, good (rule.apply text)
  apply_eq : ∀ {text}, good text → rule.apply text = text

/-- A text that a rule leaves as it is stays one under a later rule. -/
def StaysUnder (rule later : Rule) : Prop :=
  ∀ text, rule.apply text = text → rule.apply (later.apply text) = later.apply text

theorem Settles.apply_apply (h : rule.Settles good) (text : List Char) : rule.apply (rule.apply text) = rule.apply text :=
  h.apply_eq (h.good_apply text)

theorem Settles.staysUnder (h : rule.Settles good) (hlater : ∀ text, good text → good (later.apply text)) :
    rule.StaysUnder later := by
  intro text htext
  have hgood : good text := htext ▸ h.good_apply text
  exact h.apply_eq (hlater text hgood)

end Rule

namespace Pipeline

variable {rule : Rule} {pipeline part : Pipeline}

/-- Each rule of a pipeline is done after one run, and the rules behind it leave it nothing new to do. -/
structure Orderly (pipeline : Pipeline) : Prop where
  once : pipeline.Each fun rule => ∀ text, rule.apply (rule.apply text) = rule.apply text
  later : List.Pairwise Rule.StaysUnder pipeline

/-- A pipeline leaves what it has made of a text as it is, and so does each of its rules. -/
structure Idempotent (pipeline : Pipeline) : Prop where
  run_run : ∀ text, pipeline.run (pipeline.run text) = pipeline.run text
  apply_run : pipeline.Each fun rule => ∀ text, rule.apply (pipeline.run text) = pipeline.run text

theorem Orderly.sublist (h : pipeline.Orderly) (hpart : List.Sublist part pipeline) : part.Orderly where
  once rule hrule := h.once rule (hpart.subset hrule)
  later := h.later.sublist hpart

theorem apply_run_of_staysUnder (h : pipeline.Each rule.StaysUnder) {text : List Char} (htext : rule.apply text = text) :
    rule.apply (pipeline.run text) = pipeline.run text := by
  induction pipeline generalizing text with
  | nil => exact htext
  | cons later pipeline ih =>
    obtain ⟨hlater, hrest⟩ := List.forall_mem_cons.mp h
    exact ih hrest (hlater text htext)

theorem run_eq_self {text : List Char} (h : ∀ rule ∈ pipeline, rule.apply text = text) : pipeline.run text = text := by
  induction pipeline with
  | nil => rfl
  | cons rule pipeline ih =>
    obtain ⟨hrule, hrest⟩ := List.forall_mem_cons.mp h
    rw [run_cons, hrule, ih hrest]

theorem Orderly.idempotent (h : pipeline.Orderly) : pipeline.Idempotent := by
  have happly : ∀ rule ∈ pipeline, ∀ text, rule.apply (pipeline.run text) = pipeline.run text := by
    obtain ⟨honce, hlater⟩ := h
    induction hlater with
    | nil => exact fun _ hrule => absurd hrule List.not_mem_nil
    | cons hfirst _ ih =>
      obtain ⟨hrule, hrest⟩ := List.forall_mem_cons.mp honce
      -- The later rules see only what the first one has made of the text. It is done then, and stays so.
      refine List.forall_mem_cons.mpr ⟨fun text => ?_, fun later hlater text => ih hrest later hlater _⟩
      exact apply_run_of_staysUnder hfirst (hrule text)
  exact ⟨fun text => run_eq_self fun rule hrule => happly rule hrule text, happly⟩

end Pipeline

/-! ### Seams -/

/-- Along a text, from what stands before it to what stands behind it, every seam is of one kind. -/
def Along (seam : Option Char → Option Char → Prop) (before : Option Char) (text : List Char)
    (behind : Option Char) : Prop :=
  List.IsChain seam (before :: (text.map some ++ [behind]))

section Along

variable {seam : Option Char → Option Char → Prop} {before before' behind behind' : Option Char} {c : Char}
  {text left right core line last : List Char} {ended : List (List Char)}

theorem along_nil : Along seam before [] behind ↔ seam before behind := List.isChain_pair

theorem along_cons : Along seam before (c :: text) behind ↔ seam before (some c) ∧ Along seam (some c) text behind :=
  List.isChain_cons_cons

/-- A character of the text belongs to the seams on both sides of it. -/
theorem along_append_cons : Along seam before (left ++ c :: right) behind ↔
    Along seam before left (some c) ∧ Along seam (some c) right behind := by
  simp only [Along, List.map_append, List.map_cons, List.append_assoc, List.cons_append]
  exact List.isChain_cons_split

namespace Along

theorem imp_before (h : Along seam before text behind) (himp : ∀ {x}, seam before x → seam before' x) :
    Along seam before' text behind :=
  List.IsChain.imp_head himp h

/-- Between the two ends, each character has the next one on the other side of a seam. -/
theorem isChain (h : Along seam before text behind) : List.IsChain (fun c d => seam (some c) (some d)) text :=
  (List.isChain_map some).mp (List.IsChain.left_of_append (List.IsChain.tail h))

theorem of_infix (h : Along seam before text behind) (hcore : core <:+: text) :
    ∃ before' behind', Along seam before' core behind' := by
  obtain ⟨left, right, rfl⟩ := hcore
  have hleft : ∃ before', Along seam before' (core ++ right) behind := by
    rcases List.eq_nil_or_concat' left with rfl | ⟨most, d, rfl⟩
    · exact ⟨before, by simpa using h⟩
    · exact ⟨some d, (along_append_cons.mp (by simpa using h)).2⟩
  obtain ⟨before', hleft⟩ := hleft
  cases right with
  | nil => exact ⟨before', behind, by simpa using hleft⟩
  | cons d right => exact ⟨before', some d, (along_append_cons.mp hleft).1⟩

/-- At the two ends of a text only its first and its last character count. -/
theorem ends (h : Along seam before text behind) (hne : text ≠ [])
    (hfirst : ∀ c ∈ text.head?, seam before (some c) → seam before' (some c))
    (hlast : ∀ d ∈ text.getLast?, seam (some d) behind → seam (some d) behind') : Along seam before' text behind' := by
  have hbefore : Along seam before' text behind := by
    obtain ⟨c, rest, rfl⟩ := List.exists_cons_of_ne_nil hne
    obtain ⟨hc, hrest⟩ := along_cons.mp h
    exact along_cons.mpr ⟨hfirst c rfl hc, hrest⟩
  obtain ⟨most, d, rfl⟩ := (List.eq_nil_or_concat' text).resolve_left hne
  obtain ⟨hmost, hd⟩ := along_append_cons.mp hbefore
  exact along_append_cons.mpr ⟨hmost, along_nil.mpr (hlast d (by simp) (along_nil.mp hd))⟩

end Along

/-- Where a line may begin or end: at an end of the text, or at a line feed. -/
def AtEdge (c : Option Char) : Prop := c = none ∨ c = some '\n'

/-- The seams of a text are those of its lines. -/
theorem along_joinLines (hbefore : AtEdge before) (hended : ∀ line ∈ ended, ∀ {before}, AtEdge before →
      Along seam before line (some '\n'))
    (hlast : ∀ {before}, AtEdge before → Along seam before last behind) :
    Along seam before (joinLines ended last) behind := by
  induction ended generalizing before with
  | nil => exact hlast hbefore
  | cons line ended ih =>
    obtain ⟨hline, hended⟩ := List.forall_mem_cons.mp hended
    exact along_append_cons.mpr ⟨hline hbefore, ih (.inr rfl) hended⟩

theorem Along.of_joinLines (hbefore : AtEdge before) (h : Along seam before (joinLines ended last) behind) :
    (∀ line ∈ ended, ∃ before, AtEdge before ∧ Along seam before line (some '\n')) ∧
      ∃ before, AtEdge before ∧ Along seam before last behind := by
  induction ended generalizing before with
  | nil => exact ⟨fun _ hline => absurd hline List.not_mem_nil, before, hbefore, h⟩
  | cons line ended ih =>
    obtain ⟨hline, hrest⟩ := along_append_cons.mp h
    obtain ⟨hended, hlast⟩ := ih (.inr rfl) hrest
    exact ⟨List.forall_mem_cons.mpr ⟨⟨before, hbefore, hline⟩, hended⟩, hlast⟩

end Along

/-! ### Seams that stay under dropping lines and trimming -/

/-- A kind of seams of which none is lost if a line that begins behind a line feed comes to begin the text, and if a
text comes to begin or end with a character that is no blank. -/
structure SparesEnds (seam : Option Char → Option Char → Prop) : Prop where
  start : ∀ {behind}, seam (some '\n') behind → seam none behind
  first : ∀ {before c}, isBlank c = false → seam before (some c) → seam none (some c)
  last : ∀ {d behind}, isBlank d = false → seam (some d) behind → seam (some d) none
  empty : seam none none

namespace SparesEnds

variable {seam : Option Char → Option Char → Prop} {text : List Char}

theorem trimEnds (h : SparesEnds seam) (htext : Along seam none text none) :
    Along seam none (Spacing.trimEnds.apply text) none := by
  rw [Spacing.trimEnds_apply]
  by_cases hempty : trim text = []
  · rw [hempty]
    exact along_nil.mpr h.empty
  · obtain ⟨before, behind, hcore⟩ := htext.of_infix (infix_cut isBlank isBlank text)
    have hfirst := (Option.any_eq_false _ _).mp (head?_cut isBlank isBlank text)
    have hlast := (Option.any_eq_false _ _).mp (getLast?_cut isBlank isBlank text)
    exact hcore.ends hempty (fun c hc => h.first (hfirst c hc)) fun d hd => h.last (hlast d hd)

theorem emptyLines (h : SparesEnds seam) (htext : Along seam none text none) :
    Along seam none (Spacing.emptyLines.apply text) none := by
  obtain ⟨ended, last, rfl, hlines⟩ := exists_joinLines text
  rw [Spacing.emptyLines_apply hlines]
  have hkept : ∀ {before}, AtEdge before → Along seam before (joinLines ended last) none →
      Along seam before (joinLines (ended.filter fun line => !Spacing.isEmptyLine line) last) none := by
    clear htext hlines
    intro before hbefore htext
    induction ended generalizing before with
    | nil => exact htext
    | cons line ended ih =>
      obtain ⟨hline, hrest⟩ := along_append_cons.mp htext
      have hrest := ih (.inr rfl) hrest
      by_cases hempty : Spacing.isEmptyLine line = true
      · rw [List.filter_cons_of_neg (by simp [hempty])]
        rcases hbefore with rfl | rfl
        · exact hrest.imp_before h.start
        · exact hrest
      · rw [List.filter_cons_of_pos (by simp [hempty])]
        exact along_append_cons.mpr ⟨hline, hrest⟩
  exact hkept (.inl rfl) htext

end SparesEnds

/-! ### Runs of which one character is left -/

section Squeeze

variable {accepts : Char → Bool} {new : Char} {seam : Option Char → Option Char → Prop}
  {before behind : Option Char} {text : List Char}

/-- Characters of a class stand alone, and are all the same. -/
def Squeezed (accepts : Char → Bool) (new : Char) (before behind : Option Char) : Prop :=
  ∀ c ∈ behind, accepts c = true → c = new ∧ before.any accepts = false

theorem squeezed_of_not (h : behind.any accepts = false) : Squeezed accepts new before behind := by
  rintro c rfl hc
  exact absurd hc (Bool.eq_false_iff.mp h)

theorem along_squeezeFrom (hnew : accepts new = true) (text : List Char) (before : Option Char) :
    Along (Squeezed accepts new) before (squeezeFrom accepts new (before.any accepts) text) none := by
  induction text generalizing before with
  | nil => exact along_nil.mpr (squeezed_of_not rfl)
  | cons c rest ih =>
    by_cases hc : accepts c = true
    · cases hbefore : before.any accepts with
      | false =>
        rw [squeezeFrom_false_cons hc]
        refine along_cons.mpr ⟨?_, ?_⟩
        · rintro d hd -
          exact ⟨(Option.some.inj hd).symm, hbefore⟩
        · have hrest := ih (some new)
          rwa [Option.any_some, hnew] at hrest
      | true =>
        rw [squeezeFrom_true_cons hc, ← hbefore]
        exact ih before
    · have hc : accepts c = false := Bool.eq_false_iff.mpr hc
      rw [squeezeFrom_cons_of_neg hc]
      have hrest := ih (some c)
      rw [Option.any_some, hc] at hrest
      exact along_cons.mpr ⟨squeezed_of_not hc, hrest⟩

theorem squeezeFrom_eq_self (h : Along (Squeezed accepts new) before text behind) :
    squeezeFrom accepts new (before.any accepts) text = text := by
  induction text generalizing before with
  | nil => rfl
  | cons c rest ih =>
    obtain ⟨hseam, hrest⟩ := along_cons.mp h
    have hrest := ih hrest
    by_cases hc : accepts c = true
    · obtain ⟨rfl, hbefore⟩ := hseam c rfl hc
      rw [Option.any_some, hc] at hrest
      rw [hbefore, squeezeFrom_false_cons hc, hrest]
    · have hc : accepts c = false := Bool.eq_false_iff.mpr hc
      rw [Option.any_some, hc] at hrest
      rw [squeezeFrom_cons_of_neg hc, hrest]

theorem Rule.settles_squeeze {rule : Rule} (happly : ∀ text, rule.apply text = squeeze accepts new text)
    (hnew : accepts new = true) : rule.Settles fun text => Along (Squeezed accepts new) none text none where
  good_apply text := by
    rw [happly]
    exact along_squeezeFrom hnew text none
  apply_eq h := by
    rw [happly]
    exact squeezeFrom_eq_self h

/-- Where a character that goes may stand in a seam, the one that is put for it may. -/
theorem along_squeeze (hahead : ∀ {a c}, accepts c = true → seam a (some c) → seam a (some new))
    (hafter : ∀ {c b}, accepts c = true → seam (some c) b → seam (some new) b)
    (h : Along seam before text behind) : Along seam before (squeeze accepts new text) behind := by
  have hboth : ∀ text : List Char,
      (∀ before, Along seam before text behind → Along seam before (squeezeFrom accepts new false text) behind) ∧
        ∀ c, accepts c = true → Along seam (some c) text behind →
          Along seam (some new) (squeezeFrom accepts new true text) behind := by
    intro text
    induction text with
    | nil => exact ⟨fun _ => id, fun c hc h => along_nil.mpr (hafter hc (along_nil.mp h))⟩
    | cons d rest ih =>
      by_cases hd : accepts d = true
      · rw [squeezeFrom_false_cons hd, squeezeFrom_true_cons hd]
        constructor
        · intro before h
          obtain ⟨hseam, hrest⟩ := along_cons.mp h
          exact along_cons.mpr ⟨hahead hd hseam, ih.2 d hd hrest⟩
        · intro c hc h
          exact ih.2 d hd (along_cons.mp h).2
      · have hd : accepts d = false := Bool.eq_false_iff.mpr hd
        rw [squeezeFrom_cons_of_neg hd, squeezeFrom_cons_of_neg hd]
        constructor
        · intro before h
          obtain ⟨hseam, hrest⟩ := along_cons.mp h
          exact along_cons.mpr ⟨hseam, ih.1 (some d) hrest⟩
        · intro c hc h
          obtain ⟨hseam, hrest⟩ := along_cons.mp h
          exact along_cons.mpr ⟨hafter hc hseam, ih.1 (some d) hrest⟩
  exact (hboth text).1 before h

theorem sparesEnds_squeezed (accepts : Char → Bool) (new : Char) : SparesEnds (Squeezed accepts new) where
  start h c hc haccepts := ⟨(h c hc haccepts).1, rfl⟩
  first _ h c hc haccepts := ⟨(h c hc haccepts).1, rfl⟩
  last _ _ := squeezed_of_not rfl
  empty := squeezed_of_not rfl

end Squeeze

/-! ### Marks without blanks around them -/

section Tighten

variable {accepts : Char → Bool} {marks : List Char} {seam : Option Char → Option Char → Prop}
  {before behind : Option Char} {c : Char} {held text : List Char} {name : String}

/-- No blank stands next to a mark. -/
structure Tightened (accepts : Char → Bool) (marks : List Char) (before behind : Option Char) : Prop where
  after : ∀ m ∈ before, m ∈ marks → behind.any accepts = false
  ahead : ∀ m ∈ behind, m ∈ marks → before.any accepts = false

/-- Where there are no marks, anything may stand next to anything. -/
theorem along_tightened_of_not_mem (hbefore : ∀ m ∈ before, m ∉ marks) (htext : ∀ c ∈ text, c ∉ marks)
    (hbehind : ∀ m ∈ behind, m ∉ marks) : Along (Tightened accepts marks) before text behind := by
  have hseam : ∀ {before behind : Option Char}, (∀ m ∈ before, m ∉ marks) → (∀ m ∈ behind, m ∉ marks) →
      Tightened accepts marks before behind := fun hbefore hbehind =>
    ⟨fun m hm hmark => absurd hmark (hbefore m hm), fun m hm hmark => absurd hmark (hbehind m hm)⟩
  induction text generalizing before with
  | nil => exact along_nil.mpr (hseam hbefore hbehind)
  | cons c text ih =>
    obtain ⟨hc, htext⟩ := List.forall_mem_cons.mp htext
    have hsome : ∀ m ∈ some c, m ∉ marks := fun m hm => Option.some.inj hm ▸ hc
    exact along_cons.mpr ⟨hseam hbefore hsome, ih hsome htext⟩

variable (hdisjoint : ∀ c ∈ marks, accepts c = false)

include hdisjoint

/-- The induction is on the text. The blanks that are held stand between characters that are no marks, or they would
have gone. -/
theorem along_tighten (text : List Char) :
    (∀ before held, before.any accepts = false → (∀ m ∈ before, m ∉ marks) → (∀ c ∈ held, accepts c = true) →
        Along (Tightened accepts marks) before (tighten accepts marks false held text) none) ∧
      ∀ before, before.any accepts = false →
        Along (Tightened accepts marks) before (tighten accepts marks true [] text) none := by
  have hheld : ∀ {held : List Char}, (∀ c ∈ held, accepts c = true) → ∀ c ∈ held, c ∉ marks :=
    fun hheld c hc hmark => Bool.eq_false_iff.mp (hdisjoint c hmark) (hheld c hc)
  induction text using tighten_induction accepts marks with
  | nil =>
    refine ⟨fun before held _ hmarks haccepts => ?_, fun before _ => ?_⟩
    · exact along_tightened_of_not_mem hmarks (hheld haccepts) fun m hm => absurd hm (by simp)
    · exact along_nil.mpr ⟨fun _ _ _ => rfl, fun m hm => absurd hm (by simp)⟩
  | blank c text hc ih =>
    rw [tighten_blank_after hc]
    refine ⟨fun before held hbefore hmarks haccepts => ?_, ih.2⟩
    rw [tighten_blank hc]
    exact ih.1 before _ hbefore hmarks (List.forall_mem_append.mpr ⟨haccepts, List.forall_mem_singleton.mpr hc⟩)
  | mark c text hc hmark ih =>
    have hmarked : ∀ before : Option Char, before.any accepts = false →
        Along (Tightened accepts marks) before (c :: tighten accepts marks true [] text) none := fun before hbefore =>
      along_cons.mpr ⟨⟨fun _ _ _ => hc, fun _ _ _ => hbefore⟩, ih.2 (some c) hc⟩
    rw [tighten_mark hc hmark]
    refine ⟨fun before held hbefore _ _ => ?_, hmarked⟩
    rw [tighten_mark hc hmark]
    exact hmarked before hbefore
  | other c text hc hmark ih =>
    have hsome : ∀ m ∈ some c, m ∉ marks := fun m hm => Option.some.inj hm ▸ hmark
    have hrest := ih.1 (some c) [] hc hsome (List.forall_mem_nil _)
    refine ⟨fun before held _ hmarks haccepts => ?_, fun before _ => ?_⟩
    · rw [tighten_other hc hmark]
      exact along_append_cons.mpr ⟨along_tightened_of_not_mem hmarks (hheld haccepts) hsome, hrest⟩
    · rw [tighten_other hc hmark]
      exact along_cons.mpr ⟨⟨fun _ _ _ => hc, fun m hm hmem => absurd hmem (hsome m hm)⟩, hrest⟩

/-- The induction is on the text. Blanks are held only behind a blank, and there no mark comes next. -/
theorem tighten_eq_self (text : List Char) :
    (∀ before held, Along (Tightened accepts marks) before text none → (∀ m ∈ before, m ∉ marks) →
        (held ≠ [] → before.any accepts = true) → tighten accepts marks false held text = held ++ text) ∧
      ∀ m ∈ marks, Along (Tightened accepts marks) (some m) text none → tighten accepts marks true [] text = text := by
  induction text using tighten_induction accepts marks with
  | nil => exact ⟨fun _ held _ _ _ => (List.append_nil held).symm, fun _ _ _ => rfl⟩
  | blank c text hc ih =>
    have hmark : c ∉ marks := fun hmark => Bool.eq_false_iff.mp (hdisjoint c hmark) hc
    constructor
    · intro before held h _ _
      have hrest := ih.1 (some c) (held ++ [c]) (along_cons.mp h).2 (fun m hm => Option.some.inj hm ▸ hmark) fun _ => hc
      rw [tighten_blank hc, hrest, List.append_assoc, List.singleton_append]
    · intro m hm h
      exact absurd hc (Bool.eq_false_iff.mp ((along_cons.mp h).1.after m rfl hm))
  | mark c text hc hmark ih =>
    constructor
    · intro before held h _ hheld
      obtain ⟨hseam, hrest⟩ := along_cons.mp h
      have hnone : held = [] := by
        by_contra hne
        exact absurd (hheld hne) (Bool.eq_false_iff.mp (hseam.ahead c rfl hmark))
      rw [tighten_mark hc hmark, ih.2 c hmark hrest, hnone, List.nil_append]
    · intro m _ h
      rw [tighten_mark hc hmark, ih.2 c hmark (along_cons.mp h).2]
  | other c text hc hmark ih =>
    have hrest := fun h => ih.1 (some c) [] h (fun m hm => Option.some.inj hm ▸ hmark) fun hne => absurd rfl hne
    constructor
    · intro before held h _ _
      rw [tighten_other hc hmark, hrest (along_cons.mp h).2, List.nil_append]
    · intro m _ h
      rw [tighten_other hc hmark, hrest (along_cons.mp h).2, List.nil_append, List.nil_append]

theorem Rule.settles_aroundMarks {other : Char} (hother : accepts other = false) (hother' : other ∉ marks) :
    (Rule.aroundMarks name accepts marks).Settles fun text => Along (Tightened accepts marks) none text none where
  good_apply text := by
    rw [apply_aroundMarks hdisjoint hother hother']
    exact (along_tighten hdisjoint text).1 none [] rfl (fun m hm => absurd hm (by simp)) (List.forall_mem_nil _)
  apply_eq h := by
    rw [apply_aroundMarks hdisjoint hother hother']
    exact (tighten_eq_self hdisjoint _).1 none [] h (fun m hm => absurd hm (by simp)) fun hne => absurd rfl hne

omit hdisjoint in
/-- Next to a mark may stand what may stand elsewhere. -/
theorem along_tighten_of_along (hahead : ∀ a, ∀ m ∈ marks, seam a (some m))
    (hafter : ∀ {a b}, ∀ m ∈ marks, seam a b → seam (some m) b) (text : List Char) :
    (∀ before held, Along seam before (held ++ text) none → Along seam before (tighten accepts marks false held text) none) ∧
      ∀ before, ∀ m ∈ marks, Along seam before text none →
        Along seam (some m) (tighten accepts marks true [] text) none := by
  induction text using tighten_induction accepts marks with
  | nil =>
    refine ⟨fun before held h => ?_, fun before m hm h => along_nil.mpr (hafter m hm (along_nil.mp h))⟩
    rwa [List.append_nil] at h
  | blank c text hc ih =>
    constructor
    · intro before held h
      rw [tighten_blank hc]
      exact ih.1 before (held ++ [c]) (by simpa using h)
    · intro before m hm h
      rw [tighten_blank_after hc]
      exact ih.2 (some c) m hm (along_cons.mp h).2
  | mark c text hc hmark ih =>
    constructor
    · intro before held h
      rw [tighten_mark hc hmark]
      exact along_cons.mpr ⟨hahead before c hmark, ih.2 (some c) c hmark (along_append_cons.mp h).2⟩
    · intro before m hm h
      rw [tighten_mark hc hmark]
      exact along_cons.mpr ⟨hahead (some m) c hmark, ih.2 (some c) c hmark (along_cons.mp h).2⟩
  | other c text hc hmark ih =>
    constructor
    · intro before held h
      obtain ⟨hheld, hrest⟩ := along_append_cons.mp h
      rw [tighten_other hc hmark]
      exact along_append_cons.mpr ⟨hheld, ih.1 (some c) [] hrest⟩
    · intro before m hm h
      obtain ⟨hseam, hrest⟩ := along_cons.mp h
      rw [tighten_other hc hmark]
      exact along_cons.mpr ⟨hafter m hm hseam, ih.1 (some c) [] hrest⟩

theorem along_aroundMarks {other : Char} (hother : accepts other = false) (hother' : other ∉ marks)
    (hahead : ∀ a, ∀ m ∈ marks, seam a (some m)) (hafter : ∀ {a b}, ∀ m ∈ marks, seam a b → seam (some m) b)
    (h : Along seam none text none) : Along seam none ((Rule.aroundMarks name accepts marks).apply text) none := by
  rw [apply_aroundMarks hdisjoint hother hother']
  exact (along_tighten_of_along hahead hafter text).1 none [] h

omit hdisjoint in
theorem sparesEnds_tightened (accepts : Char → Bool) (marks : List Char) : SparesEnds (Tightened accepts marks) where
  start _ := ⟨fun _ hm => absurd hm (by simp), fun _ _ _ => rfl⟩
  first _ _ := ⟨fun _ hm => absurd hm (by simp), fun _ _ _ => rfl⟩
  last _ _ := ⟨fun _ _ _ => rfl, fun _ hm => absurd hm (by simp)⟩
  empty := ⟨fun _ _ _ => rfl, fun _ hm => absurd hm (by simp)⟩

end Tighten

/-! ### Lines without blanks at their ends -/

section Trim

variable {lead : Char → Bool} {before behind : Option Char} {line text : List Char}

/-- No line begins with a character of a class, and none ends with a blank that goes there. -/
structure Trimmed (lead : Char → Bool) (before behind : Option Char) : Prop where
  start : AtEdge before → behind.any lead = false
  tail : AtEdge behind → before.any Spacing.tailBlank = false

theorem any_eq_false_of_atEdge {accepts : Char → Bool} (hbreak : accepts '\n' = false) (h : AtEdge before) :
    before.any accepts = false := by
  rcases h with rfl | rfl
  · rfl
  · exact hbreak

theorem along_trimmed_iff (hlead : lead '\n' = false) (hline : '\n' ∉ line) (hbehind : AtEdge behind) :
    Along (Trimmed lead) before line behind ↔
      (AtEdge before → line.head?.any lead = false) ∧ (line.getLast?.or before).any Spacing.tailBlank = false := by
  induction line generalizing before with
  | nil =>
    rw [along_nil]
    exact ⟨fun h => ⟨fun _ => rfl, h.tail hbehind⟩, fun h => ⟨fun _ => any_eq_false_of_atEdge hlead hbehind, fun _ => h.2⟩⟩
  | cons c line ih =>
    obtain ⟨hc, hline⟩ := not_or.mp (mt List.mem_cons.mpr hline)
    have hinside : ¬ AtEdge (some c) := by
      rintro (h | h)
      · cases h
      · exact hc (Option.some.inj h).symm
    rw [along_cons, ih hline, getLast?_cons_or]
    exact ⟨fun h => ⟨h.1.start, h.2.2⟩, fun h => ⟨⟨h.1, fun hedge => absurd hedge hinside⟩, fun hedge =>
      absurd hedge hinside, h.2⟩⟩

theorem along_trimmed_iff_of_atEdge (hlead : lead '\n' = false) (hline : '\n' ∉ line) (hbefore : AtEdge before)
    (hbehind : AtEdge behind) : Along (Trimmed lead) before line behind ↔
      line.head?.any lead = false ∧ line.getLast?.any Spacing.tailBlank = false := by
  have hlast : (line.getLast?.or before).any Spacing.tailBlank = line.getLast?.any Spacing.tailBlank := by
    cases line.getLast? with
    | none => exact any_eq_false_of_atEdge (by decide) hbefore
    | some d => rfl
  rw [along_trimmed_iff hlead hline hbehind, hlast, forall_prop_of_true hbefore]

theorem along_cut (hlead : lead '\n' = false) (hline : '\n' ∉ line) (hbefore : AtEdge before)
    (hbehind : AtEdge behind) : Along (Trimmed lead) before (cut lead Spacing.tailBlank line) behind :=
  (along_trimmed_iff_of_atEdge hlead (fun h => hline ((infix_cut _ _ line).subset h)) hbefore hbehind).mpr
    ⟨head?_cut _ _ line, getLast?_cut _ _ line⟩

/-- A rule that cuts every line by itself. -/
theorem Rule.settles_cut {rule : Rule} (hlead : lead '\n' = false)
    (happly : ∀ {ended last}, AreLines ended last → rule.apply (joinLines ended last) =
      joinLines (ended.map (cut lead Spacing.tailBlank)) (cut lead Spacing.tailBlank last)) :
    rule.Settles fun text => Along (Trimmed lead) none text none where
  good_apply text := by
    obtain ⟨ended, last, rfl, hlines⟩ := exists_joinLines text
    rw [happly hlines]
    refine along_joinLines (.inl rfl) (List.forall_mem_map.mpr fun line hline _ hbefore => ?_) fun hbefore => ?_
    · exact along_cut hlead (hlines.1 line hline) hbefore (.inr rfl)
    · exact along_cut hlead hlines.2 hbefore (.inl rfl)
  apply_eq {text} h := by
    obtain ⟨ended, last, rfl, hlines⟩ := exists_joinLines text
    obtain ⟨hended, before, hbefore, hlast⟩ := h.of_joinLines (.inl rfl)
    have hsame : ∀ line ∈ ended, cut lead Spacing.tailBlank line = line := fun line hmem => by
      obtain ⟨before, hbefore, hline⟩ := hended line hmem
      obtain ⟨hfirst, hlast⟩ := (along_trimmed_iff_of_atEdge hlead (hlines.1 line hmem) hbefore (.inr rfl)).mp hline
      exact cut_eq_self hfirst hlast
    obtain ⟨hfirst, hlast⟩ := (along_trimmed_iff_of_atEdge hlead hlines.2 hbefore (.inl rfl)).mp hlast
    rw [happly hlines, cut_eq_self hfirst hlast, List.map_congr_left hsame, List.map_id']

theorem sparesEnds_trimmed (hlead : ∀ {c}, isBlank c = false → lead c = false) : SparesEnds (Trimmed lead) where
  start h := ⟨fun _ => h.start (.inr rfl), fun _ => rfl⟩
  first hc _ := ⟨fun _ => hlead hc, fun _ => rfl⟩
  last hd _ := ⟨fun _ => rfl, fun _ => Spacing.among_eq_false hd (by decide)⟩
  empty := ⟨fun _ => rfl, fun _ => rfl⟩

end Trim

end Minifier
