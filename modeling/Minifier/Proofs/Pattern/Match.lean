import Minifier.Proofs.Pattern.Reach

/-!
What a match holds. `Takes` says which texts a pattern can take, given the character before and the
text behind, and what its labels then remember; indices and the order of preference are gone. A pattern
matches at a place exactly if it can take some beginning of the text there, and the match is one of
the texts that it can take.

The span of a label is a piece of its match: cutting a match before and behind a label never leaves it.
-/

namespace Minifier

/-! ### Texts that a pattern takes -/

/-- Whether a condition holds between a character, if there is one, and a text. -/
def Anchor.HoldsBetween (condition : Anchor) (prev : Option Char) (behind : List Char) : Prop :=
  condition.holds ⟨0, prev, behind, []⟩ = true

theorem Anchor.holds_iff (condition : Anchor) (spot : Spot) :
    condition.holds spot = true ↔ condition.HoldsBetween spot.prev spot.rest := by
  cases condition <;> rfl

theorem Anchor.holdsBetween_textStart {prev : Option Char} {behind : List Char} :
    Anchor.textStart.HoldsBetween prev behind ↔ prev = none := by
  simp [HoldsBetween, holds]

theorem Anchor.holdsBetween_textEnd {prev : Option Char} {behind : List Char} :
    Anchor.textEnd.HoldsBetween prev behind ↔ behind = [] := by
  simp [HoldsBetween, holds]

theorem Anchor.holdsBetween_lineStart {prev : Option Char} {behind : List Char} :
    Anchor.lineStart.HoldsBetween prev behind ↔ prev = none ∨ prev = some '\n' := by
  simp [HoldsBetween, holds]

theorem Anchor.holdsBetween_lineEnd {prev : Option Char} {behind : List Char} :
    Anchor.lineEnd.HoldsBetween prev behind ↔ behind = [] ∨ behind.head? = some '\n' := by
  simp [HoldsBetween, holds]

/-- What begins with a character of a class does so whatever stands behind it. -/
theorem any_head?_append {accepts : Char → Bool} {text : List Char} (h : text.head?.any accepts = true)
    (behind : List Char) : (text ++ behind).head?.any accepts = true := by
  cases text with
  | nil => cases h
  | cons => exact h

/-- Before a word character, a word begins where none stands before. -/
theorem Anchor.holdsBetween_wordEdge_before {prev : Option Char} {behind : List Char}
    (hbehind : behind.head?.any Text.isWord = true) :
    Anchor.wordEdge.HoldsBetween prev behind ↔ prev.any Text.isWord = false := by
  simp [HoldsBetween, holds, hbehind]

/-- Behind a word character, a word ends where none follows. -/
theorem Anchor.holdsBetween_wordEdge_behind {prev : Option Char} {behind : List Char}
    (hprev : prev.any Text.isWord = true) :
    Anchor.wordEdge.HoldsBetween prev behind ↔ behind.head?.any Text.isWord = false := by
  simp [HoldsBetween, holds, hprev]

/-- The labels that closed along the way, the latest first, and what each of them took. -/
abbrev Parts := List (Label × List Char)

/-- Repeated takings that each take something. -/
inductive TakesRounds (round : Option Char → List Char → List Char → Parts → Prop) :
    Option Char → List Char → List Char → Parts → Prop where
  | none {prev : Option Char} {behind : List Char} : TakesRounds round prev [] behind []
  | more {prev : Option Char} {first rounds behind : List Char} {parts parts' : Parts} :
      TakesRounds round prev first (rounds ++ behind) parts → rounds ≠ [] →
      round (first.getLast?.or prev) rounds behind parts' →
      TakesRounds round prev (first ++ rounds) behind (parts' ++ parts)

/-- A further taking in front of repeated ones. -/
theorem TakesRounds.head {round : Option Char → List Char → List Char → Parts → Prop} {prev : Option Char}
    {first rounds behind : List Char} {parts parts' : Parts} (hfirst : round prev first (rounds ++ behind) parts)
    (hne : first ≠ []) (h : TakesRounds round (first.getLast?.or prev) rounds behind parts') :
    TakesRounds round prev (first ++ rounds) behind (parts' ++ parts) := by
  induction h with
  | none => simpa using TakesRounds.more .none hne (by simpa using hfirst)
  | more _ hne' hround ih =>
    rw [List.append_assoc] at hfirst
    rw [← Option.or_assoc, ← List.getLast?_append] at hround
    simpa only [List.append_assoc] using TakesRounds.more (ih hfirst) hne' hround

/-- Whether a pattern can take a text that stands between a character and another text, and what its
labels then remember. -/
def Pattern.Takes : Pattern → Option Char → List Char → List Char → Parts → Prop
  | .empty, _, taken, _, parts => taken = [] ∧ parts = []
  | .one accepts, _, taken, _, parts => (∃ c, accepts c = true ∧ taken = [c]) ∧ parts = []
  | .run accepts, _, taken, _, parts => (∀ c ∈ taken, accepts c = true) ∧ parts = []
  | .shortRun accepts, _, taken, _, parts => (∀ c ∈ taken, accepts c = true) ∧ parts = []
  | .escapedRun plain follows, _, taken, _, parts => EscapedUnits plain follows taken ∧ parts = []
  | .anchor condition, prev, taken, behind, parts =>
    condition.HoldsBetween prev behind ∧ taken = [] ∧ parts = []
  | .seq first second, prev, taken, behind, parts =>
    ∃ before after parts₁ parts₂, first.Takes prev before (after ++ behind) parts₁ ∧
      second.Takes (before.getLast?.or prev) after behind parts₂ ∧
      taken = before ++ after ∧ parts = parts₂ ++ parts₁
  | .alt first second, prev, taken, behind, parts =>
    first.Takes prev taken behind parts ∨ second.Takes prev taken behind parts
  | .star body, prev, taken, behind, parts => TakesRounds body.Takes prev taken behind parts
  | .label name body, prev, taken, behind, parts =>
    ∃ inner, body.Takes prev taken behind inner ∧ parts = (name, taken) :: inner

namespace Pattern

variable {prev : Option Char} {taken behind : List Char} {parts : Parts}

theorem takes_append (first second : Pattern) :
    (first ++ second).Takes prev taken behind parts ↔
      ∃ before after parts₁ parts₂, first.Takes prev before (after ++ behind) parts₁ ∧
        second.Takes (before.getLast?.or prev) after behind parts₂ ∧
        taken = before ++ after ∧ parts = parts₂ ++ parts₁ := Iff.rfl

theorem takes_one (accepts : Char → Bool) :
    (one accepts).Takes prev taken behind parts ↔
      (∃ c, accepts c = true ∧ taken = [c]) ∧ parts = [] := Iff.rfl

theorem takes_part (n : Nat) (body : Pattern) :
    (part n body).Takes prev taken behind parts ↔
      ∃ inner, body.Takes prev taken behind inner ∧ parts = (.part n, taken) :: inner := Iff.rfl

theorem takes_char (c : Char) :
    (char c).Takes prev taken behind parts ↔ taken = [c] ∧ parts = [] := by
  simp [char, takes_one]

theorem takes_optional_char (c : Char) :
    (optional (char c)).Takes prev taken behind parts ↔ (taken = [c] ∨ taken = []) ∧ parts = [] := by
  have halt : (optional (char c)).Takes prev taken behind parts ↔
      (char c).Takes prev taken behind parts ∨ taken = [] ∧ parts = [] := Iff.rfl
  rw [halt, takes_char, ← or_and_right]

theorem takes_oneOf (chars : List Char) :
    (oneOf chars).Takes prev taken behind parts ↔ (∃ c ∈ chars, taken = [c]) ∧ parts = [] := by
  simp [oneOf, takes_one]

theorem takes_run1 (accepts : Char → Bool) :
    (run1 accepts).Takes prev taken behind parts ↔
      taken ≠ [] ∧ (∀ c ∈ taken, accepts c = true) ∧ parts = [] := by
  rw [run1, takes_append]
  constructor
  · rintro ⟨_, after, _, _, ⟨⟨c, hc, rfl⟩, rfl⟩, ⟨hafter, rfl⟩, rfl, rfl⟩
    exact ⟨by simp, List.forall_mem_cons.mpr ⟨hc, hafter⟩, rfl⟩
  · rintro ⟨hne, htaken, rfl⟩
    cases taken with
    | nil => exact absurd rfl hne
    | cons c after =>
      rw [List.forall_mem_cons] at htaken
      exact ⟨[c], after, [], [], ⟨⟨c, htaken.1, rfl⟩, rfl⟩, ⟨htaken.2, rfl⟩, rfl, rfl⟩

theorem takes_word (text : String) :
    (word text).Takes prev taken behind parts ↔ taken = text.toList ∧ parts = [] := by
  rw [word]
  induction text.toList generalizing prev taken parts with
  | nil => exact Iff.rfl
  | cons c rest ih =>
    rw [List.foldr_cons, takes_append]
    constructor
    · rintro ⟨_, _, _, _, hfirst, hrest, rfl, rfl⟩
      obtain ⟨rfl, rfl⟩ := (takes_char c).mp hfirst
      obtain ⟨rfl, rfl⟩ := ih.mp hrest
      exact ⟨rfl, rfl⟩
    · rintro ⟨rfl, rfl⟩
      exact ⟨[c], rest, [], [], (takes_char c).mpr ⟨rfl, rfl⟩, ih.mpr ⟨rfl, rfl⟩, rfl, rfl⟩

theorem takes_choice (patterns : List Pattern) :
    (choice patterns).Takes prev taken behind parts ↔ ∃ pattern ∈ patterns, pattern.Takes prev taken behind parts := by
  induction patterns with
  | nil =>
    rw [choice, takes_one]
    simp
  | cons first rest ih =>
    cases rest with
    | nil => simp [choice]
    | cons second rest =>
      have halt : (choice (first :: second :: rest)).Takes prev taken behind parts ↔
          first.Takes prev taken behind parts ∨ (choice (second :: rest)).Takes prev taken behind parts := by
        rw [choice]
        · exact Iff.rfl
        · exact List.cons_ne_nil _ _
      rw [halt, ih]
      simp

theorem takes_words (texts : List String) :
    (words texts).Takes prev taken behind parts ↔ (∃ text ∈ texts, taken = text.toList) ∧ parts = [] := by
  rw [words, takes_choice]
  constructor
  · rintro ⟨_, hmem, htakes⟩
    obtain ⟨text, htext, rfl⟩ := List.mem_map.mp hmem
    obtain ⟨htaken, hparts⟩ := (takes_word text).mp htakes
    exact ⟨⟨text, htext, htaken⟩, hparts⟩
  · rintro ⟨⟨text, htext, htaken⟩, hparts⟩
    exact ⟨word text, List.mem_map_of_mem htext, (takes_word text).mpr ⟨htaken, hparts⟩⟩

end Pattern

/-! ### Passages -/

/-- What is taken between two spots, and the labels that close there, each over a piece of it. -/
structure Passage (spot reached : Spot) (taken : List Char) (closed : List (Label × Span)) : Prop where
  rest : spot.rest = taken ++ reached.rest
  index : reached.index = spot.index + taken.length
  prev : reached.prev = taken.getLast?.or spot.prev
  labels : reached.labels = closed ++ spot.labels
  within : ∀ entry ∈ closed, ∃ before inside behind, taken = before ++ inside ++ behind ∧
    entry.2 = ⟨spot.index + before.length, inside.length, inside ++ behind ++ reached.rest⟩

/-- What closed labels took. -/
def Parts.ofClosed (closed : List (Label × Span)) : Parts :=
  closed.map fun entry => (entry.1, entry.2.text)

@[simp] theorem Parts.ofClosed_append (later earlier : List (Label × Span)) :
    Parts.ofClosed (later ++ earlier) = Parts.ofClosed later ++ Parts.ofClosed earlier :=
  List.map_append

namespace Passage

variable {spot middle reached : Spot} {first second taken : List Char}
  {closed closed' : List (Label × Span)}

theorem here (spot : Spot) : Passage spot spot [] [] where
  rest := rfl
  index := rfl
  prev := rfl
  labels := rfl
  within := by simp

/-- Taking characters without a label. -/
theorem after {rest : List Char} (h : spot.rest = taken ++ rest) :
    Passage spot (spot.after taken rest) taken [] where
  rest := h
  index := rfl
  prev := rfl
  labels := rfl
  within := by simp

theorem trans (hfirst : Passage spot middle first closed)
    (hsecond : Passage middle reached second closed') :
    Passage spot reached (first ++ second) (closed' ++ closed) where
  rest := by rw [hfirst.rest, hsecond.rest, List.append_assoc]
  index := by rw [hsecond.index, hfirst.index, List.length_append, Nat.add_assoc]
  prev := by rw [hsecond.prev, hfirst.prev, List.getLast?_append, Option.or_assoc]
  labels := by rw [hsecond.labels, hfirst.labels, List.append_assoc]
  within := by
    intro entry hentry
    rcases List.mem_append.mp hentry with hlater | hearlier
    · obtain ⟨before, inside, behind, rfl, hspan⟩ := hsecond.within entry hlater
      refine ⟨first ++ before, inside, behind, by simp, ?_⟩
      rw [hspan, hfirst.index, List.length_append, Nat.add_assoc]
    · obtain ⟨before, inside, behind, rfl, hspan⟩ := hfirst.within entry hearlier
      refine ⟨before, inside, behind ++ second, by simp, ?_⟩
      rw [hspan, hsecond.rest]
      simp

/-- A label that closes at the end of a passage remembers all that was taken. -/
theorem remember (name : Label) (h : Passage spot reached taken closed) :
    Passage spot (Spot.remember name spot reached) taken
      ((name, ⟨spot.index, reached.index - spot.index, spot.rest⟩) :: closed) where
  rest := h.rest
  index := h.index
  prev := h.prev
  labels := by rw [Spot.remember_labels, h.labels, List.cons_append]
  within := by
    intro entry hentry
    rcases List.mem_cons.mp hentry with rfl | hinner
    · refine ⟨[], taken, [], by simp, ?_⟩
      rw [h.index, h.rest]
      simp
    · exact h.within entry hinner

theorem span_text (h : Passage spot reached taken closed) :
    Span.text ⟨spot.index, reached.index - spot.index, spot.rest⟩ = taken := by
  rw [Span.text, h.index, h.rest, Nat.add_sub_cancel_left, List.take_left]

end Passage

namespace Pattern

/-- Every way through a pattern is a passage over a text that the pattern takes. -/
theorem Reaches.exists_passage {pattern : Pattern} {spot reached : Spot}
    (h : pattern.Reaches spot reached) :
    ∃ taken closed, Passage spot reached taken closed ∧
      pattern.Takes spot.prev taken reached.rest (Parts.ofClosed closed) := by
  induction pattern generalizing spot reached with
  | empty =>
    obtain rfl := h
    exact ⟨[], [], .here _, rfl, rfl⟩
  | one accepts =>
    obtain ⟨c, rest, hrest, hc, rfl⟩ := h
    exact ⟨[c], [], .after hrest, ⟨c, hc, rfl⟩, rfl⟩
  | run accepts | shortRun accepts | escapedRun plain follows =>
    obtain ⟨taken, rest, hrest, htaken, rfl⟩ := h
    exact ⟨taken, [], .after hrest, htaken, rfl⟩
  | anchor condition =>
    obtain ⟨hholds, rfl⟩ := h
    exact ⟨[], [], .here _, (condition.holds_iff _).mp hholds, rfl, rfl⟩
  | seq first second ihfirst ihsecond =>
    obtain ⟨middle, hfirst, hsecond⟩ := h
    obtain ⟨_, _, hp, htakes⟩ := ihfirst hfirst
    obtain ⟨_, _, hq, htakes'⟩ := ihsecond hsecond
    rw [hq.rest] at htakes
    rw [hp.prev] at htakes'
    exact ⟨_, _, hp.trans hq, _, _, _, _, htakes, htakes', rfl, Parts.ofClosed_append _ _⟩
  | alt first second ihfirst ihsecond =>
    rcases h with hfirst | hsecond
    · obtain ⟨taken, closed, hp, htakes⟩ := ihfirst hfirst
      exact ⟨taken, closed, hp, Or.inl htakes⟩
    · obtain ⟨taken, closed, hp, htakes⟩ := ihsecond hsecond
      exact ⟨taken, closed, hp, Or.inr htakes⟩
  | star body ih =>
    induction h with
    | refl => exact ⟨[], [], .here _, .none⟩
    | tail _ hround ihrounds =>
      obtain ⟨_, _, hp, htakes⟩ := ihrounds
      obtain ⟨round, _, hq, htakes'⟩ := ih hround.1
      have hround : round ≠ [] := by
        rintro rfl
        have := hq.index
        simp only [List.length_nil] at this
        omega
      rw [hp.prev] at htakes'
      refine ⟨_, _, hp.trans hq, ?_⟩
      rw [Parts.ofClosed_append]
      refine .more ?_ hround htakes'
      rw [← hq.rest]
      exact htakes
  | label name body ih =>
    obtain ⟨inner, hinner, rfl⟩ := h
    obtain ⟨_, _, hp, htakes⟩ := ih hinner
    refine ⟨_, _, hp.remember name, _, htakes, ?_⟩
    rw [← hp.span_text]
    rfl

/-- Whatever a pattern can take, it has a way over. -/
theorem Takes.exists_reaches {pattern : Pattern} {prev : Option Char} {taken behind : List Char}
    {parts : Parts} (h : pattern.Takes prev taken behind parts) (spot : Spot)
    (hprev : spot.prev = prev) (hrest : spot.rest = taken ++ behind) :
    ∃ reached, pattern.Reaches spot reached ∧ reached.rest = behind ∧
      reached.prev = taken.getLast?.or prev ∧ reached.index = spot.index + taken.length := by
  induction pattern generalizing spot prev taken behind parts with
  | empty =>
    obtain ⟨rfl, -⟩ := h
    exact ⟨spot, rfl, hrest, hprev, rfl⟩
  | one accepts =>
    obtain ⟨⟨c, hc, rfl⟩, -⟩ := h
    exact ⟨_, ⟨c, behind, hrest, hc, rfl⟩, rfl, by rw [← hprev]; rfl, rfl⟩
  | run accepts | shortRun accepts | escapedRun plain follows =>
    exact ⟨_, ⟨taken, behind, hrest, h.1, rfl⟩, rfl, by rw [← hprev]; rfl, rfl⟩
  | anchor condition =>
    obtain ⟨hholds, rfl, -⟩ := h
    obtain rfl : spot.rest = behind := hrest
    obtain rfl := hprev
    exact ⟨spot, ⟨(condition.holds_iff spot).mpr hholds, rfl⟩, rfl, rfl, rfl⟩
  | seq first second ihfirst ihsecond =>
    obtain ⟨before, after, _, _, hfirst, hsecond, rfl, -⟩ := h
    rw [List.append_assoc] at hrest
    obtain ⟨middle, hreach, hmiddle, hmprev, hmindex⟩ := ihfirst hfirst spot hprev hrest
    obtain ⟨reached, hreach', hbehind, hrprev, hrindex⟩ := ihsecond hsecond middle hmprev hmiddle
    refine ⟨reached, ⟨middle, hreach, hreach'⟩, hbehind, ?_, ?_⟩
    · rw [hrprev, List.getLast?_append, Option.or_assoc]
    · rw [hrindex, hmindex, List.length_append, Nat.add_assoc]
  | alt first second ihfirst ihsecond =>
    rcases h with hfirst | hsecond
    · obtain ⟨reached, hreach, hreached⟩ := ihfirst hfirst spot hprev hrest
      exact ⟨reached, Or.inl hreach, hreached⟩
    · obtain ⟨reached, hreach, hreached⟩ := ihsecond hsecond spot hprev hrest
      exact ⟨reached, Or.inr hreach, hreached⟩
  | star body ih =>
    have hrounds : TakesRounds body.Takes prev taken behind parts := h
    clear h
    induction hrounds with
    | none => exact ⟨spot, .refl, hrest, hprev, rfl⟩
    | more _ hne hround ihrounds =>
      rw [List.append_assoc] at hrest
      obtain ⟨middle, hreach, hmiddle, hmprev, hmindex⟩ := ihrounds hrest
      obtain ⟨reached, hreach', hbehind, hrprev, hrindex⟩ := ih hround middle hmprev hmiddle
      have hlength := List.length_pos_iff.mpr hne
      refine ⟨reached, hreach.tail ⟨hreach', by omega⟩, hbehind, ?_, ?_⟩
      · rw [hrprev, List.getLast?_append, Option.or_assoc]
      · rw [hrindex, hmindex, List.length_append, Nat.add_assoc]
  | label name body ih =>
    obtain ⟨inner, hbody, -⟩ := h
    obtain ⟨reached, hreach, hreached⟩ := ih hbody spot hprev hrest
    exact ⟨_, ⟨reached, hreach, rfl⟩, hreached⟩

/-! ### Matches -/

variable {pattern : Pattern} {index : Nat} {prev : Option Char} {rest : List Char} {found : Match}

/-- A match at a place takes the characters of the match, and its labels are those that closed on the
way. -/
theorem exists_of_matchAt (h : pattern.matchAt index prev rest = some found) :
    ∃ reached, Passage ⟨index, prev, rest, []⟩ reached found.text found.labels ∧
      pattern.Takes prev found.text reached.rest (Parts.ofClosed found.labels) ∧
      found.start = index := by
  obtain ⟨reached, hwalk, rfl⟩ := Option.map_eq_some_iff.mp h
  obtain ⟨reached', hreach, hsome⟩ := exists_of_walk hwalk
  obtain rfl : reached' = reached := Option.some.inj hsome
  obtain ⟨taken, closed, hp, htakes⟩ := hreach.exists_passage
  have htext : rest.take (reached'.index - index) = taken := by
    have hrest : rest = taken ++ reached'.rest := hp.rest
    have hindex : reached'.index = index + taken.length := hp.index
    rw [hrest, hindex, Nat.add_sub_cancel_left, List.take_left]
  have hclosed : reached'.labels = closed := by simpa using hp.labels
  rw [← hclosed] at hp htakes
  exact ⟨reached', htext ▸ hp, htext ▸ htakes, rfl⟩

/-- A pattern has a match at a place exactly if it can take some beginning of the text there. -/
theorem matchAt_isSome_iff :
    (pattern.matchAt index prev rest).isSome = true ↔
      ∃ taken behind parts, rest = taken ++ behind ∧ pattern.Takes prev taken behind parts := by
  constructor
  · intro h
    obtain ⟨found, hfound⟩ := Option.isSome_iff_exists.mp h
    obtain ⟨reached, hp, htakes, -⟩ := exists_of_matchAt hfound
    exact ⟨found.text, reached.rest, _, hp.rest, htakes⟩
  · rintro ⟨taken, behind, parts, rfl, htakes⟩
    obtain ⟨reached, hreach, -⟩ :=
      htakes.exists_reaches ⟨index, prev, taken ++ behind, []⟩ rfl rfl
    rw [matchAt, Option.isSome_map]
    exact walk_isSome hreach rfl

end Pattern

namespace Match

variable {pattern : Pattern} {index : Nat} {prev : Option Char} {rest : List Char} {found : Match}

/-- The span of a label is a piece of the match. -/
theorem span_within (h : pattern.matchAt index prev rest = some found) {name : Label} {span : Span}
    (hspan : found.label? name = some span) :
    ∃ before behind, found.text = before ++ span.text ++ behind ∧
      span.start = found.start + before.length ∧ span.length = span.text.length := by
  obtain ⟨reached, hp, -, hstart⟩ := Pattern.exists_of_matchAt h
  obtain ⟨entry, hfind, rfl⟩ := Option.map_eq_some_iff.mp hspan
  obtain ⟨before, inside, behind, htext, hentry⟩ := hp.within entry (List.mem_of_find?_eq_some hfind)
  have hinside : entry.2.text = inside := by
    rw [hentry, Span.text, List.append_assoc, List.take_left]
  refine ⟨before, behind, by rw [hinside, htext], ?_, ?_⟩
  · rw [hentry, hstart]
  · rw [hinside, hentry]

/-- What a label took is what the labels that closed on the way remember. -/
theorem map_text_label? (found : Match) (name : Label) :
    (found.label? name).map Span.text = (Parts.ofClosed found.labels).lookup name := by
  rw [label?]
  induction found.labels with
  | nil => rfl
  | cons entry labels ih =>
    obtain ⟨other, span⟩ := entry
    by_cases hname : other = name
    · subst hname
      simp [Parts.ofClosed]
    · have hne : (name == other) = false := by simpa using Ne.symm hname
      have hne' : (other == name) = false := by simpa using hname
      simpa [Parts.ofClosed, List.lookup_cons, hne, hne'] using ih

theorem part_eq (found : Match) (n : Nat) :
    found.part n = ((found.label? (.part n)).map Span.text).getD [] := by
  rw [part]
  cases found.label? (.part n) <;> rfl

/-- A numbered part holds what is remembered of its label. -/
theorem part_eq_getD (found : Match) {parts : Parts}
    (hlabels : ∀ name, (found.label? name).map Span.text = parts.lookup name) (n : Nat) :
    found.part n = (parts.lookup (.part n)).getD [] := by
  rw [part_eq, hlabels]

/-- What a numbered part took is a piece of the match. -/
theorem part_infix (h : pattern.matchAt index prev rest = some found) (n : Nat) :
    found.part n <:+: found.text := by
  cases hspan : found.label? (.part n) with
  | none => simp [part, hspan]
  | some span =>
    obtain ⟨before, behind, htext, -, -⟩ := span_within h hspan
    simp only [part, hspan]
    exact ⟨before, behind, htext.symm⟩

/-- A match is a text that the pattern takes, and its labels took what is remembered. -/
theorem exists_takes (h : pattern.matchAt index prev rest = some found) :
    ∃ behind parts, rest = found.text ++ behind ∧ pattern.Takes prev found.text behind parts ∧
      ∀ name, (found.label? name).map Span.text = parts.lookup name := by
  obtain ⟨reached, hp, htakes, -⟩ := Pattern.exists_of_matchAt h
  exact ⟨reached.rest, _, hp.rest, htakes, found.map_text_label?⟩

end Match

end Minifier
