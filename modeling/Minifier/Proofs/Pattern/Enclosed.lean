import Minifier.Masking
import Minifier.Proofs.Pattern.Taken
import Mathlib.Data.List.Forall2

/-!
Texts between an opening and a closing. A pattern that begins with fixed characters finds nothing where they do not
stand. Where they do, a short run goes up to the first closing, and units go up to the first closing that is not
escaped.
-/

namespace Minifier

/-! ### Openings -/

namespace Pattern

variable {pattern first second body : Pattern} {opening : List Char} {index : Nat} {prev : Option Char}
  {text : List Char}

/-- Whatever a pattern takes begins with the same characters. -/
def OpensWith (pattern : Pattern) (opening : List Char) : Prop :=
  ∀ prev taken behind parts, pattern.Takes prev taken behind parts → opening <+: taken

theorem opensWith_char (c : Char) : (char c).OpensWith [c] := by
  rintro prev taken behind parts h
  exact ((takes_char c).mp h).1 ▸ List.prefix_rfl

theorem opensWith_word (opening : String) : (word opening).OpensWith opening.toList := by
  rintro prev taken behind parts h
  exact ((takes_word opening).mp h).1 ▸ List.prefix_rfl

theorem OpensWith.append (h : first.OpensWith opening) (second : Pattern) : (first ++ second).OpensWith opening := by
  rintro prev taken behind parts ⟨before, after, _, _, hfirst, -, rfl, -⟩
  exact (h _ _ _ _ hfirst).trans (List.prefix_append _ _)

theorem OpensWith.label (h : body.OpensWith opening) (name : Label) : (label name body).OpensWith opening := by
  rintro prev taken behind parts ⟨_, hbody, -⟩
  exact h _ _ _ _ hbody

theorem opensWith_blockComment : Lexer.blockComment.OpensWith ['/', '*'] :=
  ((opensWith_word "/*").append _).append _

theorem opensWith_lineComment (opening : String) : (Lexer.lineComment opening).OpensWith opening.toList :=
  ((opensWith_word opening).append _).append _

theorem opensWith_quotedBy (quote : Char) : (Lexer.quotedBy quote).OpensWith [quote] :=
  ((opensWith_char quote).append _).append _

/-- Where the opening does not stand, there is no way through the pattern. -/
theorem OpensWith.walk_eq_none {α : Type} {spot : Spot} {next : Spot → Option α} (h : pattern.OpensWith opening)
    (hspot : ¬ opening <+: spot.rest) : pattern.walk spot next = none := by
  rw [Option.eq_none_iff_forall_ne_some]
  intro found hfound
  obtain ⟨reached, hreach, -⟩ := exists_of_walk hfound
  obtain ⟨taken, closed, hp, htakes⟩ := hreach.exists_passage
  rw [hp.rest] at hspot
  exact hspot ((h _ _ _ _ htakes).trans (List.prefix_append _ _))

theorem OpensWith.matchAt_eq_none (h : pattern.OpensWith opening) (htext : ¬ opening <+: text) (index : Nat)
    (prev : Option Char) : pattern.matchAt index prev text = none := by
  rw [matchAt, h.walk_eq_none htext, Option.map_none]

/-- A word is taken where it stands. -/
theorem walk_word {α : Type} (opening : String) (spot : Spot) (next : Spot → Option α) {rest : List Char}
    (hspot : spot.rest = opening.toList ++ rest) :
    (word opening).walk spot next = next (spot.after opening.toList rest) := by
  rw [word]
  generalize opening.toList = chars at hspot
  induction chars generalizing spot with
  | nil =>
    obtain rfl : spot.rest = rest := hspot
    rfl
  | cons c chars ih =>
    have hspot : spot.rest = c :: (chars ++ rest) := hspot
    rw [List.foldr_cons, walk_append, walk_char hspot, ih _ rfl, Spot.after_after, List.singleton_append]

/-- A character that may be there is taken if it is. -/
theorem walk_optional_char (c : Char) (spot : Spot) : (optional (char c)).walk spot some =
    some (if spot.rest.head? = some c then spot.after [c] spot.rest.tail else spot) := by
  obtain ⟨index, prev, rest, labels⟩ := spot
  cases rest with
  | nil => rfl
  | cons d rest =>
    by_cases hd : d = c
    · subst hd
      simp [Pattern.optional, char, walk, Spot.after]
    · simp [Pattern.optional, char, walk, hd]

end Pattern

/-! ### The nearest closing -/

namespace Spot

variable {α : Type} {accepts : Char → Bool} {labels : List (Label × Span)} {next : Spot → Option α}

/-- The nearest success is the first one. -/
theorem firstStop_eq {taken behind : List Char} (index : Nat) (prev : Option Char)
    (htaken : ∀ c ∈ taken, accepts c = true)
    (hnone : ∀ stop : Spot, (∃ inside, inside ≠ [] ∧ inside <:+ taken ∧ stop.rest = inside ++ behind) →
      next stop = none)
    (hsome : (next (after ⟨index, prev, taken ++ behind, labels⟩ taken behind)).isSome = true) :
    firstStop accepts labels next index prev (taken ++ behind) =
      next (after ⟨index, prev, taken ++ behind, labels⟩ taken behind) := by
  induction taken generalizing index prev with
  | nil =>
    obtain ⟨found, hfound⟩ := Option.isSome_iff_exists.mp hsome
    have hhere : next ⟨index, prev, behind, labels⟩ = some found := hfound
    rw [hfound]
    cases behind with
    | nil => exact hhere
    | cons c behind => simp only [List.nil_append, firstStop, hhere]
  | cons c taken ih =>
    rw [List.forall_mem_cons] at htaken
    have hstep : after ⟨index, prev, c :: taken ++ behind, labels⟩ (c :: taken) behind =
        after ⟨index + 1, some c, taken ++ behind, labels⟩ taken behind :=
      (after_after ⟨index, prev, c :: taken ++ behind, labels⟩ [c] taken (taken ++ behind) behind).symm
    have hhere : next ⟨index, prev, c :: (taken ++ behind), labels⟩ = none :=
      hnone _ ⟨c :: taken, List.cons_ne_nil _ _, List.suffix_rfl, rfl⟩
    rw [hstep] at hsome ⊢
    simp only [List.cons_append, firstStop, hhere, htaken.1, if_true]
    refine ih (index + 1) (some c) htaken.2 ?_ hsome
    rintro stop ⟨inside, hne, hinside, hrest⟩
    exact hnone stop ⟨inside, hne, hinside.trans (List.suffix_cons c taken), hrest⟩

end Spot

namespace Pattern

variable {index : Nat} {prev : Option Char} {body behind : List Char}

/-- An opening takes all up to the first closing. -/
theorem walk_enclosed {opening closing : String} {spot : Spot} {next : Spot → Option Spot}
    (hspot : spot.rest = opening.toList ++ (body ++ (closing.toList ++ behind)))
    (hbody : ∀ inside, inside ≠ [] → inside <:+ body → ¬ closing.toList <+: inside ++ (closing.toList ++ behind))
    (hnext : ∀ stop, (next stop).isSome = true) : (Lexer.enclosed opening closing).walk spot next =
      next (spot.after (opening.toList ++ (body ++ closing.toList)) behind) := by
  let opened : Spot := spot.after opening.toList (body ++ (closing.toList ++ behind))
  have hwalk : (Lexer.enclosed opening closing).walk spot next = (word opening).walk spot fun opened =>
      (shortRun Class.any).walk opened fun stop => (word closing).walk stop next := rfl
  have hclosed : (word closing).walk (opened.after body (closing.toList ++ behind)) next =
      next ((opened.after body (closing.toList ++ behind)).after closing.toList behind) :=
    walk_word closing _ _ rfl
  have hrun : ((shortRun Class.any).walk opened fun stop => (word closing).walk stop next) =
      (word closing).walk (opened.after body (closing.toList ++ behind)) next := by
    refine Spot.firstStop_eq opened.index opened.prev (fun _ _ => rfl) ?_ ?_
    · rintro stop ⟨inside, hne, hinside, hrest⟩
      exact (opensWith_word closing).walk_eq_none (hrest ▸ hbody inside hne hinside)
    · exact (congrArg Option.isSome hclosed).trans (hnext _)
  rw [hwalk, walk_word opening spot _ hspot, hrun, hclosed, Spot.after_after, Spot.after_after]

theorem exists_matchAt_enclosed (name : Label) (opening closing : String)
    (hbody : ∀ inside, inside ≠ [] → inside <:+ body → ¬ closing.toList <+: inside ++ (closing.toList ++ behind)) :
    ∃ found, (label name (Lexer.enclosed opening closing)).matchAt index prev
        (opening.toList ++ (body ++ (closing.toList ++ behind))) = some found ∧
      found.text = opening.toList ++ (body ++ closing.toList) := by
  let start : Spot := ⟨index, prev, opening.toList ++ (body ++ (closing.toList ++ behind)), []⟩
  have hwalk : (label name (Lexer.enclosed opening closing)).walk start some =
      (Lexer.enclosed opening closing).walk start fun reached => some (Spot.remember name start reached) := rfl
  rw [walk_enclosed rfl hbody fun _ => rfl] at hwalk
  have htext : start.rest = opening.toList ++ (body ++ closing.toList) ++ behind := by simp [start]
  exact exists_matchAt_of_walk hwalk htext rfl

theorem takes_enclosed {opening closing : String} {taken : List Char} {parts : Parts} :
    (Lexer.enclosed opening closing).Takes prev taken behind parts ↔
      (∃ body, taken = opening.toList ++ (body ++ closing.toList)) ∧ parts = [] := by
  constructor
  · rintro ⟨_, _, _, _, ⟨_, body, _, _, hopen, ⟨-, rfl⟩, rfl, rfl⟩, hclose, rfl, rfl⟩
    obtain ⟨rfl, rfl⟩ := (takes_word opening).mp hopen
    obtain ⟨rfl, rfl⟩ := (takes_word closing).mp hclose
    exact ⟨⟨body, List.append_assoc _ _ _⟩, rfl⟩
  · rintro ⟨⟨body, rfl⟩, rfl⟩
    exact ⟨opening.toList ++ body, closing.toList, [], [], ⟨opening.toList, body, [], [],
      (takes_word opening).mpr ⟨rfl, rfl⟩, ⟨fun _ _ => rfl, rfl⟩, rfl, rfl⟩,
      (takes_word closing).mpr ⟨rfl, rfl⟩, (List.append_assoc _ _ _).symm, rfl⟩

/-! ### The last run under a label -/

/-- A run at the end of a label goes as far as it can. -/
theorem exists_of_matchAt_label_run {first body : Pattern} {accepts : Char → Bool} {name : Label} {text : List Char}
    {found : Match} (h : (first ++ label name (body ++ run accepts)).matchAt index prev text = some found) :
    ∃ before inside behind parts parts', text = before ++ (inside ++ behind) ∧
      first.Takes prev before (inside ++ behind) parts ∧
      body.Takes (before.getLast?.or prev) inside behind parts' ∧
      found.text = before ++ (inside ++ behind.takeWhile accepts) ∧
      (found.label? name).map Span.text = some (inside ++ behind.takeWhile accepts) := by
  let start : Spot := ⟨index, prev, text, []⟩
  have hlast : ∀ since stop : Spot, (run accepts).walk stop (fun reached => some (Spot.remember name since reached)) =
      some (Spot.remember name since (stop.behind accepts)) := fun _ _ => walk_run_of_isSome rfl
  have hwalk : (first ++ label name (body ++ run accepts)).walk start some =
      first.walk start fun since => body.walk since fun stop =>
        (run accepts).walk stop fun reached => some (Spot.remember name since reached) := rfl
  simp only [hlast] at hwalk
  obtain ⟨reached, hreached, rfl⟩ := Option.map_eq_some_iff.mp h
  obtain ⟨since, hsince, hbody⟩ := exists_of_walk (hwalk.symm.trans hreached)
  obtain ⟨stop, hstop, hfound⟩ := exists_of_walk hbody
  obtain rfl := Option.some.inj hfound
  obtain ⟨before, _, hp, htakes⟩ := hsince.exists_passage
  obtain ⟨inside, _, hq, htakes'⟩ := hstop.exists_passage
  have hrun : Passage stop (stop.behind accepts) (stop.rest.takeWhile accepts) [] :=
    .after List.takeWhile_append_dropWhile.symm
  have hinside := (hq.trans hrun).remember name
  have htext : text = before ++ (inside ++ stop.rest) := hp.rest.trans (by rw [hq.rest])
  rw [hq.rest] at htakes
  rw [hp.prev] at htakes'
  refine ⟨before, inside, stop.rest, _, _, htext, htakes, htakes', (hp.trans hinside).span_text, ?_⟩
  simp only [Match.label?, Spot.remember_labels, List.find?_cons, beq_self_eq_true, Option.map_some]
  exact congrArg some hinside.span_text

/-- Between two patterns, a label takes what its own pattern does. -/
theorem exists_of_matchAt_label {first body last : Pattern} {name : Label} {text : List Char} {found : Match}
    (hlast : last.lacks name = true)
    (h : (first ++ label name body ++ last).matchAt index prev text = some found) :
    ∃ before inside after rest parts parts' parts'', text = before ++ (inside ++ (after ++ rest)) ∧
      first.Takes prev before (inside ++ (after ++ rest)) parts ∧
      body.Takes (before.getLast?.or prev) inside (after ++ rest) parts' ∧
      last.Takes (inside.getLast?.or (before.getLast?.or prev)) after rest parts'' ∧
      found.text = before ++ (inside ++ after) ∧
      ∃ span, found.label? name = some span ∧ span.start = found.start + before.length ∧ span.text = inside := by
  let start : Spot := ⟨index, prev, text, []⟩
  have hwalk : (first ++ label name body ++ last).walk start some =
      first.walk start fun since => body.walk since fun stop => last.walk (Spot.remember name since stop) some := rfl
  obtain ⟨reached, hreached, rfl⟩ := Option.map_eq_some_iff.mp h
  obtain ⟨since, hsince, hbody⟩ := exists_of_walk (hwalk.symm.trans hreached)
  obtain ⟨stop, hstop, hend⟩ := exists_of_walk hbody
  obtain ⟨reached', hreach', hfound⟩ := exists_of_walk hend
  obtain rfl := Option.some.inj hfound
  obtain ⟨before, _, hp, htakes⟩ := hsince.exists_passage
  obtain ⟨inside, _, hq, htakes'⟩ := hstop.exists_passage
  obtain ⟨after, closed, hr, htakes''⟩ := hreach'.exists_passage
  have hstopRest : stop.rest = after ++ reached'.rest := hr.rest
  have hstopPrev : (Spot.remember name since stop).prev = stop.prev := rfl
  have htext : text = before ++ (inside ++ (after ++ reached'.rest)) :=
    hp.rest.trans (by rw [hq.rest, hstopRest])
  rw [hq.rest, hstopRest] at htakes
  rw [hp.prev, hstopRest] at htakes'
  rw [hstopPrev, hq.prev, hp.prev] at htakes''
  have hwhole := (hp.trans (hq.remember name)).trans hr
  refine ⟨before, inside, after, reached'.rest, _, _, _, htext, htakes, htakes', htakes'', ?_,
    ⟨since.index, stop.index - since.index, since.rest⟩, ?_, hp.index, hq.span_text⟩
  · rw [← List.append_assoc]
    exact hwhole.span_text
  · have hnone : closed.find? (fun entry => entry.1 == name) = none := by
      have hlookup := htakes''.lookup_eq_none hlast
      have hmap := Match.map_text_label? ⟨0, [], closed⟩ name
      rw [hlookup, Option.map_eq_none_iff, Match.label?, Option.map_eq_none_iff] at hmap
      exact hmap
    rw [Match.label?, hr.labels, List.find?_append, hnone, Option.none_or, Spot.remember_labels,
      List.find?_cons_of_pos (by simp)]
    rfl

/-! ### Words in any case -/

/-- A text is a lower-case word when case is ignored. The long s and the kelvin sign fold onto letters. -/
def Spells (word : String) (text : List Char) : Prop :=
  List.Forall₂ (fun c d => d.toLower = c ∨ c = 's' ∧ d = '\u017f' ∨ c = 'k' ∧ d = '\u212a') word.toList text

theorem takes_wordAnyCase {word : String} {taken : List Char} {parts : Parts} :
    (wordAnyCase word).Takes prev taken behind parts ↔ Spells word taken ∧ parts = [] := by
  rw [wordAnyCase, Spells]
  induction word.toList generalizing prev taken parts with
  | nil => exact and_congr_left' ⟨by rintro rfl; exact .nil, fun h => by cases h; rfl⟩
  | cons c rest ih =>
    rw [List.foldr_cons, takes_append, charAnyCase]
    constructor
    · rintro ⟨_, _, _, _, ⟨⟨d, hd, rfl⟩, rfl⟩, hrest, rfl, rfl⟩
      obtain ⟨hspells, rfl⟩ := ih.mp hrest
      exact ⟨.cons (by simpa [or_assoc] using hd) hspells, rfl⟩
    · rintro ⟨hspells, rfl⟩
      cases hspells with
      | @cons _ d _ after hd hrest =>
        exact ⟨[d], after, [], [], ⟨⟨d, by simpa [or_assoc] using hd, rfl⟩, rfl⟩, ih.mpr ⟨hrest, rfl⟩, rfl, rfl⟩

/-- A text is one of some lower-case words when case is ignored. -/
def SpellsOne (words : List String) (text : List Char) : Prop := ∃ word ∈ words, Spells word text

theorem takes_wordsAnyCase {words : List String} {prev : Option Char} {taken behind : List Char} {parts : Parts} :
    (wordsAnyCase words).Takes prev taken behind parts ↔ SpellsOne words taken ∧ parts = [] := by
  rw [wordsAnyCase, takes_choice]
  constructor
  · rintro ⟨_, hmem, htakes⟩
    obtain ⟨word, hword, rfl⟩ := List.mem_map.mp hmem
    obtain ⟨hspells, hparts⟩ := takes_wordAnyCase.mp htakes
    exact ⟨⟨word, hword, hspells⟩, hparts⟩
  · rintro ⟨⟨word, hword, hspells⟩, hparts⟩
    exact ⟨wordAnyCase word, List.mem_map_of_mem hword, takes_wordAnyCase.mpr ⟨hspells, hparts⟩⟩

/-- What holds of the characters of a word and of all that fold onto some holds of the characters of a text that spells
it. -/
theorem Spells.forall {accepts : Char → Bool} (hupper : ∀ c, c.isUpper = true → accepts c = true)
    (hs : accepts '\u017f' = true) (hk : accepts '\u212a' = true) {word : String} {text : List Char}
    (h : Spells word text) (hword : word.toList.all accepts = true) : ∀ c ∈ text, accepts c = true := by
  rw [Spells] at h
  generalize word.toList = letters at h hword
  induction h with
  | nil => exact List.forall_mem_nil _
  | @cons c d _ _ hsame _ ih =>
    obtain ⟨hfirst, hrest⟩ := Bool.and_eq_true_iff.mp hword
    refine List.forall_mem_cons.mpr ⟨?_, ih hrest⟩
    rcases hsame with rfl | ⟨-, rfl⟩ | ⟨-, rfl⟩
    · by_cases hd : d.isUpper = true
      · exact hupper d hd
      · have hsame : d.toLower = d := dif_neg fun h => hd (decide_eq_true h)
        rwa [hsame] at hfirst
    · exact hs
    · exact hk

/-- A word without a letter onto which another character folds is spelt by letters only. -/
theorem spells_iff_map_toLower {word : String} {text : List Char} (hword : 's' ∉ word.toList ∧ 'k' ∉ word.toList) :
    Spells word text ↔ text.map Char.toLower = word.toList := by
  rw [Spells, eq_comm]
  generalize word.toList = letters at hword ⊢
  induction letters generalizing text with
  | nil => simp
  | cons c letters ih =>
    simp only [List.mem_cons, not_or] at hword
    cases text with
    | nil => simp
    | cons d text =>
      rw [List.forall₂_cons, List.map_cons, List.cons.injEq, ih ⟨hword.1.2, hword.2.2⟩]
      simp [Ne.symm hword.1.1, Ne.symm hword.2.1, eq_comm]

theorem Spells.ne_nil {word : String} {text : List Char} (h : Spells word text) (hword : word.toList ≠ []) :
    text ≠ [] := by
  rintro rfl
  exact hword (List.eq_nil_of_length_eq_zero (List.Forall₂.length_eq h))

theorem SpellsOne.forall {words : List String} {text : List Char} (h : SpellsOne words text) {accepts : Char → Bool}
    (hupper : ∀ c, c.isUpper = true → accepts c = true) (hs : accepts '\u017f' = true) (hk : accepts '\u212a' = true)
    (hwords : words.all (·.toList.all accepts) = true) : ∀ c ∈ text, accepts c = true := by
  obtain ⟨word, hmem, hspells⟩ := h
  exact hspells.forall hupper hs hk (List.all_eq_true.mp hwords word hmem)

theorem SpellsOne.ne_nil {words : List String} {text : List Char} (h : SpellsOne words text)
    (hwords : ∀ word ∈ words, word.toList ≠ []) : text ≠ [] := by
  obtain ⟨word, hmem, hspells⟩ := h
  exact hspells.ne_nil (hwords word hmem)

theorem Spells.append {first second word : String} {text text' : List Char} (h : Spells first text)
    (h' : Spells second text') (hword : word.toList = first.toList ++ second.toList) : Spells word (text ++ text') := by
  rw [Spells, hword]
  exact List.rel_append h h'

/-! ### Units -/

theorem takes_units {plain follows : Char → Bool} {opening closing : Char} {taken : List Char} {parts : Parts} :
    (char opening ++ escapedRun plain follows ++ char closing).Takes prev taken behind parts ↔
      (∃ body, EscapedUnits plain follows body ∧ taken = opening :: (body ++ [closing])) ∧ parts = [] := by
  constructor
  · rintro ⟨_, _, _, _, ⟨_, body, _, _, hopen, ⟨hbody, rfl⟩, rfl, rfl⟩, hclose, rfl, rfl⟩
    obtain ⟨rfl, rfl⟩ := (takes_char opening).mp hopen
    obtain ⟨rfl, rfl⟩ := (takes_char closing).mp hclose
    exact ⟨⟨body, hbody, rfl⟩, rfl⟩
  · rintro ⟨⟨body, hbody, rfl⟩, rfl⟩
    exact ⟨opening :: body, [closing], [], [], ⟨[opening], body, [], [], (takes_char opening).mpr ⟨rfl, rfl⟩,
      ⟨hbody, rfl⟩, rfl, rfl⟩, (takes_char closing).mpr ⟨rfl, rfl⟩, rfl, rfl⟩

end Pattern

namespace EscapedUnits

variable {plain follows : Char → Bool} {text text' behind behind' : List Char} {closing : Char}

theorem of_all (h : text.all plain = true) : EscapedUnits plain follows text := by
  induction text with
  | nil => exact .nil
  | cons c rest ih =>
    rw [List.all_cons, Bool.and_eq_true] at h
    exact .plain h.1 (ih h.2)

/-- Without a backslash nothing is escaped. -/
theorem all_of_not_mem (h : EscapedUnits plain follows text) (hslash : '\\' ∉ text) : text.all plain = true := by
  induction h with
  | nil => rfl
  | plain hc _ ih => exact Bool.and_eq_true_iff.mpr ⟨hc, ih fun hmem => hslash (List.mem_cons_of_mem _ hmem)⟩
  | escaped => exact absurd List.mem_cons_self hslash

theorem append (h : EscapedUnits plain follows text) (h' : EscapedUnits plain follows text') :
    EscapedUnits plain follows (text ++ text') := by
  induction h with
  | nil => exact h'
  | plain hc _ ih => exact .plain hc ih
  | escaped hplain hd _ ih => exact .escaped hplain hd ih

theorem mono {plain' : Char → Bool} (h : EscapedUnits plain follows text)
    (hplain : ∀ c, plain c = true → plain' c = true) (hslash : plain' '\\' = false) :
    EscapedUnits plain' follows text := by
  induction h with
  | nil => exact .nil
  | plain hc _ ih => exact .plain (hplain _ hc) ih
  | escaped _ hd _ ih => exact .escaped hslash hd ih

/-- Units end at the first character that is neither plain nor escaped. -/
theorem eq_of_append_eq (hplain : plain closing = false) (hclosing : closing ≠ '\\')
    (h : EscapedUnits plain follows text) (h' : EscapedUnits plain follows text')
    (heq : text ++ closing :: behind = text' ++ closing :: behind') : text = text' ∧ behind = behind' := by
  induction h generalizing text' with
  | nil => cases h' <;> grind
  | plain hc _ ih => cases h' <;> grind
  | escaped hslash _ _ ih => cases h' <;> grind

/-- An opening takes all units up to the first closing that is not escaped. -/
theorem exists_matchAt (hplain : plain closing = false) (hclosing : closing ≠ '\\')
    (h : EscapedUnits plain follows text) (opening : Char) (index : Nat) (prev : Option Char) (behind : List Char) :
    ∃ found, (Pattern.char opening ++ .escapedRun plain follows ++ .char closing).matchAt index prev
        (opening :: (text ++ [closing]) ++ behind) = some found ∧ found.text = opening :: (text ++ [closing]) := by
  have hsome : ((Pattern.char opening ++ .escapedRun plain follows ++ .char closing).matchAt index prev
      (opening :: (text ++ [closing]) ++ behind)).isSome = true :=
    Pattern.matchAt_isSome_iff.mpr ⟨_, behind, [], rfl, Pattern.takes_units.mpr ⟨⟨text, h, rfl⟩, rfl⟩⟩
  obtain ⟨found, hfound⟩ := Option.isSome_iff_exists.mp hsome
  obtain ⟨behind', _, htext, htakes, -⟩ := Match.exists_takes hfound
  obtain ⟨⟨body, hunits, hbody⟩, -⟩ := Pattern.takes_units.mp htakes
  have heq : text ++ closing :: behind = body ++ closing :: behind' := by simpa [hbody] using htext
  obtain ⟨rfl, -⟩ := h.eq_of_append_eq hplain hclosing hunits heq
  exact ⟨found, hfound, hbody⟩

end EscapedUnits

end Minifier
