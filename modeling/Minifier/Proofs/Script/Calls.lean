import Minifier.Proofs.Script.DebugStatements
import Minifier.Proofs.Text.Words

/-!
Calls of a console that are left when calls and debugger statements have been deleted. Brackets may lie in each other
as deep as they like here. What is deleted has balanced brackets, so the text in the brackets of a call that is left was
balanced before. Such a call stood in the text already, and then its brackets lie too deep in each other, or the rest of
it has come up to the beginning of its head where something was deleted.
-/

namespace Minifier

open Pattern Text

namespace Script

variable {text before head inside behind first second mid : List Char} {c : Char} {m n : Nat}

/-! ### Balanced brackets -/

/-- The characters of a class that holds no bracket. -/
theorem not_bracket_of_forall (accepts : Char → Bool) (haccepts : ['(', ')'].any accepts = false)
    (h : ∀ c ∈ text, accepts c = true) : ∀ c ∈ text, c ∉ ['(', ')'] :=
  fun c hc hbracket => List.any_eq_false.mp haccepts c hbracket (h c hc)

/-- A text whose brackets are balanced, however deep they lie in each other. -/
def Balanced (text : List Char) : Prop := ∃ n, Nested n text

theorem Nested.mono (h : Nested n text) (hle : n ≤ m) : Nested m text := by
  induction h generalizing m with
  | nil => exact .nil
  | plain hc _ ih => exact .plain hc (ih hle)
  | brackets _ _ ihinside ihrest =>
    obtain ⟨m, rfl⟩ := Nat.exists_eq_add_of_lt hle
    exact .brackets (ihinside (by omega)) (ihrest (by omega))

namespace Balanced

theorem append (h : Balanced first) (h' : Balanced second) : Balanced (first ++ second) := by
  obtain ⟨m, hm⟩ := h
  obtain ⟨n, hn⟩ := h'
  exact ⟨max m n, (hm.mono (Nat.le_max_left m n)).append (hn.mono (Nat.le_max_right m n))⟩

theorem brackets (h : Balanced inside) (h' : Balanced second) : Balanced ('(' :: (inside ++ ')' :: second)) := by
  obtain ⟨m, hm⟩ := h
  obtain ⟨n, hn⟩ := h'
  exact ⟨max m n + 1, .brackets (hm.mono (Nat.le_max_left m n)) (hn.mono (Nat.le_succ_of_le (Nat.le_max_right m n)))⟩

theorem of_forall (accepts : Char → Bool) (haccepts : ['(', ')'].any accepts = false)
    (h : ∀ c ∈ text, accepts c = true) : Balanced text :=
  ⟨0, nested_of_plain (not_bracket_of_forall accepts haccepts h)⟩

theorem congr (hbrackets : bracketsOf first = bracketsOf second) (h : Balanced first) : Balanced second := by
  obtain ⟨n, hn⟩ := h
  exact ⟨n, nested_bracketsOf_iff.mp (hbrackets ▸ nested_bracketsOf_iff.mpr hn)⟩

/-- Balanced brackets can be put in anywhere. -/
theorem insert (h : Balanced (first ++ second)) (hmid : Balanced mid) : Balanced (first ++ (mid ++ second)) := by
  obtain ⟨n, hn⟩ := h
  generalize htext : first ++ second = text at hn
  induction hn generalizing first second with
  | nil =>
    obtain ⟨rfl, rfl⟩ := List.append_eq_nil_iff.mp htext
    simpa using hmid
  | @plain n c rest hc hrest ih =>
    cases first with
    | nil =>
      obtain rfl : second = c :: rest := htext
      exact hmid.append ⟨n, .plain hc hrest⟩
    | cons d first =>
      obtain ⟨rfl, rfl⟩ := List.cons.inj htext
      obtain ⟨m, hm⟩ := ih rfl
      exact ⟨m, .plain hc hm⟩
  | @brackets n inside rest hinside hrest ihinside ihrest =>
    cases first with
    | nil =>
      obtain rfl : second = '(' :: (inside ++ ')' :: rest) := htext
      exact hmid.append ⟨n + 1, .brackets hinside hrest⟩
    | cons d first =>
      obtain ⟨rfl, htail⟩ := List.cons.inj htext
      rcases List.append_eq_append_iff.mp htail with ⟨more, rfl, rfl⟩ | ⟨more, rfl, hmore⟩
      · -- They are put in between the brackets.
        simpa using (ihinside rfl).brackets ⟨n + 1, hrest⟩
      · cases more with
        | nil =>
          obtain rfl : second = ')' :: rest := by simpa using hmore.symm
          have hinner : Balanced (inside ++ mid) := append ⟨n, hinside⟩ hmid
          simpa using hinner.brackets ⟨n + 1, hrest⟩
        | cons e more =>
          obtain ⟨rfl, rfl⟩ := List.cons.inj hmore
          simpa using brackets ⟨n, hinside⟩ (ihrest rfl)

end Balanced

/-! ### Calls -/

/-- What stands before the brackets of a call: a member of a console, and blanks. -/
inductive IsCallHead : List Char → Prop where
  | mk {member blanks : List Char} : IsConsoleMember member → (∀ c ∈ blanks, isBlank c = true) →
      IsCallHead (member ++ blanks)

/-- A call of a member of a console, at a place before which no word character stands. -/
structure CallAt (text before head inside behind : List Char) : Prop where
  text_eq : text = before ++ (head ++ '(' :: (inside ++ ')' :: behind))
  edge : before.getLast?.any isWord = false
  isHead : IsCallHead head
  balanced : Balanced inside

/-- Whether a text has a call of a console in it. -/
def HoldsCall (text : List Char) : Prop := ∃ before head inside behind, CallAt text before head inside behind

/-- Whether a text has a call of a console in it with more than two levels of brackets in its brackets. -/
def HoldsDeepCall (text : List Char) : Prop :=
  ∃ before head inside behind, CallAt text before head inside behind ∧ ¬ Nested 2 inside

/-- Whether a word stands in a text with no word character on either side. -/
def HoldsWord (word text : List Char) : Prop :=
  ∃ before behind, text = before ++ (word ++ behind) ∧ before.getLast?.any isWord = false ∧
    behind.head?.any isWord = false

theorem IsConsoleMember.exists_cons (h : IsConsoleMember text) : ∃ rest, text = 'c' :: rest := by
  obtain ⟨-, -, -⟩ := h
  exact ⟨_, rfl⟩

theorem IsCallHead.exists_cons (h : IsCallHead head) : ∃ rest, head = 'c' :: rest := by
  obtain ⟨hmember, -⟩ := h
  obtain ⟨rest, rfl⟩ := hmember.exists_cons
  exact ⟨_, rfl⟩

theorem IsConsoleMember.balanced (h : IsConsoleMember text) : Balanced text := by
  obtain ⟨hblanks, hblanks', hname⟩ := h
  have hword : Balanced "console".toList := .of_forall isWord rfl (List.all_eq_true.mp rfl)
  have hpoint : Balanced ['.'] := .of_forall (· == '.') rfl (List.all_eq_true.mp rfl)
  exact (((hword.append (.of_forall isBlank rfl hblanks)).append hpoint).append
    (.of_forall isBlank rfl hblanks')).append (.of_forall Class.namePart rfl hname.namePart)

theorem IsConsoleCall.balanced (h : IsConsoleCall text) : Balanced text := by
  cases h with
  | @mk member blanks inside blanks' last hmember hblanks hinside hblanks' hlast =>
    have hbrackets : Balanced ('(' :: (inside ++ [')'])) := .brackets ⟨2, hinside⟩ ⟨0, .nil⟩
    have hend : Balanced last := by
      rcases hlast with rfl | rfl
      · exact .of_forall (· == ';') rfl (List.all_eq_true.mp rfl)
      · exact ⟨0, .nil⟩
    exact (((hmember.balanced.append (.of_forall isBlank rfl hblanks)).append hbrackets).append
      (.of_forall isBlank rfl hblanks')).append hend

/-! ### Segments -/

/-- What is left of a text whose matches go. -/
def leftOf (segments : List Segment) : List Char :=
  segments.filterMap fun
    | .plain c => some c
    | .hit _ => none

theorem exists_of_leftOf_eq {segments : List Segment} (h : leftOf segments = first ++ c :: second) :
    ∃ done todo, segments = done ++ .plain c :: todo ∧ leftOf done = first ∧ leftOf todo = second := by
  obtain ⟨done, rest, rfl, hdone, hrest⟩ := List.filterMap_eq_append_iff.mp h
  obtain ⟨hits, segment, todo, rfl, hhits, hsegment, htodo⟩ := List.filterMap_eq_cons_iff.mp hrest
  refine ⟨done ++ hits, todo, ?_, ?_, htodo⟩
  · cases segment with
    | plain d =>
      obtain rfl := Option.some.inj hsegment
      simp
    | hit _ => cases hsegment
  · rw [leftOf, List.filterMap_append, hdone, List.filterMap_eq_nil_iff.mpr hhits, List.append_nil]

/-- The characters up to the first match. -/
theorem plain_or_hit (segments : List Segment) : segments = (leftOf segments).map .plain ∨
    ∃ text found todo, segments = text.map .plain ++ .hit found :: todo ∧ text <+: leftOf segments := by
  induction segments with
  | nil => exact Or.inl rfl
  | cons segment segments ih =>
    cases segment with
    | plain c =>
      rcases ih with hplain | ⟨text, found, todo, hsegments, hbegins⟩
      · exact Or.inl (congrArg (Segment.plain c :: ·) hplain)
      · exact Or.inr ⟨c :: text, found, todo, congrArg (Segment.plain c :: ·) hsegments,
          (List.prefix_cons_inj c).mpr hbegins⟩
    | hit found => exact Or.inr ⟨[], found, segments, rfl, List.nil_prefix⟩

theorem flatMap_text_plain (text : List Char) : (text.map Segment.plain).flatMap Segment.text = text := by
  simp [List.flatMap_map, Segment.text]

/-- Deleted pieces with balanced brackets do not matter to whether brackets are balanced. The induction is on the
segments, with the text before them. -/
theorem balanced_of_leftOf {segments : List Segment} (hhits : ∀ found, .hit found ∈ segments → Balanced found.text)
    (h : Balanced (leftOf segments)) : Balanced (segments.flatMap Segment.text) := by
  suffices hbehind : ∀ front, Balanced (front ++ leftOf segments) →
      Balanced (front ++ segments.flatMap Segment.text) from hbehind [] h
  clear h
  induction segments with
  | nil => exact fun front h => h
  | cons segment segments ih =>
    have hrest := ih fun found hfound => hhits found (List.mem_cons_of_mem _ hfound)
    intro front h
    cases segment with
    | plain c => simpa [Segment.text] using hrest (front ++ [c]) (by simpa [leftOf] using h)
    | hit found =>
      have hinsert := h.insert (hhits found List.mem_cons_self)
      simpa [Segment.text] using hrest (front ++ found.text) (by simpa [leftOf] using hinsert)

/-- A character that stays lies in no match. -/
theorem not_lt_of_plain {done done' todo todo' : List Segment} {found : Match}
    (h : done ++ .plain c :: todo = done' ++ .hit found :: todo')
    (hle : (done'.flatMap Segment.text).length ≤ (done.flatMap Segment.text).length) :
    ¬ (done.flatMap Segment.text).length < (done'.flatMap Segment.text ++ found.text).length := by
  rcases eq_or_length_le_of_segments h with ⟨-, hsame⟩ | hbefore | hbehind
  · cases hsame
  · rw [List.length_append] at hbefore
    exact absurd (hbefore.trans hle) (Nat.not_succ_le_self _)
  · exact Nat.not_lt.mpr hbehind

/-! ### Deletions -/

/-- A rule that deletes text with balanced brackets, from where no word goes on to where none goes on. -/
structure DeletesBalanced (rule : Rule) : Prop where
  exceeds : rule.pattern.exceeds [] = true
  passes : rule.passes = 1
  replace : ∀ found, rule.replace found = []
  before : ∀ {index : Nat} {prev : Option Char} {text : List Char} {found : Match},
    rule.pattern.matchAt index prev text = some found → prev.any isWord = false
  balanced : ∀ {index : Nat} {prev : Option Char} {text : List Char} {found : Match},
    rule.pattern.matchAt index prev text = some found → Balanced found.text
  behind : ∀ {index : Nat} {prev : Option Char} {found : Match} {behind : List Char},
    rule.pattern.matchAt index prev (found.text ++ behind) = some found → found.text.getLast?.any isWord = true →
      behind.head?.any isWord = false

theorem any_getLast?_append (hne : second ≠ []) (h : ∀ c ∈ second, isWord c = false) :
    (first ++ second).getLast?.any isWord = false := by
  rw [List.getLast?_append_of_ne_nil _ hne, List.getLast?_eq_some_getLast hne]
  exact h _ (List.getLast_mem hne)

/-- No word goes on behind a call. -/
theorem IsConsoleCall.any_getLast? (h : IsConsoleCall text) : text.getLast?.any isWord = false := by
  cases h with
  | @mk member blanks inside blanks' last _ _ _ hblanks' hlast =>
    have hend : ∀ c ∈ [')'] ++ (blanks' ++ last), isWord c = false := by
      simp only [List.forall_mem_append]
      refine ⟨List.forall_mem_singleton.mpr rfl, fun c hc => isWord_of_isBlank (hblanks' c hc), ?_⟩
      rcases hlast with rfl | rfl
      · exact List.forall_mem_singleton.mpr rfl
      · exact List.forall_mem_nil _
    have htext : member ++ blanks ++ ('(' :: (inside ++ [')'])) ++ blanks' ++ last =
        (member ++ blanks ++ '(' :: inside) ++ ([')'] ++ (blanks' ++ last)) := by simp
    rw [htext]
    exact any_getLast?_append (List.cons_ne_nil _ _) hend

theorem deletesBalanced_consoleCall : DeletesBalanced consoleCall where
  exceeds := by decide
  passes := rfl
  replace _ := rfl
  before h := by
    obtain ⟨_, _, -, htakes, -⟩ := Match.exists_takes h
    exact (takes_consoleCall.mp htakes).1
  balanced h := by
    obtain ⟨_, _, -, htakes, -⟩ := Match.exists_takes h
    exact (takes_consoleCall.mp htakes).2.1.balanced
  behind h hlast := by
    obtain ⟨_, _, -, htakes, -⟩ := Match.exists_takes h
    rw [(takes_consoleCall.mp htakes).2.1.any_getLast?] at hlast
    cases hlast

/-- What goes with a debugger statement are blanks and a semicolon. -/
theorem of_mem_statementEnd {rest : List Char} (hc : c ∈ statementEnd rest) : isBlank c = true ∨ c = ';' := by
  rcases List.mem_append.mp hc with hblank | hsemicolon
  · exact Or.inl (List.all_eq_true.mp List.all_takeWhile c hblank)
  · split at hsemicolon
    · exact Or.inr (List.mem_singleton.mp hsemicolon)
    · cases hsemicolon

theorem deletesBalanced_debuggerStatement : DeletesBalanced debuggerStatement where
  exceeds := by decide
  passes := rfl
  replace _ := rfl
  before h := by
    obtain ⟨_, -, hprev, -⟩ := exists_of_debuggerStatement_matchAt h
    exact hprev
  balanced h := by
    obtain ⟨_, -, -, -, htext⟩ := exists_of_debuggerStatement_matchAt h
    have hword : Balanced "debugger".toList := .of_forall isWord rfl (List.all_eq_true.mp rfl)
    have hend : ∀ c, isBlank c = true ∨ c = ';' → (isBlank c || c == ';') = true := by simp
    rw [htext]
    exact hword.append (.of_forall (fun c => isBlank c || c == ';') rfl fun c hc => hend c (of_mem_statementEnd hc))
  behind h hlast := by
    obtain ⟨rest, hrest, -, hbehind, htext⟩ := exists_of_debuggerStatement_matchAt h
    by_cases hnil : statementEnd rest = []
    · rw [htext, hnil, List.append_nil] at hrest
      rwa [List.append_cancel_left hrest]
    · have hend : ∀ c ∈ statementEnd rest, isWord c = false := fun c hc => by
        rcases of_mem_statementEnd hc with hblank | rfl
        · exact isWord_of_isBlank hblank
        · decide
      rw [htext, any_getLast?_append hnil hend] at hlast
      cases hlast

namespace DeletesBalanced

variable {rule : Rule}

theorem apply_eq (hrule : DeletesBalanced rule) (text : List Char) :
    rule.apply text = leftOf (rule.pattern.segments text) := by
  rw [rule.apply_eq_once hrule.passes, Rule.once, replaceAll, leftOf]
  induction rule.pattern.segments text with
  | nil => rfl
  | cons segment segments ih =>
    cases segment with
    | plain c => simpa using ih
    | hit found => simpa [hrule.replace] using ih

/-- A match among the segments is deleted. -/
theorem deletes {done todo : List Segment} {found : Match} (hrule : DeletesBalanced rule)
    (h : rule.pattern.segments text = done ++ .hit found :: todo) :
    rule.Deletes text (done.flatMap Segment.text) found.text (todo.flatMap Segment.text) :=
  ⟨done, found, todo, h, hrule.replace found, rfl, rfl, rfl⟩

/-- A text stays as it is, or something is deleted from it. -/
theorem apply_eq_self_or (hrule : DeletesBalanced rule) (text : List Char) :
    rule.apply text = text ∨ ∃ before deleted behind, rule.Deletes text before deleted behind := by
  rcases plain_or_hit (rule.pattern.segments text) with hplain | ⟨_, found, todo, hsegments, -⟩
  · refine Or.inl ?_
    have htext := (segments_segmented rule.pattern text).flatMap_text
    rw [hplain, flatMap_text_plain] at htext
    rw [hrule.apply_eq, htext]
  · exact Or.inr ⟨_, _, _, hrule.deletes hsegments⟩

/-- Before a word character that stays no word went on, if none goes on in what is left. -/
theorem any_getLast?_eq {done todo : List Segment} (hrule : DeletesBalanced rule)
    (h : rule.pattern.segments text = done ++ .plain c :: todo) (hc : isWord c = true)
    (hleft : (leftOf done).getLast?.any isWord = false) :
    (done.flatMap Segment.text).getLast?.any isWord = false := by
  rcases List.eq_nil_or_concat done with rfl | ⟨done, segment, rfl⟩
  · rfl
  · rw [List.concat_eq_append] at h hleft ⊢
    cases segment with
    | plain d => simpa [leftOf, Segment.text] using hleft
    | hit found =>
      rw [List.append_assoc, List.singleton_append] at h
      obtain ⟨-, index, found', hfound, htext⟩ := (hrule.deletes h).exists_matchAt
      have hne : found.text ≠ [] := htext ▸ ne_nil_of_matchAt hrule.exceeds hfound
      rw [List.flatMap_append, List.flatMap_singleton, Segment.text, List.getLast?_append_of_ne_nil _ hne]
      rw [← htext] at hfound ⊢
      refine Bool.eq_false_iff.mpr fun hlast => ?_
      have hbehind := hrule.behind hfound hlast
      rw [List.flatMap_cons, Segment.text, List.singleton_append] at hbehind
      exact Bool.eq_false_iff.mp hbehind hc

/-- What is left of a piece of the text is balanced only if the piece was. -/
theorem balanced_text {done middle todo : List Segment} (hrule : DeletesBalanced rule)
    (h : rule.pattern.segments text = done ++ (middle ++ todo))
    (hleft : Balanced (leftOf middle)) : Balanced (middle.flatMap Segment.text) := by
  refine balanced_of_leftOf (fun found hfound => ?_) hleft
  obtain ⟨first, second, rfl⟩ := List.append_of_mem hfound
  have hsegments : rule.pattern.segments text = (done ++ first) ++ .hit found :: (second ++ todo) := by simp [h]
  obtain ⟨-, index, found', hfound', htext⟩ := (hrule.deletes hsegments).exists_matchAt
  exact htext ▸ hrule.balanced hfound'

end DeletesBalanced

/-- Whether a deletion puts the head of a call together: in front of the match stands the beginning of the head, and the
rest of the call comes up to it. -/
def JoinsCall (rule : Rule) (text : List Char) : Prop :=
  ∃ done part found todo more inside behind,
    rule.pattern.segments text = done ++ (part.map .plain ++ .hit found :: todo) ∧ part ≠ [] ∧
      CallAt (rule.apply text) (leftOf done) (part ++ more) inside behind

/-- A call that is left stood in the text with its whole head, or a deletion has put its head together. -/
theorem CallAt.cases_apply {rule : Rule} (hrule : DeletesBalanced rule)
    (h : CallAt (rule.apply text) before head inside behind) :
    (∃ done todo inside' behind', rule.pattern.segments text = done ++ .plain 'c' :: todo ∧
      CallAt text (done.flatMap Segment.text) head inside' behind') ∨ JoinsCall rule text := by
  obtain ⟨tail, rfl⟩ := h.isHead.exists_cons
  have hleft := h.text_eq
  rw [hrule.apply_eq, List.cons_append] at hleft
  obtain ⟨done, rest, hsegments, hdone, hrest⟩ := exists_of_leftOf_eq hleft
  obtain ⟨middle, rest, rfl, hmiddle, hbrackets⟩ := exists_of_leftOf_eq hrest
  obtain ⟨inner, todo, rfl, hinner, -⟩ := exists_of_leftOf_eq hbrackets
  have hedge : (done.flatMap Segment.text).getLast?.any isWord = false :=
    hrule.any_getLast?_eq hsegments (by decide) (by rw [hdone]; exact h.edge)
  rcases plain_or_hit middle with hplain | ⟨part, found, more, rfl, more', hmore⟩
  · -- Nothing was deleted from the head.
    rw [hmiddle] at hplain
    have hinner' : rule.pattern.segments text = (done ++ .plain 'c' :: (middle ++ [.plain '('])) ++
        (inner ++ .plain ')' :: todo) := by simp [hsegments]
    have hinside : Balanced (inner.flatMap Segment.text) :=
      hrule.balanced_text hinner' (by rw [hinner]; exact h.balanced)
    refine Or.inl ⟨done, _, inner.flatMap Segment.text, todo.flatMap Segment.text, hsegments, ?_, hedge, h.isHead,
      hinside⟩
    rw [← (segments_segmented rule.pattern text).flatMap_text, hsegments, hplain]
    simp [flatMap_text_plain, Segment.text]
  · refine Or.inr ⟨done, 'c' :: part, found, more ++ .plain '(' :: (inner ++ .plain ')' :: todo), more', inside, behind,
      by simp [hsegments], List.cons_ne_nil _ _, ?_⟩
    rwa [hdone, List.cons_append, hmore, hmiddle]

/-- A call that is left by the rule for calls was there with its whole head, and its brackets lie too deep in each
other, or a deletion has put its head together. -/
theorem holdsDeepCall_of_consoleCall (h : HoldsCall (consoleCall.apply text)) :
    HoldsDeepCall text ∨ JoinsCall consoleCall text := by
  obtain ⟨before, head, inside, behind, hcall⟩ := h
  refine (hcall.cases_apply deletesBalanced_consoleCall).imp_left ?_
  rintro ⟨done, todo, inside', behind', hsegments, hold⟩
  refine ⟨_, _, _, _, hold, fun hnested => ?_⟩
  -- Otherwise the call is deleted, with its first character.
  obtain ⟨call, hcall, htext⟩ :
      ∃ call, IsConsoleCall call ∧ text = done.flatMap Segment.text ++ (call ++ behind') := by
    obtain ⟨htext, -, @⟨member, blanks, hmember, hblanks⟩, -⟩ := hold
    exact ⟨_, .mk hmember hblanks hnested (List.forall_mem_nil _) (Or.inr rfl), by simp [htext]⟩
  obtain ⟨_, _, _, ⟨done', found, todo', hsegments', -, rfl, rfl, -⟩, hle, hlt⟩ := hcall.exists_deletes hold.edge htext
  exact not_lt_of_plain (hsegments.symm.trans hsegments') hle hlt

theorem holdsCall_of_debuggerStatement (h : HoldsCall (debuggerStatement.apply text)) :
    HoldsCall text ∨ JoinsCall debuggerStatement text := by
  obtain ⟨before, head, inside, behind, hcall⟩ := h
  refine (hcall.cases_apply deletesBalanced_debuggerStatement).imp_left ?_
  rintro ⟨done, todo, inside', behind', -, hold⟩
  exact ⟨_, _, _, _, hold⟩

/-! ### Words -/

/-- What is left of a word stood in the text as it is, for no match begins within a word or at its end. The induction is
on the segments behind its first character. -/
theorem DeletesBalanced.exists_of_word {rule : Rule} (hrule : DeletesBalanced rule) {word : List Char}
    {done rest : List Segment} (h : rule.pattern.segments text = done ++ .plain c :: rest) (hc : isWord c = true)
    (hword : ∀ d ∈ word, isWord d = true) (hleft : leftOf rest = word ++ behind) :
    ∃ todo, rest = word.map .plain ++ todo ∧ (todo.flatMap Segment.text).head? = behind.head? := by
  induction rest generalizing done c word with
  | nil =>
    obtain ⟨rfl, rfl⟩ := List.append_eq_nil_iff.mp hleft.symm
    exact ⟨[], rfl, rfl⟩
  | cons segment rest ih =>
    have hsegments : rule.pattern.segments text = (done ++ [.plain c]) ++ segment :: rest := by simp [h]
    cases segment with
    | hit found =>
      obtain ⟨-, index, found', hfound, -⟩ := (hrule.deletes hsegments).exists_matchAt
      have hprev := hrule.before hfound
      rw [List.flatMap_append, List.flatMap_singleton, Segment.text, List.getLast?_concat] at hprev
      exact absurd hc (Bool.eq_false_iff.mp hprev)
    | plain d =>
      have hcons : d :: leftOf rest = word ++ behind := hleft
      cases word with
      | nil =>
        obtain rfl : d :: leftOf rest = behind := hcons
        exact ⟨.plain d :: rest, rfl, rfl⟩
      | cons e word =>
        obtain ⟨rfl, hrest⟩ := List.cons.inj hcons
        obtain ⟨hd, htail⟩ := List.forall_mem_cons.mp hword
        obtain ⟨todo, rfl, hhead⟩ := ih hsegments hd htail hrest
        exact ⟨todo, rfl, hhead⟩

/-- The word of a debugger statement is gone. -/
theorem not_holdsWord_debugger (text : List Char) : ¬ HoldsWord "debugger".toList (debuggerStatement.apply text) := by
  rintro ⟨before, behind, htext, hbefore, hbehind⟩
  have hrule := deletesBalanced_debuggerStatement
  have hword : "debugger".toList = 'd' :: "ebugger".toList := rfl
  rw [hrule.apply_eq, hword, List.cons_append] at htext
  obtain ⟨done, rest, hsegments, hdone, hrest⟩ := exists_of_leftOf_eq htext
  have hedge : (done.flatMap Segment.text).getLast?.any isWord = false :=
    hrule.any_getLast?_eq hsegments (by decide) (by rw [hdone]; exact hbefore)
  obtain ⟨todo, rfl, hhead⟩ := hrule.exists_of_word hsegments (by decide) (List.all_eq_true.mp rfl) hrest
  have hplace : text = done.flatMap Segment.text ++ ("debugger".toList ++ todo.flatMap Segment.text) := by
    rw [← (segments_segmented debuggerStatement.pattern text).flatMap_text, hsegments, hword]
    simp [Segment.text]
  rw [← hhead] at hbehind
  obtain ⟨after, hafter⟩ := statementEnd_prefix (todo.flatMap Segment.text)
  -- So it would have been found there.
  obtain ⟨done', found, todo', hsegments', -, hdone', htext', -⟩ :=
    deletes_debuggerStatement hplace hedge hbehind hafter.symm
  refine not_lt_of_plain (hsegments.symm.trans hsegments') (by rw [hdone']) ?_
  rw [List.length_append, hdone', htext', List.length_append]
  exact Nat.lt_add_of_pos_right (Nat.add_pos_left (by decide) _)

end Script

end Minifier
