import Minifier.Minify
import Minifier.Proofs.Mangle.Renaming
import Minifier.Proofs.Pattern.Enclosed

/-!
What the rules for debugging aids delete. A call of a console goes where no word character stands before it, and a
debugger statement where none stands on either side of its word. Nothing else is asked of the place. So the word may be
the end of a name that has a dollar sign in it, the name of a member, or the key of an object.
-/

namespace Minifier

open Pattern Text

/-- Whether one pass of a rule puts something in the place of a piece of a text, between two others. -/
def Rule.Swaps (rule : Rule) (text before old new behind : List Char) : Prop :=
  ∃ done found todo, rule.pattern.segments text = done ++ .hit found :: todo ∧ rule.replace found = new ∧
    done.flatMap Segment.text = before ∧ found.text = old ∧ todo.flatMap Segment.text = behind

/-- What gives way is the match at its place. -/
theorem Rule.Swaps.exists_matchAt {rule : Rule} {text before old new behind : List Char}
    (h : rule.Swaps text before old new behind) : text = before ++ (old ++ behind) ∧
      ∃ index found, rule.pattern.matchAt index before.getLast? (old ++ behind) = some found ∧ found.text = old := by
  obtain ⟨done, found, todo, hsegments, -, rfl, rfl, rfl⟩ := h
  have hsearch := segments_segmented rule.pattern text
  have htext := hsearch.flatMap_text
  rw [hsegments] at hsearch htext
  obtain ⟨index, rest, hplace, hfound⟩ := hsearch.exists_matchAt
  rw [Option.or_none] at hfound
  have htext : done.flatMap Segment.text ++ (found.text ++ todo.flatMap Segment.text) = text := by
    simpa [Segment.text] using htext
  have hrest := List.append_cancel_left (List.append_cancel_left (hplace.symm.trans htext.symm))
  exact ⟨htext.symm, index, found, hrest ▸ hfound, rfl⟩

/-- Whether one pass of a rule takes a piece of a text away from between two others. -/
def Rule.Deletes (rule : Rule) (text before deleted behind : List Char) : Prop :=
  ∃ done found todo, rule.pattern.segments text = done ++ .hit found :: todo ∧ rule.replace found = [] ∧
    done.flatMap Segment.text = before ∧ found.text = deleted ∧ todo.flatMap Segment.text = behind

/-- What is taken away is the match at its place. -/
theorem Rule.Deletes.exists_matchAt {rule : Rule} {text before deleted behind : List Char}
    (h : rule.Deletes text before deleted behind) : text = before ++ (deleted ++ behind) ∧
      ∃ index found, rule.pattern.matchAt index before.getLast? (deleted ++ behind) = some found ∧
        found.text = deleted :=
  Rule.Swaps.exists_matchAt h

namespace Script

variable {prev : Option Char} {text before taken deleted behind rest : List Char} {parts : Parts} {n : Nat}

/-! ### Brackets -/

/-- A text whose brackets are balanced and lie in each other at most so many times. -/
inductive Nested : Nat → List Char → Prop where
  | nil {n : Nat} : Nested n []
  | plain {n : Nat} {c : Char} {rest : List Char} : c ∉ ['(', ')'] → Nested n rest → Nested n (c :: rest)
  | brackets {n : Nat} {inside rest : List Char} : Nested n inside → Nested (n + 1) rest →
      Nested (n + 1) ('(' :: (inside ++ ')' :: rest))

theorem Nested.append {first second : List Char} (h : Nested n first) (h' : Nested n second) :
    Nested n (first ++ second) := by
  induction h with
  | nil => exact h'
  | plain hc _ ih => exact .plain hc (ih h')
  | brackets hinside _ _ ih =>
    rw [List.cons_append, List.append_assoc, List.cons_append]
    exact .brackets hinside (ih h')

theorem notBracket_iff {c : Char} : notBracket c = true ↔ c ∉ ['(', ')'] := by simp [notBracket, Class.except]

/-- The brackets of a text. -/
def bracketsOf (text : List Char) : List Char := text.filter fun c => !notBracket c

theorem bracketsOf_append (first second : List Char) :
    bracketsOf (first ++ second) = bracketsOf first ++ bracketsOf second :=
  List.filter_append first second

theorem bracketsOf_eq_nil_iff : bracketsOf text = [] ↔ ∀ c ∈ text, c ∉ ['(', ')'] := by
  simp [bracketsOf, List.filter_eq_nil_iff, notBracket_iff]

theorem nested_of_plain {n : Nat} (h : ∀ c ∈ text, c ∉ ['(', ')']) : Nested n text := by
  induction text with
  | nil => exact .nil
  | cons c rest ih =>
    obtain ⟨hc, hrest⟩ := List.forall_mem_cons.mp h
    exact .plain hc (ih hrest)

/-- Whether brackets are balanced depends on the brackets alone. -/
theorem nested_bracketsOf_iff {n : Nat} : Nested n (bracketsOf text) ↔ Nested n text := by
  constructor
  · intro h
    generalize hbrackets : bracketsOf text = brackets at h
    induction h generalizing text with
    | nil => exact nested_of_plain (bracketsOf_eq_nil_iff.mp hbrackets)
    | @plain _ c _ hc _ _ =>
      have hmem : c ∈ bracketsOf text := hbrackets ▸ List.mem_cons_self
      have hnot : notBracket c = false := by simpa [bracketsOf] using (List.mem_filter.mp hmem).2
      rw [notBracket_iff.mpr hc] at hnot
      cases hnot
    | @brackets n inside rest _ _ ihinside ihrest =>
      obtain ⟨front, more, rfl, hfront, -, hmore⟩ := List.filter_eq_cons_iff.mp hbrackets
      obtain ⟨inner, behind, rfl, hinner, hbehind⟩ := List.filter_eq_append_iff.mp hmore
      obtain ⟨last, tail, rfl, hlast, -, htail⟩ := List.filter_eq_cons_iff.mp hbehind
      have hplain : ∀ {text : List Char}, (∀ c ∈ text, ¬ (!notBracket c) = true) → ∀ c ∈ text, c ∉ ['(', ')'] := by
        intro text hnone c hc
        exact notBracket_iff.mp (by simpa using hnone c hc)
      have hinside : Nested n (inner ++ last) :=
        (ihinside hinner).append (nested_of_plain (hplain hlast))
      have hclose := (Nested.brackets hinside (ihrest htail))
      have hwhole := (nested_of_plain (n := n + 1) (hplain hfront)).append hclose
      simpa using hwhole
  · intro h
    induction h with
    | nil => exact .nil
    | plain hc _ ih =>
      rw [bracketsOf, List.filter_cons_of_neg (by simp [notBracket_iff.mpr hc])]
      exact ih
    | @brackets n inside rest _ _ ihinside ihrest =>
      have htext : bracketsOf ('(' :: (inside ++ ')' :: rest)) =
          '(' :: (bracketsOf inside ++ ')' :: bracketsOf rest) := by
        simp [bracketsOf, notBracket, Class.except]
      rw [htext]
      exact .brackets ihinside ihrest

/-- Whether a pattern takes brackets with balanced ones in them. -/
def TakesBrackets (pattern : Pattern) (n : Nat) : Prop :=
  ∀ prev taken behind parts, pattern.Takes prev taken behind parts ↔
    (∃ inside, Nested n inside ∧ taken = '(' :: (inside ++ [')'])) ∧ parts = []

/-- Brackets around what a pattern takes. -/
theorem takesBrackets_of_inside {inner : Pattern}
    (h : ∀ prev taken behind parts, inner.Takes prev taken behind parts ↔ Nested n taken ∧ parts = []) :
    TakesBrackets (char '(' ++ inner ++ char ')') n := by
  intro prev taken behind parts
  constructor
  · rintro ⟨_, _, _, _, ⟨_, inside, _, _, hopen, hinside, rfl, rfl⟩, hclose, rfl, rfl⟩
    obtain ⟨rfl, rfl⟩ := (takes_char '(').mp hopen
    obtain ⟨rfl, rfl⟩ := (takes_char ')').mp hclose
    obtain ⟨hnested, rfl⟩ := (h _ _ _ _).mp hinside
    exact ⟨⟨inside, hnested, rfl⟩, rfl⟩
  · rintro ⟨⟨inside, hnested, rfl⟩, rfl⟩
    exact ⟨'(' :: inside, [')'], [], [], ⟨['('], inside, [], [], (takes_char '(').mpr ⟨rfl, rfl⟩,
      (h _ _ _ _).mpr ⟨hnested, rfl⟩, rfl, rfl⟩, (takes_char ')').mpr ⟨rfl, rfl⟩, rfl, rfl⟩

theorem nested_zero_iff : Nested 0 text ↔ ∀ c ∈ text, notBracket c = true := by
  constructor
  · intro h
    generalize hn : 0 = n at h
    induction h with
    | nil => simp
    | plain hc _ ih => exact List.forall_mem_cons.mpr ⟨notBracket_iff.mpr hc, ih hn⟩
    | brackets => cases hn
  · intro h
    induction text with
    | nil => exact .nil
    | cons c rest ih =>
      obtain ⟨hc, hrest⟩ := List.forall_mem_cons.mp h
      exact .plain (notBracket_iff.mp hc) (ih hrest)

/-- Plain characters and brackets, as many as there are, are one level more. -/
theorem takes_star_brackets {brackets : Pattern} (h : TakesBrackets brackets n) :
    (star (one notBracket <|> brackets)).Takes prev taken behind parts ↔ Nested (n + 1) taken ∧ parts = [] := by
  have hround (prev : Option Char) (taken behind : List Char) (parts : Parts) :
      (one notBracket <|> brackets).Takes prev taken behind parts ↔
        ((∃ c, c ∉ ['(', ')'] ∧ taken = [c]) ∨ ∃ inside, Nested n inside ∧ taken = '(' :: (inside ++ [')'])) ∧
          parts = [] := by
    have halt : (one notBracket <|> brackets).Takes prev taken behind parts ↔
        (one notBracket).Takes prev taken behind parts ∨ brackets.Takes prev taken behind parts := Iff.rfl
    simp only [halt, takes_one, h prev taken behind parts, notBracket_iff, or_and_right]
  constructor
  · intro hstar
    have hrounds : TakesRounds (one notBracket <|> brackets).Takes prev taken behind parts := hstar
    clear hstar
    induction hrounds with
    | none => exact ⟨.nil, rfl⟩
    | more _ _ hlast ih =>
      obtain ⟨hnested, rfl⟩ := ih
      obtain ⟨⟨c, hc, rfl⟩ | ⟨inside, hinside, rfl⟩, rfl⟩ := (hround _ _ _ _).mp hlast
      · exact ⟨hnested.append (.plain hc .nil), rfl⟩
      · exact ⟨hnested.append (.brackets hinside .nil), rfl⟩
  · rintro ⟨hnested, rfl⟩
    generalize hm : n + 1 = m at hnested
    induction hnested generalizing prev with
    | nil => exact TakesRounds.none
    | @plain _ c _ hc _ ih =>
      exact TakesRounds.head ((hround _ [c] _ []).mpr ⟨Or.inl ⟨c, hc, rfl⟩, rfl⟩) (List.cons_ne_nil _ _) (ih hm)
    | @brackets _ inside rest hinside _ _ ih =>
      obtain rfl := Nat.succ.inj hm
      have hfirst := (hround prev ('(' :: (inside ++ [')'])) (rest ++ behind) []).mpr
        ⟨Or.inr ⟨inside, hinside, rfl⟩, rfl⟩
      have htext : '(' :: (inside ++ ')' :: rest) = '(' :: (inside ++ [')']) ++ rest := by simp
      rw [htext]
      exact TakesRounds.head hfirst (List.cons_ne_nil _ _) (ih rfl)

theorem takesBrackets_brackets2 : TakesBrackets brackets2 2 := by
  have hzero : TakesBrackets brackets0 0 := takesBrackets_of_inside fun prev taken behind parts => by
    rw [nested_zero_iff]
    exact Iff.rfl
  have hone : TakesBrackets brackets1 1 := takesBrackets_of_inside fun _ _ _ _ => takes_star_brackets hzero
  exact takesBrackets_of_inside fun _ _ _ _ => takes_star_brackets hone

/-! ### Calls of a console -/

/-- A member of a console: the word, a point and a name, with blanks around the point. -/
inductive IsConsoleMember : List Char → Prop where
  | mk {blanks blanks' name : List Char} : (∀ c ∈ blanks, isBlank c = true) → (∀ c ∈ blanks', isBlank c = true) →
      Mangle.IsName name → IsConsoleMember ("console".toList ++ blanks ++ ['.'] ++ blanks' ++ name)

/-- A call of one: brackets with at most two levels of brackets in them, with blanks around them, and maybe a
semicolon. -/
inductive IsConsoleCall : List Char → Prop where
  | mk {member blanks inside blanks' last : List Char} : IsConsoleMember member → (∀ c ∈ blanks, isBlank c = true) →
      Nested 2 inside → (∀ c ∈ blanks', isBlank c = true) → last = [';'] ∨ last = [] →
      IsConsoleCall (member ++ blanks ++ ('(' :: (inside ++ [')'])) ++ blanks' ++ last)

theorem takes_consoleMember :
    (wordEdge ++ word "console" ++ run isBlank ++ char '.' ++ run isBlank ++ Mangle.identifier).Takes
        prev taken behind parts ↔ prev.any isWord = false ∧ IsConsoleMember taken ∧ parts = [] := by
  constructor
  · rintro ⟨_, name, _, _, ⟨_, blanks', _, _, ⟨_, point, _, _, ⟨_, blanks, _, _, ⟨_, _, _, _, ⟨hedge, rfl, rfl⟩,
      hword, rfl, rfl⟩, ⟨hblanks, rfl⟩, rfl, rfl⟩, hpoint, rfl, rfl⟩, ⟨hblanks', rfl⟩, rfl, rfl⟩, hname, rfl, rfl⟩
    obtain ⟨rfl, rfl⟩ := (takes_word "console").mp hword
    obtain ⟨rfl, rfl⟩ := (takes_char '.').mp hpoint
    obtain ⟨hisName, rfl⟩ := Mangle.takes_identifier.mp hname
    exact ⟨(Anchor.holdsBetween_wordEdge_before rfl).mp hedge, .mk hblanks hblanks' hisName, rfl⟩
  · rintro ⟨hprev, ⟨hblanks, hblanks', hname⟩, rfl⟩
    refine ⟨_, _, [], [], ⟨_, _, [], [], ⟨_, _, [], [], ⟨_, _, [], [], ⟨[], _, [], [], ⟨?_, rfl, rfl⟩,
      (takes_word "console").mpr ⟨rfl, rfl⟩, rfl, rfl⟩, ⟨hblanks, rfl⟩, rfl, rfl⟩, (takes_char '.').mpr ⟨rfl, rfl⟩, rfl,
      rfl⟩, ⟨hblanks', rfl⟩, rfl, rfl⟩, Mangle.takes_identifier.mpr ⟨hname, rfl⟩, rfl, rfl⟩
    exact (Anchor.holdsBetween_wordEdge_before rfl).mpr hprev

theorem takes_consoleCall : consoleCall.pattern.Takes prev taken behind parts ↔
    prev.any isWord = false ∧ IsConsoleCall taken ∧ parts = [] := by
  constructor
  · rintro ⟨_, last, _, _, ⟨_, blanks', _, _, ⟨_, brackets, _, _, ⟨member, blanks, _, _, hmember, ⟨hblanks, rfl⟩, rfl,
      rfl⟩, hbrackets, rfl, rfl⟩, ⟨hblanks', rfl⟩, rfl, rfl⟩, hlast, rfl, rfl⟩
    obtain ⟨hprev, hisMember, rfl⟩ := takes_consoleMember.mp hmember
    obtain ⟨⟨inside, hinside, rfl⟩, rfl⟩ := (takesBrackets_brackets2 _ _ _ _).mp hbrackets
    obtain ⟨hend, rfl⟩ := (takes_optional_char ';').mp hlast
    exact ⟨hprev, .mk hisMember hblanks hinside hblanks' hend, rfl⟩
  · rintro ⟨hprev, ⟨hmember, hblanks, hinside, hblanks', hlast⟩, rfl⟩
    exact ⟨_, _, [], [], ⟨_, _, [], [], ⟨_, _, [], [], ⟨_, _, [], [], takes_consoleMember.mpr ⟨hprev, hmember, rfl⟩,
      ⟨hblanks, rfl⟩, rfl, rfl⟩, (takesBrackets_brackets2 _ _ _ _).mpr ⟨⟨_, hinside, rfl⟩, rfl⟩, rfl, rfl⟩,
      ⟨hblanks', rfl⟩, rfl, rfl⟩, (takes_optional_char ';').mpr ⟨hlast, rfl⟩, rfl, rfl⟩

/-! ### Debugger statements -/

/-- What goes with the word of a debugger statement: the blanks behind it, and a semicolon behind these. -/
def statementEnd (rest : List Char) : List Char :=
  rest.takeWhile isBlank ++ if (rest.dropWhile isBlank).head? = some ';' then [';'] else []

theorem statementEnd_prefix (rest : List Char) : statementEnd rest <+: rest := by
  rw [statementEnd]
  split
  · rename_i hsemicolon
    obtain ⟨more, hmore⟩ := List.head?_eq_some_iff.mp hsemicolon
    refine ⟨more, ?_⟩
    rw [List.append_assoc, List.singleton_append, ← hmore, List.takeWhile_append_dropWhile]
  · rw [List.append_nil]
    exact List.takeWhile_prefix isBlank

/-- The rule for debugger statements finds its word where no word character stands on either side. -/
theorem exists_debuggerStatement_matchAt (hprev : prev.any isWord = false) (hrest : rest.head?.any isWord = false)
    (index : Nat) : ∃ found, debuggerStatement.pattern.matchAt index prev ("debugger".toList ++ rest) = some found ∧
      found.text = "debugger".toList ++ statementEnd rest := by
  let start : Spot := ⟨index, prev, "debugger".toList ++ rest, []⟩
  let spelled : Spot := start.after "debugger".toList rest
  have hwalk : debuggerStatement.pattern.walk start some =
      if Anchor.wordEdge.holds start then
        (word "debugger").walk start fun stop =>
          if Anchor.wordEdge.holds stop then
            (run isBlank).walk stop fun stop => (optional (char ';')).walk stop some
          else none
      else none := rfl
  have hbegins : Anchor.wordEdge.holds start = true :=
    (Anchor.holds_iff _ _).mpr ((Anchor.holdsBetween_wordEdge_before rfl).mpr hprev)
  have hends : Anchor.wordEdge.holds spelled = true :=
    (Anchor.holds_iff _ _).mpr ((Anchor.holdsBetween_wordEdge_behind rfl).mpr hrest)
  have hblanks : (run isBlank).walk spelled (fun stop => (optional (char ';')).walk stop some) =
      (optional (char ';')).walk (spelled.behind isBlank) some :=
    walk_run_of_isSome (by rw [walk_optional_char]; rfl)
  rw [if_pos hbegins, walk_word "debugger" start _ rfl, if_pos hends, hblanks, walk_optional_char] at hwalk
  obtain ⟨behind, hbehind⟩ := statementEnd_prefix rest
  have htext : "debugger".toList ++ rest = "debugger".toList ++ statementEnd rest ++ behind := by
    rw [List.append_assoc, hbehind]
  refine exists_matchAt_of_walk hwalk htext ?_
  have hspelled : (spelled.behind isBlank).rest = rest.dropWhile isBlank := rfl
  have hindex : (spelled.behind isBlank).index =
      index + "debugger".toList.length + (rest.takeWhile isBlank).length := rfl
  rw [hspelled, statementEnd]
  split
  · rw [Spot.after_index, hindex]
    simp only [List.length_append, List.length_singleton]
    omega
  · rw [hindex]
    simp only [List.length_append, List.length_nil]
    omega

/-- It finds nothing else. -/
theorem exists_of_debuggerStatement_matchAt {index : Nat} {found : Match}
    (h : debuggerStatement.pattern.matchAt index prev text = some found) :
    ∃ rest, text = "debugger".toList ++ rest ∧ prev.any isWord = false ∧ rest.head?.any isWord = false ∧
      found.text = "debugger".toList ++ statementEnd rest := by
  obtain ⟨behind, _, htext, htakes, -⟩ := Match.exists_takes h
  obtain ⟨_, last, _, _, ⟨_, blanks, _, _, ⟨_, _, _, _, ⟨_, _, _, _, ⟨hbegins, rfl, rfl⟩, hword, rfl, rfl⟩,
    ⟨hends, rfl, rfl⟩, rfl, rfl⟩, ⟨-, rfl⟩, rfl, rfl⟩, -, hfound, -⟩ := htakes
  obtain ⟨rfl, rfl⟩ := (takes_word "debugger").mp hword
  have hprev := (Anchor.holdsBetween_wordEdge_before rfl).mp hbegins
  have hrest := (Anchor.holdsBetween_wordEdge_behind rfl).mp hends
  obtain rfl : text = "debugger".toList ++ (blanks ++ (last ++ behind)) := by
    rw [htext, hfound]
    simp
  obtain ⟨found', hfound', hfoundText⟩ := exists_debuggerStatement_matchAt hprev hrest index
  obtain rfl := Option.some.inj (h.symm.trans hfound')
  exact ⟨_, rfl, hprev, hrest, hfoundText⟩

/-- Only the first character of a debugger statement is a d. -/
theorem not_mem_tail_debuggerStatement {index : Nat} {found : Match}
    (h : debuggerStatement.pattern.matchAt index prev text = some found) : 'd' ∉ found.text.tail := by
  obtain ⟨rest, -, -, -, htext⟩ := exists_of_debuggerStatement_matchAt h
  have hword : "debugger".toList = 'd' :: "ebugger".toList := rfl
  have hspelled : 'd' ∉ "ebugger".toList := by decide
  have hblank : 'd' ∉ rest.takeWhile isBlank := fun hmem =>
    absurd (List.all_eq_true.mp List.all_takeWhile 'd' hmem) (by decide)
  rw [htext, hword, List.cons_append, List.tail_cons, List.mem_append, statementEnd, List.mem_append]
  rintro (hmem | hmem | hmem)
  · exact hspelled hmem
  · exact hblank hmem
  · split at hmem
    · exact absurd hmem (by decide)
    · exact absurd hmem List.not_mem_nil

/-! ### Deletions -/

/-- A word between places where no word character stands is a whole name, if no dollar sign stands there either. -/
theorem isWhole_iff {word : List Char} (hword : Mangle.IsName word) (hbefore : before.getLast?.any isWord = false)
    (hrest : rest.head?.any isWord = false) :
    Mangle.IsWhole word before rest ↔ before.getLast? ≠ some '$' ∧ rest.head? ≠ some '$' := by
  have hpart {c? : Option Char} (hc : c?.any isWord = false) : c?.any Class.namePart = false ↔ c? ≠ some '$' := by
    cases c? with
    | none => simp
    | some c =>
      have hnot : isWord c = false := hc
      simp [Class.namePart, hnot]
  exact ⟨fun h => ⟨(hpart hbefore).mp h.before, (hpart hrest).mp h.behind⟩,
    fun h => ⟨hword, (hpart hbefore).mpr h.1, (hpart hrest).mpr h.2⟩⟩

theorem isConsoleCall_of_deletes (h : consoleCall.Deletes text before deleted behind) :
    text = before ++ (deleted ++ behind) ∧ before.getLast?.any isWord = false ∧ IsConsoleCall deleted := by
  obtain ⟨htext, _, found, hfound, rfl⟩ := h.exists_matchAt
  obtain ⟨_, _, -, htakes, -⟩ := Match.exists_takes hfound
  obtain ⟨hbefore, hcall, -⟩ := takes_consoleCall.mp htakes
  exact ⟨htext, hbefore, hcall⟩

/-- Every call of a console is deleted, or begins in one that is. -/
theorem IsConsoleCall.exists_deletes {call : List Char} (h : IsConsoleCall call)
    (hbefore : before.getLast?.any isWord = false) (htext : text = before ++ (call ++ behind)) :
    ∃ before' deleted behind', consoleCall.Deletes text before' deleted behind' ∧
      before'.length ≤ before.length ∧ before.length < (before' ++ deleted).length := by
  have hsome : (consoleCall.pattern.matchAt (0 + before.length) (before.getLast?.or none) (call ++ behind)).isSome =
      true := matchAt_isSome_iff.mpr ⟨call, behind, [], rfl, takes_consoleCall.mpr ⟨by simpa using hbefore, h, rfl⟩⟩
  obtain ⟨found, hfound⟩ := Option.isSome_iff_exists.mp hsome
  have hne : found.text ≠ [] := ne_nil_of_matchAt (by decide) hfound
  obtain ⟨done, other, todo, hsegments, hle, hlt⟩ :=
    (segments_segmented consoleCall.pattern text).exists_over htext hfound hne
  exact ⟨_, _, _, ⟨done, other, todo, hsegments, rfl, rfl, rfl, rfl⟩, hle, hlt⟩

theorem exists_of_deletes_debuggerStatement (h : debuggerStatement.Deletes text before deleted behind) :
    ∃ rest, text = before ++ ("debugger".toList ++ rest) ∧ before.getLast?.any isWord = false ∧
      rest.head?.any isWord = false ∧ deleted = "debugger".toList ++ statementEnd rest ∧
      rest = statementEnd rest ++ behind := by
  obtain ⟨htext, _, found, hfound, rfl⟩ := h.exists_matchAt
  obtain ⟨rest, hrest, hbefore, hbehind, hdeleted⟩ := exists_of_debuggerStatement_matchAt hfound
  refine ⟨rest, hrest ▸ htext, hbefore, hbehind, hdeleted, ?_⟩
  rw [hdeleted, List.append_assoc] at hrest
  exact (List.append_cancel_left hrest).symm

/-- The word of a debugger statement begins in no other one, so it is found wherever it stands. -/
theorem deletes_debuggerStatement (htext : text = before ++ ("debugger".toList ++ rest))
    (hbefore : before.getLast?.any isWord = false) (hrest : rest.head?.any isWord = false)
    (hbehind : rest = statementEnd rest ++ behind) :
    debuggerStatement.Deletes text before ("debugger".toList ++ statementEnd rest) behind := by
  have hprev : (before.getLast?.or none).any isWord = false := by simpa using hbefore
  obtain ⟨found, hfound, -⟩ := exists_debuggerStatement_matchAt hprev hrest (0 + before.length)
  have hne : found.text ≠ [] := ne_nil_of_matchAt (by decide) hfound
  have hword : "debugger".toList ++ rest = 'd' :: ("ebugger".toList ++ rest) := rfl
  rw [hword] at hfound htext
  obtain ⟨done, other, todo, hsegments, hdone⟩ := (segments_segmented debuggerStatement.pattern text).exists_hit htext
    hfound hne fun _ _ _ _ => not_mem_tail_debuggerStatement
  have hdeletes : debuggerStatement.Deletes text before other.text (todo.flatMap Segment.text) :=
    ⟨done, other, todo, hsegments, rfl, hdone, rfl, rfl⟩
  -- Two statements that begin at one place are the same.
  obtain ⟨rest', htext', -, -, hother, hrest'⟩ := exists_of_deletes_debuggerStatement hdeletes
  rw [← hword, htext'] at htext
  obtain rfl : rest' = rest := List.append_cancel_left (List.append_cancel_left htext)
  obtain rfl := List.append_cancel_left (hrest'.symm.trans hbehind)
  rw [← hother]
  exact hdeletes

/-- A call of a console is deleted only where no word character stands before it, and where it stands so, it is deleted
or begins in a call that is. A debugger statement is deleted exactly where no word character stands on either side of
its word, with the blanks behind it and a semicolon behind these. So the word is a name of its own unless a dollar sign
stands beside it; and whether it is the name of a member or the key of an object makes no difference. -/
theorem debug_deletions (text : List Char) :
    (∀ before deleted behind, consoleCall.Deletes text before deleted behind →
        text = before ++ (deleted ++ behind) ∧ before.getLast?.any isWord = false ∧ IsConsoleCall deleted) ∧
      (∀ before call behind, text = before ++ (call ++ behind) → before.getLast?.any isWord = false →
        IsConsoleCall call → ∃ before' deleted behind', consoleCall.Deletes text before' deleted behind' ∧
          before'.length ≤ before.length ∧ before.length < (before' ++ deleted).length) ∧
      (∀ before deleted behind, debuggerStatement.Deletes text before deleted behind ↔
        ∃ rest, text = before ++ ("debugger".toList ++ rest) ∧ before.getLast?.any isWord = false ∧
          rest.head?.any isWord = false ∧ deleted = "debugger".toList ++ statementEnd rest ∧
          rest = statementEnd rest ++ behind) ∧
      ∀ word ∈ ["console", "debugger"], ∀ before rest, before.getLast?.any isWord = false →
        rest.head?.any isWord = false →
          (Mangle.IsWhole word.toList before rest ↔ before.getLast? ≠ some '$' ∧ rest.head? ≠ some '$') := by
  refine ⟨fun _ _ _ => isConsoleCall_of_deletes, ?_, fun before deleted behind => ⟨?_, ?_⟩, ?_⟩
  · intro before call behind htext hbefore hcall
    exact hcall.exists_deletes hbefore htext
  · exact exists_of_deletes_debuggerStatement
  · rintro ⟨rest, htext, hbefore, hrest, rfl, hbehind⟩
    exact deletes_debuggerStatement htext hbefore hrest hbehind
  · intro word hword before rest
    have hnames : ∀ word ∈ ["console", "debugger"], Mangle.IsName word.toList := by decide
    exact isWhole_iff (hnames word hword)

/-- The options under which calls of a console go as well. -/
def withoutCalls : Options where
  removeConsoleLog := true

/-- A member's name, the end of a name and the key of an object are deleted like statements and calls. -/
theorem debug_deletions_names :
    (minifyScript "cfg.debugger;\nnext();" {}).minified = "cfg.\nnext();" ∧
      (minifyScript "x = $debugger;" {}).minified = "x=$" ∧
      (minifyScript "x = \x7bdebugger: 1\x7d;" {}).minified = "x=\x7b:1\x7d;" ∧
      (minifyScript "window.console.log(x);\nnext();" withoutCalls).minified = "window.\nnext();" ∧
      (minifyScript "$console.log(x);\nnext();" withoutCalls).minified = "$\nnext();" := by
  decide +kernel

end Script

end Minifier
