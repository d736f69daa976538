import Minifier.Proofs.Mangle.Declarations
import Minifier.Proofs.Minify.LineBreaks
import Minifier.Proofs.Minify.Stages
import Minifier.Proofs.Rule.Lines
import Minifier.Proofs.Script.Calls
import Minifier.Proofs.Script.EmptyBodies

/-!
What the rules for the blanks of a script keep apart. They drop blanks and exchange them, but never bring two characters
of a name together; and semicolons go before closing braces only. So a text before such rules is the text behind them
with blanks and semicolons put in, and a word or a call that is found behind them was there before.
-/

namespace Minifier.Script

open Pattern Text

variable {prev : Option Char} {c : Char} {new old rest first second blanks word before head inside behind : List Char}

/-- The second text is the first one, which stands behind a character or none, with blanks exchanged, blanks put in, but
not inside a name, and semicolons put in before closing braces. -/
inductive Loosens : Option Char → List Char → List Char → Prop where
  | nil {prev : Option Char} : Loosens prev [] []
  | keep {prev : Option Char} {c : Char} {new old : List Char} : Loosens (some c) new old →
      Loosens prev (c :: new) (c :: old)
  | exchange {prev : Option Char} {c d : Char} {new old : List Char} : isBlank c = true → isBlank d = true →
      Loosens (some c) new old → Loosens prev (c :: new) (d :: old)
  | blank {prev : Option Char} {d : Char} {new old : List Char} : isBlank d = true →
      prev.any Class.namePart = false ∨ new.head?.any Class.namePart = false → Loosens prev new old →
      Loosens prev new (d :: old)
  | mark {prev : Option Char} {new old : List Char} : Loosens prev ('\x7d' :: new) old →
      Loosens prev ('\x7d' :: new) (';' :: old)

namespace Loosens

theorem refl (prev : Option Char) (text : List Char) : Loosens prev text text := by
  induction text generalizing prev with
  | nil => exact .nil
  | cons c rest ih => exact .keep (ih (some c))

/-- Blanks put in. -/
theorem gap (hblanks : ∀ c ∈ blanks, isBlank c = true)
    (hapart : prev.any Class.namePart = false ∨ new.head?.any Class.namePart = false) (h : Loosens prev new old) :
    Loosens prev new (blanks ++ old) := by
  induction blanks with
  | nil => exact h
  | cons d blanks ih =>
    obtain ⟨hd, hrest⟩ := List.forall_mem_cons.mp hblanks
    exact .blank hd hapart (ih hrest)

/-- A blank in the place of some. -/
theorem run (hc : isBlank c = true) (hblanks : ∀ d ∈ blanks, isBlank d = true) (hne : blanks ≠ [])
    (h : Loosens (some c) new old) : Loosens prev (c :: new) (blanks ++ old) := by
  obtain ⟨d, blanks, rfl⟩ := List.exists_cons_of_ne_nil hne
  obtain ⟨hd, hrest⟩ := List.forall_mem_cons.mp hblanks
  exact .exchange hc hd (.gap hrest (Or.inl (Mangle.namePart_of_isBlank hc)) h)

/-- Blanks around a character that is in no name. -/
theorem around (hc : Class.namePart c = false) {blanks' : List Char} (hblanks : ∀ d ∈ blanks, isBlank d = true)
    (hblanks' : ∀ d ∈ blanks', isBlank d = true) (h : Loosens (some c) new old) :
    Loosens prev (c :: new) (blanks ++ c :: (blanks' ++ old)) :=
  .gap hblanks (Or.inr hc) (.keep (.gap hblanks' (Or.inl hc) h))

/-- Semicolons and blanks before a closing brace. -/
theorem marks {marks : List Char} (hmarks : ∀ d ∈ marks, d = ';') (hblanks : ∀ d ∈ blanks, isBlank d = true)
    (h : Loosens (some '\x7d') new old) : Loosens prev ('\x7d' :: new) (marks ++ (blanks ++ '\x7d' :: old)) := by
  induction marks with
  | nil =>
    rw [List.nil_append]
    exact .gap hblanks (Or.inr rfl) (.keep h)
  | cons d marks ih =>
    obtain ⟨rfl, hrest⟩ := List.forall_mem_cons.mp hmarks
    exact .mark (ih hrest)

/-- Texts are loosened piece by piece, and what is put in between goes to the second one. -/
theorem exists_of_append (h : Loosens prev (first ++ second) old) :
    ∃ old' old'', old = old' ++ old'' ∧ Loosens prev first old' ∧ Loosens (first.getLast?.or prev) second old'' := by
  generalize htext : first ++ second = new at h
  induction h generalizing first with
  | nil =>
    obtain ⟨rfl, rfl⟩ := List.append_eq_nil_iff.mp htext
    exact ⟨[], [], rfl, .nil, .nil⟩
  | @keep prev c new old hrest ih =>
    cases first with
    | nil =>
      obtain rfl : second = c :: new := htext
      exact ⟨[], _, rfl, .nil, .keep hrest⟩
    | cons d first =>
      obtain ⟨rfl, rfl⟩ := List.cons.inj htext
      obtain ⟨old', old'', rfl, hfirst, hsecond⟩ := ih rfl
      exact ⟨d :: old', old'', rfl, .keep hfirst, by rwa [getLast?_cons_or]⟩
  | @exchange prev c d new old hc hd hrest ih =>
    cases first with
    | nil =>
      obtain rfl : second = c :: new := htext
      exact ⟨[], _, rfl, .nil, .exchange hc hd hrest⟩
    | cons e first =>
      obtain ⟨rfl, rfl⟩ := List.cons.inj htext
      obtain ⟨old', old'', rfl, hfirst, hsecond⟩ := ih rfl
      exact ⟨d :: old', old'', rfl, .exchange hc hd hfirst, by rwa [getLast?_cons_or]⟩
  | @blank prev d new old hd hapart hrest ih =>
    cases first with
    | nil =>
      obtain rfl : second = new := htext
      exact ⟨[], _, rfl, .nil, .blank hd hapart hrest⟩
    | cons e first =>
      obtain ⟨old', old'', rfl, hfirst, hsecond⟩ := ih htext
      rw [← htext] at hapart
      exact ⟨d :: old', old'', rfl, .blank hd hapart hfirst, hsecond⟩
  | @mark prev new old hrest ih =>
    cases first with
    | nil =>
      obtain rfl : second = '\x7d' :: new := htext
      exact ⟨[], _, rfl, .nil, .mark hrest⟩
    | cons e first =>
      obtain ⟨old', old'', rfl, hfirst, hsecond⟩ := ih htext
      obtain ⟨rfl, -⟩ := List.cons.inj htext
      exact ⟨';' :: old', old'', rfl, .mark hfirst, hsecond⟩

/-- Only blanks come in before a character. -/
theorem exists_of_blanks (h : Loosens prev (blanks ++ c :: rest) old) (hblanks : ∀ d ∈ blanks, isBlank d = true)
    (hc : isBlank c = false) (hbrace : c ≠ '\x7d') :
    ∃ blanks' rest', old = blanks' ++ c :: rest' ∧ (∀ d ∈ blanks', isBlank d = true) ∧ Loosens (some c) rest rest' := by
  generalize htext : blanks ++ c :: rest = new at h
  induction h generalizing blanks with
  | nil => simp at htext
  | @keep prev d new old hrest ih =>
    cases blanks with
    | nil =>
      obtain ⟨rfl, rfl⟩ := List.cons.inj htext
      exact ⟨[], old, rfl, List.forall_mem_nil _, hrest⟩
    | cons e blanks =>
      obtain ⟨rfl, rfl⟩ := List.cons.inj htext
      obtain ⟨he, hblanks⟩ := List.forall_mem_cons.mp hblanks
      obtain ⟨blanks', rest', rfl, hblanks', hrest'⟩ := ih hblanks rfl
      exact ⟨e :: blanks', rest', rfl, List.forall_mem_cons.mpr ⟨he, hblanks'⟩, hrest'⟩
  | @exchange prev d d' new old hd hd' hrest ih =>
    cases blanks with
    | nil =>
      obtain ⟨rfl, rfl⟩ := List.cons.inj htext
      exact absurd hd (Bool.eq_false_iff.mp hc)
    | cons e blanks =>
      obtain ⟨rfl, rfl⟩ := List.cons.inj htext
      obtain ⟨blanks', rest', rfl, hblanks', hrest'⟩ := ih (List.forall_mem_cons.mp hblanks).2 rfl
      exact ⟨d' :: blanks', rest', rfl, List.forall_mem_cons.mpr ⟨hd', hblanks'⟩, hrest'⟩
  | @blank prev d new old hd _ _ ih =>
    obtain ⟨blanks', rest', rfl, hblanks', hrest'⟩ := ih hblanks htext
    exact ⟨d :: blanks', rest', rfl, List.forall_mem_cons.mpr ⟨hd, hblanks'⟩, hrest'⟩
  | @mark prev new old _ _ =>
    cases blanks with
    | nil => exact absurd (List.cons.inj htext).1 hbrace
    | cons e blanks =>
      obtain ⟨rfl, -⟩ := List.cons.inj htext
      exact absurd (hblanks _ List.mem_cons_self) (by decide)

/-- Nothing comes in inside a name. -/
theorem exists_of_word (h : Loosens prev (word ++ rest) old) (hword : ∀ c ∈ word, Class.namePart c = true)
    (hprev : prev.any Class.namePart = true) :
    ∃ rest', old = word ++ rest' ∧ Loosens (word.getLast?.or prev) rest rest' := by
  induction word generalizing prev old with
  | nil => exact ⟨old, rfl, h⟩
  | cons c word ih =>
    obtain ⟨hc, hrest⟩ := List.forall_mem_cons.mp hword
    cases h with
    | keep h =>
      obtain ⟨rest', rfl, hrest'⟩ := ih h hrest hc
      exact ⟨rest', rfl, by rwa [getLast?_cons_or]⟩
    | exchange hblank _ _ =>
      rw [Mangle.namePart_of_isBlank hblank] at hc
      cases hc
    | blank _ hapart _ =>
      rw [hprev] at hapart
      rcases hapart with hfalse | hfalse
      · cases hfalse
      · exact absurd hc (Bool.eq_false_iff.mp hfalse)
    | mark _ => exact absurd hc (by decide)

theorem bracketsOf_eq (h : Loosens prev new old) : bracketsOf new = bracketsOf old := by
  have hkeep : ∀ (c : Char) {new old : List Char}, bracketsOf new = bracketsOf old →
      bracketsOf (c :: new) = bracketsOf (c :: old) := fun c new old heq => by
    rw [← List.singleton_append, bracketsOf_append, heq, ← bracketsOf_append, List.singleton_append]
  have hdrop : ∀ {c : Char}, isBlank c = true ∨ c = ';' → ∀ text, bracketsOf (c :: text) = bracketsOf text := by
    intro c hc text
    have hplain : ∀ d ∈ [c], d ∉ ['(', ')'] :=
      not_bracket_of_forall (fun d => isBlank d || d == ';') rfl (by simpa using hc)
    rw [← List.singleton_append, bracketsOf_append, bracketsOf_eq_nil_iff.mpr hplain, List.nil_append]
  induction h with
  | nil => rfl
  | keep _ ih => exact hkeep _ ih
  | exchange hc hd _ ih => rw [hdrop (Or.inl hc), hdrop (Or.inl hd), ih]
  | blank hd _ _ ih => rw [hdrop (Or.inl hd), ih]
  | mark _ ih => rw [ih, hdrop (Or.inr rfl)]

/-- Where no word goes on behind the first text, none goes on behind the second one. -/
theorem any_getLast? (h : Loosens prev new old) (front : Option Char)
    (hlast : (new.getLast?.or front).any isWord = false) : (old.getLast?.or front).any isWord = false := by
  have hor : ∀ {text : List Char} {front front' : Option Char}, (text.getLast?.or front).any isWord = false →
      front'.any isWord = false → (text.getLast?.or front').any isWord = false := by
    intro text front front' h h'
    cases hlast : text.getLast? with
    | none => exact h'
    | some d => rwa [hlast] at h
  induction h generalizing front with
  | nil => exact hlast
  | keep _ ih =>
    rw [getLast?_cons_or] at hlast ⊢
    exact ih _ hlast
  | exchange hc hd _ ih =>
    rw [getLast?_cons_or] at hlast ⊢
    exact hor (ih _ hlast) (isWord_of_isBlank hd)
  | blank hd _ _ ih =>
    rw [getLast?_cons_or]
    exact hor (ih _ hlast) (isWord_of_isBlank hd)
  | mark _ ih =>
    rw [getLast?_cons_or]
    exact hor (ih _ hlast) rfl

theorem any_head? (h : Loosens prev new old) (hhead : new.head?.any isWord = false) : old.head?.any isWord = false := by
  cases h with
  | nil => rfl
  | keep _ => exact hhead
  | exchange _ hd _ => exact isWord_of_isBlank hd
  | blank hd _ _ => exact isWord_of_isBlank hd
  | mark _ => rfl

/-- A word that begins with no blank is found behind blanks. -/
theorem exists_of_name (h : Loosens prev (blanks ++ (word ++ rest)) old) (hblanks : ∀ d ∈ blanks, isBlank d = true)
    (hword : ∀ c ∈ word, Class.namePart c = true) (hne : word ≠ []) :
    ∃ blanks' rest' last, old = blanks' ++ (word ++ rest') ∧ (∀ d ∈ blanks', isBlank d = true) ∧
      Loosens last rest rest' := by
  obtain ⟨c, word, rfl⟩ := List.exists_cons_of_ne_nil hne
  obtain ⟨hc, hpart⟩ := List.forall_mem_cons.mp hword
  have hblank : isBlank c = false := Bool.eq_false_iff.mpr fun hblank =>
    absurd hc (Bool.eq_false_iff.mp (Mangle.namePart_of_isBlank hblank))
  have hbrace : c ≠ '\x7d' := by
    rintro rfl
    cases hc
  obtain ⟨blanks', rest', rfl, hblanks', hrest⟩ := h.exists_of_blanks hblanks hblank hbrace
  obtain ⟨rest'', rfl, hrest''⟩ := hrest.exists_of_word hpart (by exact hc)
  exact ⟨blanks', rest'', _, rfl, hblanks', hrest''⟩

end Loosens

/-! ### Words and calls -/

/-- With blanks put in behind it, a text still ends with no word. -/
theorem any_getLast?_append_blanks (hbefore : before.getLast?.any isWord = false)
    (hblanks : ∀ d ∈ blanks, isBlank d = true) : (before ++ blanks).getLast?.any isWord = false := by
  by_cases hnil : blanks = []
  · rwa [hnil, List.append_nil]
  · exact any_getLast?_append hnil fun d hd => isWord_of_isBlank (hblanks d hd)

/-- A word that is there with other blanks was there before. -/
theorem HoldsWord.of_loosens (h : HoldsWord word new) (hword : ∀ c ∈ word, Class.namePart c = true) (hne : word ≠ [])
    (hloosens : Loosens none new old) : HoldsWord word old := by
  obtain ⟨before, behind, rfl, hbefore, hbehind⟩ := h
  obtain ⟨before', rest, rfl, hfirst, hrest⟩ := hloosens.exists_of_append
  obtain ⟨blanks, behind', _, rfl, hblanks, hlast⟩ :=
    @Loosens.exists_of_name _ _ behind [] word hrest (List.forall_mem_nil _) hword hne
  have hbefore' : before'.getLast?.any isWord = false := by
    simpa using hfirst.any_getLast? none (by simpa using hbefore)
  exact ⟨before' ++ blanks, behind', by simp, any_getLast?_append_blanks hbefore' hblanks, hlast.any_head? hbehind⟩

/-- So was the head of a call. -/
theorem IsCallHead.exists_of_loosens (h : IsCallHead head) (hloosens : Loosens prev (head ++ '(' :: rest) old) :
    ∃ blanks head' rest', old = blanks ++ (head' ++ '(' :: rest') ∧ (∀ c ∈ blanks, isBlank c = true) ∧
      IsCallHead head' ∧ Loosens (some '(') rest rest' := by
  obtain ⟨@⟨first, second, name, hfirst, hsecond, hname⟩, hgap⟩ := h
  simp only [List.append_assoc, List.singleton_append] at hloosens
  obtain ⟨blanks, _, _, rfl, hblanks, hconsole⟩ := @Loosens.exists_of_name _ _ _ [] "console".toList hloosens
    (List.forall_mem_nil _) (List.all_eq_true.mp rfl) (by decide)
  obtain ⟨first', _, rfl, hfirst', hpoint⟩ := hconsole.exists_of_blanks hfirst (by decide) (by decide)
  obtain ⟨second', _, _, rfl, hsecond', hnamed⟩ := hpoint.exists_of_name hsecond hname.namePart hname.ne_nil
  obtain ⟨gap', rest', rfl, hgap', hrest⟩ := hnamed.exists_of_blanks hgap (by decide) (by decide)
  exact ⟨blanks, _, rest', by simp, hblanks, .mk (.mk hfirst' hsecond' hname) hgap', hrest⟩

/-- So was a call. -/
theorem HoldsCall.of_loosens (h : HoldsCall new) (hloosens : Loosens none new old) : HoldsCall old := by
  obtain ⟨before, head, inside, behind, rfl, hbefore, hhead, hinside⟩ := h
  obtain ⟨before', rest, rfl, hfirst, hrest⟩ := hloosens.exists_of_append
  obtain ⟨blanks, head', rest', rfl, hblanks, hhead', hbrackets⟩ := hhead.exists_of_loosens hrest
  obtain ⟨inside', rest'', rfl, hinner, hclose⟩ := hbrackets.exists_of_append
  obtain ⟨blanks', behind', rfl, hblanks', -⟩ :=
    @Loosens.exists_of_blanks _ _ _ _ [] hclose (List.forall_mem_nil _) (by decide) (by decide)
  have hbefore' : before'.getLast?.any isWord = false := by
    simpa using hfirst.any_getLast? none (by simpa using hbefore)
  exact ⟨before' ++ blanks, head', inside' ++ blanks', behind', by simp, any_getLast?_append_blanks hbefore' hblanks,
    hhead', (hinside.congr hinner.bracketsOf_eq).append (.of_forall isBlank rfl hblanks')⟩

/-! ### Rules -/

/-- Whether a rule only takes away or exchanges what may be put in. -/
def Tightens (rule : Rule) : Prop := ∀ text, Loosens none (rule.apply text) text

theorem Loosens.of_rewrites {pattern : Pattern} {replace : List Char → List Char}
    (hswap : ∀ prev taken behind parts, pattern.Takes prev taken behind parts → ∀ prev new old,
      (∀ prev, Loosens prev new old) → Loosens prev (replace taken ++ new) (taken ++ old))
    (h : pattern.Rewrites replace prev old new) (front : Option Char) : Loosens front new old := by
  induction h generalizing front with
  | nil => exact .nil
  | plain _ _ ih => exact .keep (ih _)
  | hit htaken htext _ _ ih =>
    obtain ⟨_, _, -, htakes⟩ := exists_takes_of_taken? htaken
    rw [htext]
    exact hswap _ _ _ _ htakes front _ _ ih

/-- It is enough to look at what a match gives way to. -/
theorem Tightens.of_puts {rule : Rule} {replace : List Char → List Char} (hputs : rule.Puts replace) (c : Char)
    (hc : rule.pattern.avoids c = true)
    (hswap : ∀ prev taken behind parts, rule.pattern.Takes prev taken behind parts → ∀ prev new old,
      (∀ prev, Loosens prev new old) → Loosens prev (replace taken ++ new) (taken ++ old)) : Tightens rule :=
  fun text => .of_rewrites hswap (hputs.rewrites_apply hc text) none

theorem tightens_newlineRuns : Tightens newlineRuns := by
  refine .of_puts puts_newlineRuns 'x' (by decide) fun _ _ _ _ htakes _ _ _ hrest => ?_
  obtain ⟨_, after, _, _, ⟨before, _, _, _, ⟨hbefore, rfl⟩, hbreak, rfl, rfl⟩, ⟨hafter, rfl⟩, rfl, -⟩ := htakes
  obtain ⟨rfl, -⟩ := (takes_char '\n').mp hbreak
  have hblank : ∀ c ∈ before ++ ['\n'] ++ after, isBlank c = true := by
    simp only [List.forall_mem_append]
    exact ⟨⟨fun c hc => Class.isBlank_of_among rfl (hbefore c hc), List.all_eq_true.mp rfl⟩, hafter⟩
  exact .run rfl hblank (by simp) (hrest _)

theorem tightens_collapseHorizontal : Tightens Spacing.collapseHorizontal := by
  refine .of_puts Spacing.puts_collapseHorizontal 'x' (by decide) fun _ _ _ _ htakes _ _ _ hrest => ?_
  obtain ⟨hne, hall, -⟩ := (takes_run1 _).mp htakes
  exact .run rfl (fun c hc => Class.isBlank_of_among rfl (hall c hc)) hne (hrest _)

theorem tightens_around {name : String} {accepts : Char → Bool} (haccepts : ∀ c, accepts c = true → isBlank c = true) :
    Tightens (.keepPart name (run accepts ++ part 1 (oneOf punctuationMarks) ++ run accepts)) := by
  have havoids : (run accepts ++ part 1 (oneOf punctuationMarks) ++ run accepts).avoids 'x' = true := by
    have hx : accepts 'x' = false := Bool.eq_false_iff.mpr fun h => absurd (haccepts _ h) (by decide)
    have hmarks : (run accepts ++ part 1 (oneOf punctuationMarks) ++ run accepts).avoids 'x' =
        (!accepts 'x' && !punctuationMarks.contains 'x' && !accepts 'x') := rfl
    rw [hmarks, hx]
    rfl
  refine .of_puts (puts_around haccepts) 'x' havoids fun _ _ _ _ htakes _ _ _ hrest => ?_
  obtain ⟨before, mark, after, rfl, hmark, hbefore, hafter, -⟩ := exists_of_takes_around haccepts htakes
  have hpart : Class.namePart mark = false := by
    simpa using List.any_eq_false.mp (rfl : punctuationMarks.any Class.namePart = false) mark hmark
  rw [marksOf_eq_singleton hbefore hmark hafter, List.append_assoc, List.cons_append]
  exact .around hpart hbefore hafter (hrest _)

theorem tightens_semicolonBrace : Tightens semicolonBrace := by
  refine .of_puts puts_semicolonBrace 'x' (by decide) fun _ _ _ _ htakes _ _ _ hrest => ?_
  obtain ⟨-, hmarks, hblanks⟩ := isMarkedBrace_of_takes htakes
  rw [List.append_assoc, List.append_assoc]
  exact .marks hmarks hblanks (hrest _)

/-! ### Lines -/

/-- A text between the blanks that go from its ends. -/
theorem exists_dropTail_dropWhile (accepts accepts' : Char → Bool) (text : List Char) :
    ∃ before after, text = before ++ (dropTail accepts' (text.dropWhile accepts) ++ after) ∧
      (∀ c ∈ before, accepts c = true) ∧ ∀ c ∈ after, accepts' c = true := by
  refine ⟨text.takeWhile accepts, (text.dropWhile accepts).rtakeWhile accepts', ?_,
    List.all_eq_true.mp List.all_takeWhile, fun c hc => List.mem_rtakeWhile_imp hc⟩
  rw [dropTail_eq_rdropWhile, List.rdropWhile_append_rtakeWhile, List.takeWhile_append_dropWhile]

theorem Loosens.append_left (h : Loosens (first.getLast?.or prev) new old) :
    Loosens prev (first ++ new) (first ++ old) := by
  induction first generalizing prev with
  | nil => exact h
  | cons c first ih =>
    rw [getLast?_cons_or] at h
    exact .keep (ih h)

/-- Blanks put in at both ends of a text. -/
theorem Loosens.ends {accepts accepts' : Char → Bool} (haccepts : ∀ c, accepts c = true → isBlank c = true)
    (haccepts' : ∀ c, accepts' c = true → isBlank c = true) (hprev : prev.any Class.namePart = false)
    (hhead : new.head?.any Class.namePart = false) (h : ∀ prev, Loosens prev new old) (text : List Char) :
    Loosens prev (dropTail accepts' (text.dropWhile accepts) ++ new) (text ++ old) := by
  obtain ⟨before, after, htext, hbefore, hafter⟩ := exists_dropTail_dropWhile accepts accepts' text
  generalize dropTail accepts' (text.dropWhile accepts) = middle at htext ⊢
  rw [htext, List.append_assoc, List.append_assoc]
  exact .gap (fun c hc => haccepts c (hbefore c hc)) (Or.inl hprev)
    (.append_left (.gap (fun c hc => haccepts' c (hafter c hc)) (Or.inr hhead) (h _)))

theorem tightens_trimEnds : Tightens Spacing.trimEnds := by
  intro text
  have hends := @Loosens.ends none [] [] isBlank isBlank (fun _ h => h) (fun _ h => h) rfl rfl (fun _ => .nil) text
  rwa [List.append_nil, List.append_nil, ← trim, ← Spacing.trimEnds_apply] at hends

theorem tightens_trimLines : Tightens Spacing.trimLines := by
  intro text
  obtain ⟨ended, last, rfl, hlines⟩ := exists_joinLines text
  rw [Spacing.trimLines_apply hlines]
  have hline : ∀ (line : List Char) {prev : Option Char} {new old : List Char}, prev.any Class.namePart = false →
      new.head?.any Class.namePart = false → (∀ prev, Loosens prev new old) →
      Loosens prev (Spacing.trimLine line ++ new) (line ++ old) := fun line _ _ _ hprev hhead h =>
    .ends (fun _ => Class.isBlank_of_spaceTab) (fun _ => Class.isBlank_of_among rfl) hprev hhead h line
  suffices hall : ∀ prev : Option Char, prev.any Class.namePart = false →
      Loosens prev (joinLines (ended.map Spacing.trimLine) (Spacing.trimLine last)) (joinLines ended last) from
    hall none rfl
  clear hlines
  induction ended with
  | nil => exact fun prev hprev => by simpa using hline last hprev rfl fun _ => .nil
  | cons line ended ih =>
    exact fun prev hprev => hline line hprev rfl fun _ => .keep (ih _ rfl)

theorem tightens_emptyLines : Tightens Spacing.emptyLines := by
  intro text
  obtain ⟨ended, last, rfl, hlines⟩ := exists_joinLines text
  rw [Spacing.emptyLines_apply hlines]
  suffices hall : ∀ prev : Option Char, prev.any Class.namePart = false →
      Loosens prev (joinLines (ended.filter fun line => !Spacing.isEmptyLine line) last) (joinLines ended last) from
    hall none rfl
  clear hlines
  induction ended with
  | nil => exact fun prev _ => .refl prev last
  | cons line ended ih =>
    intro prev hprev
    rw [joinLines_cons]
    by_cases hempty : Spacing.isEmptyLine line = true
    · have hblanks : ∀ c ∈ line ++ ['\n'], isBlank c = true :=
        List.forall_mem_append.mpr ⟨Spacing.isBlank_of_isEmptyLine hempty, List.all_eq_true.mp rfl⟩
      rw [List.filter_cons_of_neg (by simp [hempty]), ← List.singleton_append, ← List.append_assoc]
      exact .gap hblanks (Or.inl hprev) (ih prev hprev)
    · rw [List.filter_cons_of_pos (by simp [hempty]), joinLines_cons]
      exact .append_left (.keep (ih _ rfl))

/-! ### Pipelines -/

/-- Behind the rules for calls and debugger statements come those for blanks. -/
theorem exists_pipeline_eq {options : Options} (hconsole : options.removeConsoleLog = true)
    (hdebugger : options.removeDebugger = true) :
    ∃ rest : Pipeline, pipeline options = consoleCall :: debuggerStatement :: rest ∧ rest.Each Tightens := by
  refine ⟨_, by rw [pipeline, hconsole, hdebugger]; rfl, ?_⟩
  refine .append (.append (.append (.onlyIf fun _ => ?_) (.onlyIf fun _ => .cons tightens_emptyLines .nil))
    (.onlyIf fun _ => .cons tightens_semicolonBrace .nil)) (.cons tightens_trimEnds .nil)
  split
  · exact .append (.cons tightens_collapseHorizontal (.cons tightens_trimLines .nil))
      (.onlyIf fun _ => .cons (tightens_around fun _ => Class.isBlank_of_spaceTab) .nil)
  · exact .append (.cons tightens_newlineRuns (.cons tightens_collapseHorizontal .nil))
      (.onlyIf fun _ => .cons (tightens_around fun _ => Class.isBlank_of_among rfl) .nil)

/-- What is found behind such rules was there before, if blanks and semicolons put in do not hide it. -/
theorem of_run {holds : List Char → Prop} (hloosens : ∀ {new old}, Loosens none new old → holds new → holds old)
    {rules : Pipeline} (h : rules.Each Tightens) (text : List Char) (hrun : holds (rules.run text)) : holds text :=
  @Pipeline.run_of_apply (fun old new => holds new → holds old) (fun _ => id) (fun h h' => h ∘ h') rules
    (fun rule hrule text => hloosens (h rule hrule text)) text hrun

end Minifier.Script
