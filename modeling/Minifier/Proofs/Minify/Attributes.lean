import Minifier.Proofs.Minify.Sizes
import Minifier.Proofs.Pattern.Enclosed
import Minifier.Proofs.Pattern.Reworking
import Minifier.Proofs.Rule.Rewriting

/-!
Attributes with values in quotes, and the two patterns for attributes that say nothing. What either takes is an
attribute itself. Where it overlaps another attribute both have the same equals sign, or its own stands in the other's
value. So an attribute is kept if its name and its value are not what the patterns look for and no listed name stands
before an equals sign in its value.
-/

namespace Minifier.Markup

open Pattern

/-- Characters of names: no blanks, no quotes and no equals sign. -/
def isNameChar (c : Char) : Bool := !(Text.isBlank c || c == '"' || c == '\'' || c == '=')

theorem toNat_of_isUpper {c : Char} (h : c.isUpper = true) : 65 ≤ c.toNat ∧ c.toNat ≤ 90 := by
  obtain ⟨hfirst, hlast⟩ := of_decide_eq_true h
  exact ⟨UInt32.le_iff_toNat_le.mp hfirst, UInt32.le_iff_toNat_le.mp hlast⟩

theorem isNameChar_of_isUpper (c : Char) (h : c.isUpper = true) : isNameChar c = true := by
  have hrange := toNat_of_isUpper h
  have hblank : Text.isBlank c = false := by
    rw [Bool.eq_false_iff]
    intro hblank
    simp [Text.isBlank] at hblank
    omega
  have hother : ∀ d : Char, d.toNat < 65 → c ≠ d := by
    rintro d hd rfl
    omega
  simp [isNameChar, hblank, hother]

theorem isWord_of_isUpper (c : Char) (h : c.isUpper = true) : Text.isWord c = true := by
  have hrange := toNat_of_isUpper h
  have hascii : c.toNat < 128 := by omega
  have hletter : c.isAlpha = true := (congrArg (· || c.isLower) h).trans (Bool.true_or _)
  rw [Text.isWord, if_pos hascii, Char.isAlphanum, hletter, Bool.true_or, Bool.true_or]

/-! ### Attributes -/

/-- An attribute with a value in quotes, with the blanks on both sides of the equals sign. -/
structure Attribute where
  name : List Char
  before : List Char
  behind : List Char
  quote : Char
  value : List Char
  deriving DecidableEq, Repr

namespace Attribute

def text (a : Attribute) : List Char :=
  a.name ++ (a.before ++ '=' :: (a.behind ++ a.quote :: (a.value ++ [a.quote])))

/-- Whether the parts of an attribute are what they are called. -/
structure IsWellFormed (a : Attribute) : Prop where
  name_ne : a.name ≠ []
  name : ∀ c ∈ a.name, isNameChar c = true
  before : ∀ c ∈ a.before, Text.isBlank c = true
  behind : ∀ c ∈ a.behind, Text.isBlank c = true
  quote : a.quote = '"' ∨ a.quote = '\''
  value : a.quote ∉ a.value

end Attribute

/-- The values of types that say nothing. -/
def typeValues : List String := ["text/javascript", "text/css"]

/-- What the rule for types takes: blanks and an attribute. -/
def IsTypeSetting (_ : Option Char) (taken : List Char) : Prop :=
  ∃ (lead : List Char) (a : Attribute), taken = lead ++ a.text ∧ a.IsWellFormed ∧ lead ≠ [] ∧
    (∀ c ∈ lead, Text.isBlank c = true) ∧ Spells "type" a.name ∧ SpellsOne typeValues a.value

/-- What the rule for attributes without a value takes: an attribute where a word begins. -/
def IsBooleanSetting (prev : Option Char) (taken : List Char) : Prop :=
  ∃ a : Attribute, taken = a.text ∧ a.IsWellFormed ∧ prev.any Text.isWord = false ∧ SpellsOne booleanNames a.name ∧
    (a.value = [] ∨ SpellsOne booleanNames a.value)

theorem isWord_of_spellsOne {words : List String} {text : List Char} (h : SpellsOne words text)
    (hwords : words.all (·.toList.all Text.isWord) = true) : ∀ c ∈ text, Text.isWord c = true :=
  h.forall isWord_of_isUpper (by decide +kernel) (by decide +kernel) hwords

theorem isNameChar_of_spellsOne {words : List String} {text : List Char} (h : SpellsOne words text)
    (hwords : words.all (·.toList.all isNameChar) = true) : ∀ c ∈ text, isNameChar c = true :=
  h.forall isNameChar_of_isUpper (by decide) (by decide) hwords

/-- What stands between two quotes. -/
theorem exists_of_takes_quoted {pattern : Pattern} {prev : Option Char} {taken behind : List Char} {parts : Parts}
    (h : ((char '"' ++ pattern ++ char '"') <|> (char '\'' ++ pattern ++ char '\'')).Takes prev taken behind parts) :
    ∃ quote value prev behind parts, (quote = '"' ∨ quote = '\'') ∧ taken = quote :: (value ++ [quote]) ∧
      pattern.Takes prev value behind parts := by
  have hbetween : ∀ {quote : Char}, (char quote ++ pattern ++ char quote).Takes prev taken behind parts →
      ∃ value prev behind parts, taken = quote :: (value ++ [quote]) ∧ pattern.Takes prev value behind parts := by
    rintro quote ⟨_, _, _, _, ⟨_, value, _, _, hopen, hvalue, rfl, -⟩, hclose, rfl, -⟩
    obtain ⟨rfl, -⟩ := (takes_char quote).mp hopen
    obtain ⟨rfl, -⟩ := (takes_char quote).mp hclose
    exact ⟨value, _, _, _, by simp, hvalue⟩
  rcases h with h | h
  · obtain ⟨value, _, _, _, htaken, hvalue⟩ := hbetween h
    exact ⟨'"', value, _, _, _, Or.inl rfl, htaken, hvalue⟩
  · obtain ⟨value, _, _, _, htaken, hvalue⟩ := hbetween h
    exact ⟨'\'', value, _, _, _, Or.inr rfl, htaken, hvalue⟩

theorem isWellFormed_of_isNameChar {a : Attribute} (hne : a.name ≠ []) (hname : ∀ c ∈ a.name, isNameChar c = true)
    (hbefore : ∀ c ∈ a.before, Text.isBlank c = true) (hbehind : ∀ c ∈ a.behind, Text.isBlank c = true)
    (hquote : a.quote = '"' ∨ a.quote = '\'') (hvalue : ∀ c ∈ a.value, isNameChar c = true) : a.IsWellFormed := by
  refine ⟨hne, hname, hbefore, hbehind, hquote, fun hmem => ?_⟩
  have hplain := hvalue _ hmem
  rcases hquote with h | h <;> rw [h] at hplain <;> cases hplain

theorem isTypeSetting_of_takes {prev : Option Char} {taken behind : List Char} {parts : Parts}
    (h : redundantType.Takes prev taken behind parts) : IsTypeSetting prev taken := by
  obtain ⟨_, quoted, _, _, ⟨_, second, _, _, ⟨_, _, _, _, ⟨_, first, _, _, ⟨lead, name, _, _, hlead, hname, rfl, -⟩,
    ⟨hfirst, -⟩, rfl, -⟩, hequals, rfl, -⟩, ⟨hsecond, -⟩, rfl, -⟩, hquoted, rfl, -⟩ := h
  obtain ⟨rfl, -⟩ := (takes_char '=').mp hequals
  obtain ⟨hspells, -⟩ := takes_wordAnyCase.mp hname
  obtain ⟨hne, hblank, -⟩ := (takes_run1 _).mp hlead
  obtain ⟨quote, _, _, _, _, hquote, rfl, front, last, _, _, hfront, hlast, rfl, -⟩ := exists_of_takes_quoted hquoted
  obtain ⟨hopens, -⟩ := takes_wordAnyCase.mp hfront
  obtain ⟨⟨word, hword, hcloses⟩, -⟩ := takes_wordsAnyCase.mp hlast
  have hvalue : SpellsOne typeValues (front ++ last) := by
    simp only [List.mem_cons, List.not_mem_nil, or_false] at hword
    rcases hword with rfl | rfl
    · exact ⟨_, List.mem_cons_self, hopens.append hcloses rfl⟩
    · exact ⟨_, List.mem_cons_of_mem _ List.mem_cons_self, hopens.append hcloses rfl⟩
  refine ⟨lead, ⟨name, first, second, quote, front ++ last⟩, by simp [Attribute.text], ?_, hne, hblank, hspells, hvalue⟩
  exact isWellFormed_of_isNameChar (hspells.ne_nil (by decide))
    (hspells.forall isNameChar_of_isUpper (by decide) (by decide) rfl) hfirst hsecond hquote
    (isNameChar_of_spellsOne hvalue rfl)

theorem isBooleanSetting_of_takes {prev : Option Char} {taken behind : List Char} {parts : Parts}
    (h : booleanAttribute.Takes prev taken behind parts) : IsBooleanSetting prev taken := by
  obtain ⟨_, quoted, _, _, ⟨_, second, _, _, ⟨_, _, _, _, ⟨_, first, _, _, ⟨_, name, _, _, ⟨hedge, rfl, -⟩,
    ⟨_, hname, -⟩, rfl, -⟩, ⟨hfirst, -⟩, rfl, -⟩, hequals, rfl, -⟩, ⟨hsecond, -⟩, rfl, -⟩, hquoted, rfl, -⟩ := h
  obtain ⟨rfl, -⟩ := (takes_char '=').mp hequals
  obtain ⟨hspells, -⟩ := takes_wordsAnyCase.mp hname
  obtain ⟨quote, value, hquote, rfl, hvalue⟩ : ∃ quote value, (quote = '"' ∨ quote = '\'') ∧
      quoted = quote :: (value ++ [quote]) ∧ (value = [] ∨ SpellsOne booleanNames value) := by
    rcases hquoted with hquoted | hquoted | hquoted
    · exact ⟨'"', [], Or.inl rfl, ((takes_word "\"\"").mp hquoted).1, Or.inl rfl⟩
    · exact ⟨'\'', [], Or.inr rfl, ((takes_word "''").mp hquoted).1, Or.inl rfl⟩
    · obtain ⟨quote, value, _, _, _, hquote, htaken, hvalue⟩ := exists_of_takes_quoted hquoted
      exact ⟨quote, value, hquote, htaken, Or.inr (takes_wordsAnyCase.mp hvalue).1⟩
  have hplain : ∀ c ∈ value, isNameChar c = true := by
    rcases hvalue with rfl | hvalue
    · exact List.forall_mem_nil _
    · exact isNameChar_of_spellsOne hvalue rfl
  obtain ⟨c, more, rfl⟩ := List.exists_cons_of_ne_nil (hspells.ne_nil (by decide))
  have hopens : (c :: more ++ (first ++ (['='] ++ (second ++ (quote :: (value ++ [quote]) ++ behind))))).head?.any
      Text.isWord = true := isWord_of_spellsOne hspells rfl c List.mem_cons_self
  refine ⟨⟨c :: more, first, second, quote, value⟩, by simp [Attribute.text], ?_, ?_, hspells, hvalue⟩
  · exact isWellFormed_of_isNameChar (List.cons_ne_nil _ _) (isNameChar_of_spellsOne hspells rfl) hfirst hsecond hquote
      hplain
  · exact (Anchor.holdsBetween_wordEdge_before hopens).mp hedge

/-! ### Overlaps -/

section Lists

variable {c : Char} {x y z w : List Char}

/-- A character that a prefix lacks stands behind it. -/
theorem exists_behind_of_not_mem (h : x ++ c :: y = z ++ w) (hc : c ∉ z) :
    ∃ more, x = z ++ more ∧ w = more ++ c :: y := by
  rcases List.append_eq_append_iff.mp h with ⟨more, rfl, hmore⟩ | ⟨more, rfl, hmore⟩
  · cases more with
    | nil => exact ⟨[], by simp, by simpa using hmore.symm⟩
    | cons d more =>
      obtain ⟨rfl, -⟩ := List.cons.inj hmore
      exact absurd (by simp) hc
  · exact ⟨more, rfl, hmore⟩

/-- A character that a suffix lacks stands before it. -/
theorem exists_before_of_not_mem (h : x ++ c :: y = z ++ w) (hc : c ∉ w) :
    ∃ more, z = x ++ c :: more ∧ y = more ++ w := by
  rcases List.append_eq_append_iff.mp h with ⟨more, rfl, hmore⟩ | ⟨more, rfl, rfl⟩
  · cases more with
    | nil =>
      rw [List.nil_append] at hmore
      exact absurd (hmore ▸ List.mem_cons_self) hc
    | cons d more =>
      obtain ⟨rfl, rfl⟩ := List.cons.inj hmore
      exact ⟨more, rfl, rfl⟩
  · exact absurd (by simp) hc

/-- Blanks behind a character that is none end where they do. -/
theorem eq_of_append_blanks {accepts : Char → Bool} (h : x ++ z = y ++ w) (hx : x.getLast?.all (! accepts ·) = true)
    (hy : y.getLast?.all (! accepts ·) = true) (hz : ∀ c ∈ z, accepts c = true) (hw : ∀ c ∈ w, accepts c = true) :
    x = y := by
  rcases List.append_eq_append_iff.mp h with ⟨more, rfl, rfl⟩ | ⟨more, rfl, rfl⟩
  · rcases List.eq_nil_or_concat' more with rfl | ⟨more, d, rfl⟩
    · simp
    · have hd := hz d (by simp)
      simp [hd] at hy
  · rcases List.eq_nil_or_concat' more with rfl | ⟨more, d, rfl⟩
    · simp
    · have hd := hw d (by simp)
      simp [hd] at hx

end Lists

namespace Attribute

variable {a b : Attribute} {before behind first lead last : List Char} {c : Char}

/-- What stands before the equals sign. -/
def opening (a : Attribute) : List Char := a.name ++ a.before

/-- What stands behind it. -/
def quoted (a : Attribute) : List Char := a.behind ++ a.quote :: (a.value ++ [a.quote])

theorem text_eq (a : Attribute) : a.text = a.opening ++ '=' :: a.quoted := (List.append_assoc _ _ _).symm

theorem not_mem_of_isBlank {text : List Char} {d : Char} (hd : d = '=' ∨ d = '"' ∨ d = '\'')
    (h : ∀ c ∈ text, Text.isBlank c = true) : d ∉ text := by
  intro hmem
  have hblank := h d hmem
  rcases hd with rfl | rfl | rfl <;> cases hblank

theorem IsWellFormed.isBlank_quote (h : a.IsWellFormed) : Text.isBlank a.quote = false := by
  rcases h.quote with heq | heq <;> rw [heq] <;> rfl

theorem IsWellFormed.equals_ne_quote (h : a.IsWellFormed) : '=' ≠ a.quote := by
  rcases h.quote with heq | heq <;> rw [heq] <;> decide

theorem IsWellFormed.not_mem_opening (h : a.IsWellFormed) {d : Char} (hd : d = '=' ∨ d = '"' ∨ d = '\'') :
    d ∉ a.opening := by
  refine List.not_mem_append (fun hmem => ?_) (not_mem_of_isBlank hd h.before)
  have hplain := h.name d hmem
  rcases hd with rfl | rfl | rfl <;> cases hplain

theorem IsWellFormed.equals_not_mem_quoted (h : a.IsWellFormed) (hvalue : ∀ c ∈ a.value, isNameChar c = true) :
    '=' ∉ a.quoted := by
  have hplain : '=' ∉ a.value := fun hmem => absurd (hvalue _ hmem) (by decide)
  simp [quoted, h.equals_ne_quote, hplain, not_mem_of_isBlank (Or.inl rfl) h.behind]

theorem IsWellFormed.getLast?_name (h : a.IsWellFormed) (x : List Char) :
    (x ++ a.name).getLast?.all (! Text.isBlank ·) = true := by
  obtain ⟨front, d, hname⟩ := (List.eq_nil_or_concat' a.name).resolve_left h.name_ne
  have hplain := h.name d (by simp [hname])
  simp only [isNameChar, Bool.not_eq_true', Bool.or_eq_false_iff] at hplain
  simp [hname, ← List.append_assoc, hplain]

theorem IsWellFormed.dropWhile_quoted (h : a.IsWellFormed) (z : List Char) :
    (a.quoted ++ z).dropWhile Text.isBlank = a.quote :: (a.value ++ a.quote :: z) := by
  have htext : a.quoted ++ z = a.behind ++ a.quote :: (a.value ++ a.quote :: z) := by simp [quoted]
  have hstops : (a.quote :: (a.value ++ a.quote :: z)).head?.any Text.isBlank = false := h.isBlank_quote
  rw [htext]
  exact (takeWhile_append_of_head h.behind hstops).2

theorem IsWellFormed.takeWhile_value (h : a.IsWellFormed) (z : List Char) :
    (a.value ++ a.quote :: z).takeWhile (· != a.quote) = a.value := by
  refine (takeWhile_append_of_head (fun c hc => ?_) (by simp)).1
  exact bne_iff_ne.mpr fun heq => h.value (heq ▸ hc)

/-- Two attributes with the same equals sign have the same end of their names and the same value. -/
theorem IsWellFormed.eq_of_append_eq (ha : a.IsWellFormed) (hb : b.IsWellFormed) {x y z w : List Char}
    (hopening : x ++ a.opening = y ++ b.opening) (hquoted : a.quoted ++ z = b.quoted ++ w) :
    x ++ a.name = y ++ b.name ∧ a.value = b.value := by
  rw [opening, opening, ← List.append_assoc, ← List.append_assoc] at hopening
  refine ⟨eq_of_append_blanks hopening (ha.getLast?_name x) (hb.getLast?_name y) ha.before hb.before, ?_⟩
  have hrest := congrArg (List.dropWhile Text.isBlank) hquoted
  rw [ha.dropWhile_quoted, hb.dropWhile_quoted] at hrest
  obtain ⟨hquote, hvalues⟩ := List.cons.inj hrest
  rw [← ha.takeWhile_value z, hvalues, hquote, hb.takeWhile_value]

/-- What has no quote and no equals sign and stands before an equals sign behind that of an attribute stands behind the
attribute or in its value. -/
theorem IsWellFormed.exists_inside (ha : a.IsWellFormed) {front inner more rest : List Char}
    (hinner : ∀ d, d = '=' ∨ d = '"' ∨ d = '\'' → d ∉ inner) (hopening : first ++ inner = front ++ '=' :: more)
    (hquoted : a.quoted ++ behind = more ++ '=' :: rest) :
    (front ++ '=' :: a.quoted).length ≤ first.length ∨ ∃ inside rest, a.value = inside ++ inner ++ '=' :: rest := by
  have hmark : a.quote = '=' ∨ a.quote = '"' ∨ a.quote = '\'' := Or.inr ha.quote
  have hquote := ha.equals_ne_quote
  obtain ⟨between, rfl, rfl⟩ := exists_before_of_not_mem hopening.symm (hinner _ (Or.inl rfl))
  rw [List.append_assoc] at hquoted
  rcases List.append_eq_append_iff.mp hquoted with ⟨_, rfl, -⟩ | ⟨tail, htail, hrest⟩
  · exact Or.inl (by simp)
  · rcases eq_or_ne tail [] with rfl | hne
    · exact Or.inl (by simp [htail])
    · refine Or.inr ?_
      have hconcat : (a.behind ++ a.quote :: a.value) ++ [a.quote] = between ++ tail := by simpa [quoted] using htail
      obtain ⟨tail, hvalue, rfl⟩ := exists_of_concat_eq hne hconcat
      -- The quote that ends the value stands behind the equals sign.
      have hend : tail ++ a.quote :: behind = (inner ++ ['=']) ++ rest := by simpa using hrest.symm
      obtain ⟨after, rfl, -⟩ := exists_behind_of_not_mem hend
        (List.not_mem_append (hinner _ hmark) (by simpa using hquote.symm))
      have hequals : (between ++ inner) ++ '=' :: after = (a.behind ++ [a.quote]) ++ a.value := by
        simpa using hvalue.symm
      obtain ⟨middle, hmiddle, hsplit⟩ := exists_behind_of_not_mem hequals
        (List.not_mem_append (not_mem_of_isBlank (Or.inl rfl) ha.behind) (by simpa using hquote))
      have hstart : a.behind ++ a.quote :: middle = between ++ inner := by simpa using hmiddle.symm
      obtain ⟨inside, -, rfl⟩ := exists_before_of_not_mem hstart (hinner _ hmark)
      exact ⟨inside, after, hsplit⟩

/-- An attribute with a plain value that overlaps another attribute, the blank before that included, has the same
equals sign, or its own stands in the other's value with all that stands before it. -/
theorem IsWellFormed.overlap_cases (ha : a.IsWellFormed) (hb : b.IsWellFormed)
    (hvalue : ∀ c ∈ b.value, isNameChar c = true) (hc : Text.isBlank c = true)
    (hlead : ∀ c ∈ lead, Text.isBlank c = true)
    (htext : before ++ (c :: a.text ++ behind) = first ++ (lead ++ b.text ++ last)) :
    ((first ++ (lead ++ b.text)).length ≤ before.length ∨ (before ++ c :: a.text).length ≤ first.length) ∨
      (before ++ c :: a.name = first ++ (lead ++ b.name) ∧ a.value = b.value) ∨
      ∃ inside rest, a.value = inside ++ (lead ++ b.opening) ++ '=' :: rest := by
  have hquiet : ∀ d, d = '=' ∨ d = '"' ∨ d = '\'' → d ∉ lead ++ b.opening := fun d hd =>
    List.not_mem_append (not_mem_of_isBlank hd hlead) (hb.not_mem_opening hd)
  have hsplit : (before ++ c :: a.opening) ++ '=' :: (a.quoted ++ behind) =
      (first ++ (lead ++ b.opening)) ++ '=' :: (b.quoted ++ last) := by
    simpa [text_eq] using htext
  have hsame : before ++ c :: a.opening = first ++ (lead ++ b.opening) → a.quoted ++ behind = b.quoted ++ last →
      before ++ c :: a.name = first ++ (lead ++ b.name) ∧ a.value = b.value := by
    intro hopening hquoted
    have hopening : (before ++ [c]) ++ a.opening = (first ++ lead) ++ b.opening := by simpa using hopening
    simpa using ha.eq_of_append_eq hb hopening hquoted
  rcases List.append_eq_append_iff.mp hsplit with ⟨more, hopening, hmore⟩ | ⟨more, hopening, hmore⟩
  · cases more with
    | nil => exact Or.inr (Or.inl (hsame (by simpa using hopening.symm) (List.cons.inj hmore).2))
    | cons d more =>
      obtain ⟨rfl, hquoted⟩ := List.cons.inj hmore
      rcases ha.exists_inside hquiet hopening hquoted with hbehind | hinside
      · refine Or.inl (Or.inr ?_)
        simpa [text_eq] using hbehind
      · exact Or.inr (Or.inr hinside)
  · cases more with
    | nil => exact Or.inr (Or.inl (hsame (by simpa using hopening) (List.cons.inj hmore).2.symm))
    | cons d more =>
      obtain ⟨rfl, hquoted⟩ := List.cons.inj hmore
      -- The second attribute ends before the first one's equals sign, with a quote.
      obtain ⟨rest, rfl, -⟩ := exists_behind_of_not_mem hquoted.symm (hb.equals_not_mem_quoted hvalue)
      have hend : (first ++ (lead ++ b.opening) ++ '=' :: (b.behind ++ b.quote :: b.value)) ++ b.quote :: rest =
          before ++ c :: a.opening := by
        simpa [quoted] using hopening.symm
      have hquote : b.quote ∉ c :: a.opening := by
        intro hmem
        rcases List.mem_cons.mp hmem with rfl | hmem
        · exact absurd (hb.isBlank_quote.symm.trans hc) Bool.false_ne_true
        · exact ha.not_mem_opening (Or.inr hb.quote) hmem
      obtain ⟨more, hbefore, -⟩ := exists_before_of_not_mem hend hquote
      refine Or.inl (Or.inl ?_)
      rw [hbefore, text_eq, quoted]
      simp only [List.length_append, List.length_cons, List.length_nil]
      omega

end Attribute

/-! ### Kept attributes -/

namespace Attribute

/-- Whether an attribute is taken for one that says nothing: a type with a usual value, or an attribute the name of
which ends in a word that needs no value, and whose value is empty or such a word. -/
def LooksRedundant (a : Attribute) : Prop :=
  Spells "type" a.name ∧ SpellsOne typeValues a.value ∨
    ∃ front name, a.name = front ++ name ∧ front.getLast?.any Text.isWord = false ∧ SpellsOne booleanNames name ∧
      (a.value = [] ∨ SpellsOne booleanNames a.value)

/-- Whether a listed name stands before an equals sign in the value. -/
def Mentions (a : Attribute) : Prop :=
  ∃ front name blanks rest, a.value = front ++ (name ++ blanks) ++ '=' :: rest ∧
    SpellsOne ("type" :: booleanNames) name ∧ ∀ c ∈ blanks, Text.isBlank c = true

variable {a b : Attribute} {before behind first lead last : List Char} {prev : Option Char} {c : Char}

/-- The name of an attribute with the same equals sign is the end of the name. -/
theorem IsWellFormed.exists_name (hb : b.IsWellFormed) (hc : Text.isBlank c = true)
    (h : before ++ c :: a.name = first ++ (lead ++ b.name)) :
    ∃ front, first ++ lead = before ++ c :: front ∧ a.name = front ++ b.name := by
  rw [← List.append_assoc] at h
  refine exists_before_of_not_mem h fun hmem => ?_
  have hplain := hb.name c hmem
  simp [isNameChar, hc] at hplain

theorem IsWellFormed.apart_typeSetting (ha : a.IsWellFormed) (hkept : ¬ a.LooksRedundant) (hvalue : ¬ a.Mentions)
    (hc : Text.isBlank c = true) : Apart IsTypeSetting prev before (c :: a.text) behind := by
  rintro first taken last htext ⟨lead, b, rfl, hb, hne, hlead, hname, htype⟩
  rcases ha.overlap_cases hb (isNameChar_of_spellsOne htype rfl) hc hlead htext with
    hapart | ⟨hnames, hvalues⟩ | ⟨inside, rest, hinside⟩
  · exact hapart
  · obtain ⟨front, hfront, hsplit⟩ := hb.exists_name hc hnames
    refine absurd (Or.inl ⟨?_, hvalues ▸ htype⟩) hkept
    rcases List.eq_nil_or_concat' front with rfl | ⟨front, d, rfl⟩
    · rwa [hsplit]
    · -- The character before the name would be a blank within the attribute's name.
      obtain ⟨lead, e, rfl⟩ := (List.eq_nil_or_concat' lead).resolve_left hne
      have hlast : (first ++ lead) ++ [e] = (before ++ c :: front) ++ [d] := by simpa using hfront
      obtain ⟨-, hsame⟩ := List.append_inj' hlast rfl
      obtain rfl := (List.cons.inj hsame).1
      have hplain := ha.name e (by simp [hsplit])
      simp [isNameChar, hlead e (by simp)] at hplain
  · refine absurd ⟨inside ++ lead, b.name, b.before, rest, ?_, ?_, hb.before⟩ hvalue
    · simpa [opening] using hinside
    · exact ⟨"type", List.mem_cons_self, hname⟩

theorem IsWellFormed.apart_booleanSetting (ha : a.IsWellFormed) (hkept : ¬ a.LooksRedundant) (hvalue : ¬ a.Mentions)
    (hc : Text.isBlank c = true) : Apart IsBooleanSetting prev before (c :: a.text) behind := by
  rintro first taken last htext ⟨b, rfl, hb, hedge, hname, hempty⟩
  have hplain : ∀ c ∈ b.value, isNameChar c = true := by
    rcases hempty with hnil | hspells
    · simp [hnil]
    · exact isNameChar_of_spellsOne hspells rfl
  have htext' : before ++ (c :: a.text ++ behind) = first ++ ([] ++ b.text ++ last) := htext
  rcases ha.overlap_cases hb hplain hc (List.forall_mem_nil _) htext' with
    hapart | ⟨hnames, hvalues⟩ | ⟨inside, rest, hinside⟩
  · exact hapart
  · obtain ⟨front, hfront, hsplit⟩ := hb.exists_name hc hnames
    refine absurd (Or.inr ⟨front, b.name, hsplit, ?_, hname, hvalues ▸ hempty⟩) hkept
    rw [List.append_nil] at hfront
    rcases List.eq_nil_or_concat' front with rfl | ⟨front, d, rfl⟩
    · rfl
    · have hlast : first = (before ++ c :: front) ++ [d] := by simpa using hfront
      rw [hlast, List.getLast?_concat, Option.some_or] at hedge
      simpa using hedge
  · obtain ⟨word, hmem, hspells⟩ := hname
    refine absurd ⟨inside, b.name, b.before, rest, ?_, ?_, hb.before⟩ hvalue
    · simpa [opening] using hinside
    · exact ⟨word, List.mem_cons_of_mem _ hmem, hspells⟩

end Attribute

theorem head?_typeSetting {prev : Option Char} {taken : List Char} (h : IsTypeSetting prev taken) :
    taken.head? ≠ some '<' := by
  obtain ⟨lead, a, rfl, -, hne, hlead, -⟩ := h
  obtain ⟨c, lead, rfl⟩ := List.exists_cons_of_ne_nil hne
  rintro hhead
  obtain rfl := Option.some.inj hhead
  cases hlead _ List.mem_cons_self

theorem head?_booleanSetting {prev : Option Char} {taken : List Char} (h : IsBooleanSetting prev taken) :
    taken.head? ≠ some '<' := by
  obtain ⟨⟨name, _, _, _, _⟩, rfl, ha, -, hname, -⟩ := h
  obtain ⟨c, more, rfl⟩ := List.exists_cons_of_ne_nil ha.name_ne
  rintro hhead
  obtain rfl := Option.some.inj hhead
  cases isWord_of_spellsOne hname rfl _ List.mem_cons_self

/-- What becomes of an opening tag does not depend on what stands before it. -/
theorem exists_reworks_tag {index : Nat} {prev : Option Char} {text : List Char} {found : Match}
    (hfound : openingTag.matchAt index prev text = some found) :
    ∃ between, (∀ prev, Reworks IsTypeSetting prev found.text between) ∧
      ∀ prev, Reworks IsBooleanSetting prev between (redundantAttributes.replace found) := by
  obtain ⟨_, _, -, htakes, -⟩ := Match.exists_takes hfound
  obtain ⟨middle, htag⟩ := exists_of_takes_openingTag htakes
  have htypes := Reworks.replaceAll (by decide) (fun _ _ _ _ => isTypeSetting_of_takes) (fun _ => []) found.text
  rw [htag, List.singleton_append] at htypes
  obtain ⟨more, hbetween, hrest⟩ := htypes.exists_of_cons fun _ _ => head?_typeSetting
  have hbooleans := Reworks.replaceAll (by decide) (fun _ _ _ _ => isBooleanSetting_of_takes) (fun m => m.part 1)
    ('<' :: more)
  obtain ⟨_, hreplaced, hrest'⟩ := hbooleans.exists_of_cons fun _ _ => head?_booleanSetting
  have hreplace : redundantAttributes.replace found =
      booleanAttribute.replaceAll (fun m => m.part 1) ('<' :: more) := by
    rw [← hbetween, ← List.singleton_append, ← htag]
    rfl
  rw [hreplace, hreplaced, htag]
  exact ⟨'<' :: more, fun _ => .keep hrest, fun _ => .keep hrest'⟩

theorem exists_reworks_segments {index : Nat} {prev : Option Char} {text : List Char} {segments : List Segment}
    (h : openingTag.Segmented index prev text segments) : ∃ between, (∀ prev, Reworks IsTypeSetting prev text between) ∧
      ∀ prev, Reworks IsBooleanSetting prev between
        (segments.flatMap (Segment.replaced redundantAttributes.replace)) := by
  induction h with
  | done => exact ⟨[], fun _ => .nil, fun _ => .nil⟩
  | @plain _ _ c _ _ _ _ ih =>
    obtain ⟨between, htypes, hbooleans⟩ := ih
    exact ⟨c :: between, fun _ => .keep (htypes _), fun _ => .keep (hbooleans _)⟩
  | @hit _ _ _ rest found _ hfound htext _ ih =>
    obtain ⟨between, htypes, hbooleans⟩ := ih
    obtain ⟨tag, htypes', hbooleans'⟩ := exists_reworks_tag hfound
    refine ⟨tag ++ between, fun prev => ?_, fun prev => (hbooleans' prev).append (hbooleans _)⟩
    rw [htext]
    exact (htypes' prev).append (htypes _)

/-- What becomes of a text is what becomes of its opening tags. -/
theorem exists_reworks_redundantAttributes (text : List Char) : ∃ between, Reworks IsTypeSetting none text between ∧
    Reworks IsBooleanSetting none between (redundantAttributes.apply text) := by
  obtain ⟨between, htypes, hbooleans⟩ := exists_reworks_segments (segments_segmented openingTag text)
  refine ⟨between, htypes none, ?_⟩
  rw [Rule.apply_eq_once rfl]
  exact hbooleans none

/-- An attribute behind a blank is kept if it does not look redundant and mentions no listed name. -/
theorem exists_apply_redundantAttributes {a : Attribute} (ha : a.IsWellFormed) (hkept : ¬ a.LooksRedundant)
    (hvalue : ¬ a.Mentions) {c : Char} (hc : Text.isBlank c = true) (before behind : List Char) :
    ∃ before' behind', redundantAttributes.apply (before ++ (c :: a.text ++ behind)) =
      before' ++ (c :: a.text ++ behind') := by
  obtain ⟨between, htypes, hbooleans⟩ := exists_reworks_redundantAttributes (before ++ (c :: a.text ++ behind))
  obtain ⟨before', behind', rfl⟩ := htypes.exists_of_apart (ha.apart_typeSetting hkept hvalue hc)
  exact hbooleans.exists_of_apart (ha.apart_booleanSetting hkept hvalue hc)

end Minifier.Markup
