import Minifier.Proofs.Masking.Comments
import Minifier.Proofs.Masking.Slots
import Minifier.Proofs.Pattern.Enclosed

/-!
What a scan leaves of a text from which the comments go. `Scanned` goes along with the scan: a character stays where
the lexer finds nothing, something else may stand in the place of a comment, and a literal is set aside. `Loses` keeps
of this only which pieces of the text and of what is left belong together, so it can be cut anywhere. Both are about
every lexer; what a lexer finds comes in where their lemmas ask for it.
-/

namespace Minifier

open Pattern Template

variable {lexer : Lexer} {value : Nat → List Char} {strips : List Char → List Char → Prop} {index : Nat}
  {prev : Option Char} {text : List Char} {code : Template} {c d : Char}

/-- A list that ends another one in two parts ends the second part, or it begins in the first. -/
theorem suffix_append_cases {α : Type} {a : α} {rest first second : List α} (h : a :: rest <:+ first ++ second) :
    a :: rest <:+ second ∨ ∃ before behind, first = before ++ a :: behind ∧ rest = behind ++ second := by
  obtain ⟨front, hfront⟩ := h
  rcases List.append_eq_append_iff.mp hfront with ⟨more, rfl, hmore⟩ | ⟨more, rfl, hmore⟩
  · cases more with
    | nil => exact Or.inl ⟨[], hmore⟩
    | cons b more =>
      obtain ⟨rfl, rfl⟩ := List.cons.inj hmore
      exact Or.inr ⟨front, more, rfl, rfl⟩
  · exact Or.inl ⟨more, hmore.symm⟩

/-! ### What is left -/

/-- A text, and a template of what it is when it loses comments. What may stand in the place of a comment is said by
a relation. -/
inductive Loses (strips : List Char → List Char → Prop) (value : Nat → List Char) : List Char → Template → Prop where
  | nil : Loses strips value [] []
  | code {c : Char} {text : List Char} {code : Template} : Loses strips value text code →
      Loses strips value (c :: text) (.code c :: code)
  | slot {slot : Nat} {text : List Char} {code : Template} : Loses strips value text code →
      Loses strips value (value slot ++ text) (.slot slot :: code)
  | comment {comment left text : List Char} {code : Template} : strips comment left → Loses strips value text code →
      Loses strips value (comment ++ text) (ofCode left ++ code)

/-- Code can be cut at any of its characters. -/
private theorem exists_of_ofCode_eq {before behind : Template} (h : ofCode text = before ++ .code c :: behind) :
    ∃ front back, text = front ++ c :: back ∧ behind = ofCode back := by
  obtain ⟨front, rest, rfl, -, hrest⟩ := List.map_eq_append_iff.mp h
  obtain ⟨d, back, rfl, hd, hback⟩ := List.map_eq_cons_iff.mp hrest
  obtain rfl := Token.code.inj hd
  exact ⟨front, back, rfl, hback.symm⟩

private theorem mem_of_ofCode_eq {before behind : Template} (h : ofCode text = before ++ .code c :: behind) :
    c ∈ text := by
  obtain ⟨front, back, rfl, -⟩ := exists_of_ofCode_eq h
  simp

namespace Loses

variable {behind : Template}

theorem code_append (front : List Char) (h : Loses strips value text code) :
    Loses strips value (front ++ text) (ofCode front ++ code) := by
  induction front with
  | nil => exact h
  | cons c front ih => exact ih.code

/-- Where a comment always leaves something, nothing is left of the empty text only. -/
theorem eq_nil (hne : ∀ comment left, strips comment left → left ≠ []) (h : Loses strips value text []) :
    text = [] := by
  generalize hcode : ([] : Template) = code at h
  cases h with
  | nil => rfl
  | code _ => cases hcode
  | slot _ => cases hcode
  | @comment comment left _ _ hstrips _ =>
    have hleft : ofCode left = [] := (List.append_eq_nil_iff.mp hcode.symm).1
    exact absurd (List.map_eq_nil_iff.mp hleft) (hne comment left hstrips)

/-- A character that is left of no comment stands in the text. -/
theorem exists_of_code {before : Template} (hc : ∀ comment left, strips comment left → c ∉ left)
    (h : Loses strips value text (before ++ .code c :: behind)) :
    ∃ front back, text = front ++ c :: back ∧ Loses strips value front before ∧ Loses strips value back behind := by
  generalize hcode : before ++ .code c :: behind = code at h
  induction h generalizing before with
  | nil => simp at hcode
  | @code d text code h ih =>
    cases before with
    | nil =>
      obtain ⟨hhead, rfl⟩ := List.cons.inj hcode
      obtain rfl := Token.code.inj hhead
      exact ⟨[], text, rfl, .nil, h⟩
    | cons token before =>
      obtain ⟨rfl, hrest⟩ := List.cons.inj hcode
      obtain ⟨front, back, rfl, hfront, hback⟩ := ih hrest
      exact ⟨d :: front, back, rfl, hfront.code, hback⟩
  | @slot slot text code h ih =>
    cases before with
    | nil => cases (List.cons.inj hcode).1
    | cons token before =>
      obtain ⟨rfl, hrest⟩ := List.cons.inj hcode
      obtain ⟨front, back, rfl, hfront, hback⟩ := ih hrest
      exact ⟨value slot ++ front, back, (List.append_assoc _ _ _).symm, hfront.slot, hback⟩
  | @comment comment left text code hstrips h ih =>
    -- The character is none of those that are left of the comment, so it stands behind them.
    rcases List.append_eq_append_iff.mp hcode with ⟨more, hleft, hmore⟩ | ⟨more, rfl, hmore⟩
    · cases more with
      | nil =>
        obtain ⟨front, back, rfl, hfront, hback⟩ := @ih [] (by simpa using hmore)
        have hbefore : ofCode left ++ [] = before := by simpa using hleft
        exact ⟨comment ++ front, back, (List.append_assoc _ _ _).symm, hbefore ▸ hfront.comment hstrips, hback⟩
      | cons token more =>
        obtain ⟨rfl, -⟩ := List.cons.inj hmore
        exact absurd (mem_of_ofCode_eq hleft) (hc comment left hstrips)
    · obtain ⟨front, back, rfl, hfront, hback⟩ := ih hmore.symm
      exact ⟨comment ++ front, back, (List.append_assoc _ _ _).symm, hfront.comment hstrips, hback⟩

/-- Two characters that stand side by side in what is left stood side by side in the text, if every comment leaves
something, and no comment one of them. -/
theorem exists_adjacent {before : Template} (hne : ∀ comment left, strips comment left → left ≠ [])
    (hc : ∀ comment left, strips comment left → c ∉ left) (hd : ∀ comment left, strips comment left → d ∉ left)
    (h : Loses strips value text (before ++ .code c :: .code d :: behind)) :
    ∃ front back, text = front ++ c :: d :: back ∧ Loses strips value front before ∧
      Loses strips value back behind := by
  obtain ⟨front, rest, rfl, hfront, hrest⟩ := exists_of_code hc h
  obtain ⟨between, back, rfl, hbetween, hback⟩ := @exists_of_code _ _ _ _ _ [] hd hrest
  obtain rfl := eq_nil hne hbetween
  exact ⟨front, back, rfl, hfront, hback⟩

/-- Where comments leave nothing, a word that is left at the beginning stood there, or comments stood before its last
character. -/
theorem word_cases {word : List Char} (hleft : ∀ comment left, strips comment left → left = [])
    (h : Loses strips value text (ofCode word ++ behind)) :
    (∃ back, text = word ++ back ∧ Loses strips value back behind) ∨
      ∃ part more comment back, word = part ++ more ∧ more ≠ [] ∧ text = part ++ (comment ++ back) ∧
        strips comment [] ∧ Loses strips value back (ofCode more ++ behind) := by
  induction word generalizing text with
  | nil => exact Or.inl ⟨text, rfl, h⟩
  | cons c word ih =>
    generalize hcode : ofCode (c :: word) ++ behind = code at h
    cases h with
    | nil => cases hcode
    | code h =>
      obtain ⟨hhead, rfl⟩ := List.cons.inj hcode
      obtain rfl := Token.code.inj hhead
      rcases ih h with ⟨back, rfl, hback⟩ | ⟨part, more, comment, back, rfl, hmore, rfl, hstrips, hback⟩
      · exact Or.inl ⟨back, rfl, hback⟩
      · exact Or.inr ⟨c :: part, more, comment, back, rfl, hmore, rfl, hstrips, hback⟩
    | slot _ => cases (List.cons.inj hcode).1
    | @comment comment left back _ hstrips h =>
      obtain rfl := hleft comment left hstrips
      obtain rfl : ofCode (c :: word) ++ behind = _ := hcode
      exact Or.inr ⟨[], c :: word, comment, back, rfl, List.cons_ne_nil _ _, rfl, hstrips, h⟩

/-- A word that every comment holds, and that is left anywhere, stood somewhere. -/
theorem infix_of_word {word : List Char} {before : Template} (hleft : ∀ comment left, strips comment left → left = [])
    (hword : ∀ comment left, strips comment left → word <:+: comment)
    (h : Loses strips value text (before ++ (ofCode word ++ behind))) : word <:+: text := by
  cases word with
  | nil => exact List.nil_infix
  | cons c word =>
    have hc : ∀ comment left, strips comment left → c ∉ left := fun comment left hstrips =>
      hleft comment left hstrips ▸ List.not_mem_nil
    obtain ⟨front, back, rfl, -, hback⟩ := exists_of_code hc h
    rcases hback.word_cases hleft with ⟨more, rfl, -⟩ | ⟨part, _, comment, more, -, -, rfl, hstrips, -⟩
    · exact ⟨front, more, by simp⟩
    · exact (hword comment [] hstrips).trans ⟨front ++ c :: part, more, by simp⟩

end Loses

/-! ### What stands around literals -/

/-- What stands around the piece of a match that is set aside: nothing, if that is all of the match, or what a literal
has besides its labelled piece. -/
def Match.Around (found : Match) (before literal behind : List Char) : Prop :=
  found.text = before ++ literal ++ behind ∧
    (before = [] ∧ behind = [] ∨ found.label? .comment = none ∧ ∃ span, found.label? .literal = some span ∧
      span.text = literal ∧ span.start = found.start + before.length)

/-- Where a label took its piece, that is the piece which is set aside, unless all of the match is. -/
theorem Match.Around.eq {found : Match} {span : Span} {before literal behind front inside back : List Char}
    (h : found.Around before literal behind) (hspan : found.label? .literal = some span)
    (hstart : span.start = found.start + front.length) (htext : found.text = front ++ (inside ++ back))
    (hinside : span.text = inside) : before = [] ∧ behind = [] ∨ before = front ∧ behind = back := by
  obtain ⟨hsplit, hwhole | ⟨-, span', hspan', rfl, hstart'⟩⟩ := h
  · exact Or.inl hwhole
  · obtain rfl := Option.some.inj (hspan.symm.trans hspan')
    have hlength : before.length = front.length := by omega
    rw [htext, List.append_assoc] at hsplit
    obtain ⟨rfl, hrest⟩ := List.append_inj hsplit hlength.symm
    rw [hinside] at hrest
    exact Or.inr ⟨rfl, (List.append_cancel_left hrest).symm⟩

/-- What may stand around the piece of a match of a pattern that is set aside. -/
def Pattern.LeavesAround (pattern : Pattern) (around : List Char → List Char → Prop) : Prop :=
  ∀ index prev text found before literal after, pattern.matchAt index prev text = some found →
    found.Around before literal after → around before after

/-- Whether a character never stands around such a piece. -/
def Pattern.SparesAround (pattern : Pattern) (c : Char) : Prop :=
  pattern.LeavesAround fun before after => c ∉ before ∧ c ∉ after

namespace Pattern.LeavesAround

variable {first second last body : Pattern} {around : List Char → List Char → Prop}

theorem of_lacks (hnil : around [] []) (h : first.lacks .literal = true) : first.LeavesAround around := by
  rintro index prev text found before literal after hfound ⟨-, ⟨rfl, rfl⟩ | ⟨-, span, hspan, -⟩⟩
  · exact hnil
  · rw [Match.label?_eq_none h hfound] at hspan
    cases hspan

theorem comment (hnil : around [] []) (body : Pattern) : (label .comment body).LeavesAround around := by
  rintro index prev text found before literal after hfound ⟨-, ⟨rfl, rfl⟩ | ⟨hnone, -⟩⟩
  · exact hnil
  · obtain ⟨span, _, _, hspan, -⟩ := Match.exists_label hfound
    rw [hnone] at hspan
    cases hspan

theorem alt (hfirst : first.LeavesAround around) (hsecond : second.LeavesAround around) :
    (first <|> second).LeavesAround around := by
  intro index prev text found before literal after hfound haround
  have hpattern : (first <|> second) = .alt first second := rfl
  rw [hpattern, matchAt_alt, Option.or_eq_some_iff] at hfound
  rcases hfound with hfound | ⟨-, hfound⟩
  · exact hfirst _ _ _ _ _ _ _ hfound haround
  · exact hsecond _ _ _ _ _ _ _ hfound haround

/-- What stands around a label is taken by the patterns around it. -/
theorem of_label (hnil : around [] []) (hlacks : last.lacks .literal = true)
    (h : ∀ prev prev' before inside after behind parts parts', first.Takes prev before inside parts →
      last.Takes prev' after behind parts' → around before after) :
    (first ++ label .literal body ++ last).LeavesAround around := by
  intro index prev text found before literal after hfound haround
  obtain ⟨front, _, back, _, _, _, _, -, hfront, -, hback, htext, span, hspan, hstart, rfl⟩ :=
    exists_of_matchAt_label hlacks hfound
  rcases haround.eq hspan hstart htext rfl with ⟨rfl, rfl⟩ | ⟨rfl, rfl⟩
  · exact hnil
  · exact h _ _ _ _ _ _ _ _ hfront hback

end Pattern.LeavesAround

namespace Pattern.SparesAround

variable {first last body : Pattern}

theorem of_lacks (h : first.lacks .literal = true) : first.SparesAround c :=
  LeavesAround.of_lacks ⟨List.not_mem_nil, List.not_mem_nil⟩ h

theorem comment (body : Pattern) : (label .comment body).SparesAround c :=
  LeavesAround.comment ⟨List.not_mem_nil, List.not_mem_nil⟩ body

theorem alt {second : Pattern} (hfirst : first.SparesAround c) (hsecond : second.SparesAround c) :
    (first <|> second).SparesAround c := LeavesAround.alt hfirst hsecond

theorem of_label (hfirst : first.avoids c = true) (hlast : last.avoids c = true)
    (hlacks : last.lacks .literal = true) : (first ++ label .literal body ++ last).SparesAround c :=
  LeavesAround.of_label ⟨List.not_mem_nil, List.not_mem_nil⟩ hlacks fun _ _ _ _ _ _ _ _ hbefore hafter =>
    ⟨hbefore.not_mem hfirst, hafter.not_mem hlast⟩

end Pattern.SparesAround

/-! ### Scans -/

/-- A text from a place on, and a template of what a scan makes of it when comments go. -/
inductive Lexer.Scanned (lexer : Lexer) (value : Nat → List Char) :
    Nat → Option Char → List Char → Template → Prop where
  | done {index : Nat} {prev : Option Char} : Scanned lexer value index prev [] []
  | plain {index : Nat} {prev : Option Char} {c : Char} {rest : List Char} {code : Template} :
      lexer.pattern.matchAt index prev (c :: rest) = none → Scanned lexer value (index + 1) (some c) rest code →
      Scanned lexer value index prev (c :: rest) (.code c :: code)
  | comment {index : Nat} {prev : Option Char} {found : Match} {span : Span} {left rest : List Char}
      {code : Template} : lexer.pattern.matchAt index prev (found.text ++ rest) = some found →
      found.label? .comment = some span → lexer.strip span.text span.start = some left →
      Scanned lexer value (index + found.text.length) (found.text.getLast?.or prev) rest code →
      Scanned lexer value index prev (found.text ++ rest) (ofCode left ++ code)
  | aside {index : Nat} {prev : Option Char} {found : Match} {slot : Nat} {before behind rest : List Char}
      {code : Template} : lexer.pattern.matchAt index prev (found.text ++ rest) = some found →
      found.Around before (value slot) behind →
      Scanned lexer value (index + found.text.length) (found.text.getLast?.or prev) rest code →
      Scanned lexer value index prev (found.text ++ rest)
        (ofCode before ++ .slot slot :: (ofCode behind ++ code))

/-- Whether a relation says what is left of every comment that goes. -/
def Lexer.StripsBy (lexer : Lexer) (strips : List Char → List Char → Prop) : Prop :=
  ∀ index prev text found span left, lexer.pattern.matchAt index prev text = some found →
    found.label? .comment = some span → lexer.strip span.text span.start = some left → strips found.text left

namespace MaskedText

/-- What a swap of a match leaves, when comments go. -/
private theorem replaceMatch_cases {rest : List Char} {found : Match}
    (h : lexer.pattern.matchAt index prev (found.text ++ rest) = some found) (literals : Array (List Char)) :
    (∃ span left, found.label? .comment = some span ∧ lexer.strip span.text span.start = some left ∧
        replaceMatch lexer true literals found = (left, literals)) ∨
      ∃ before literal behind, found.Around before literal behind ∧ replaceMatch lexer true literals found =
        (before ++ Placeholder.render literals.size ++ behind, literals.push literal) := by
  rw [replaceMatch]
  cases hcomment : found.label? .comment with
  | some span =>
    simp only [if_true]
    cases hstrip : lexer.strip span.text span.start with
    | some left => exact Or.inl ⟨span, left, rfl, hstrip, rfl⟩
    | none => exact Or.inr ⟨[], found.text, [], ⟨by simp, Or.inl ⟨rfl, rfl⟩⟩, by simp [setAside]⟩
  | none =>
    right
    cases hspan : found.label? .literal with
    | none =>
      refine ⟨[], found.text, [], ⟨by simp, Or.inl ⟨rfl, rfl⟩⟩, ?_⟩
      simp [setAsideMatch_of_eq_none hspan]
    | some span =>
      obtain ⟨before, behind, htext, hstart, hset⟩ := exists_setAsideMatch_eq h hspan literals
      exact ⟨before, span.text, behind, ⟨htext, Or.inr ⟨hcomment, span, hspan, rfl, hstart⟩⟩, hset⟩

/-- The induction is on the search of the text. The literals that are set aside later have to be known for a slot to
have its value, so the template is one for every array that begins with all of them. -/
private theorem exists_scanned_of_segmented (hexceeds : lexer.pattern.exceeds [] = true) {segments : List Segment}
    (h : lexer.pattern.Segmented index prev text segments) (literals : Array (List Char)) :
    ∃ (code : Template) (pieces : List (List Char)),
      replaceFrom (replaceMatch lexer true) segments literals = (code.render, literals ++ pieces.toArray) ∧
      code.slots = List.range' literals.size pieces.length ∧
      ∀ final : Array (List Char), (literals ++ pieces.toArray).toList <+: final.toList →
        lexer.Scanned (literalAt final) index prev text code := by
  induction h generalizing literals with
  | done => exact ⟨[], [], by simp [replaceFrom], rfl, fun _ _ => .done⟩
  | @plain _ _ c _ _ hnone _ ih =>
    obtain ⟨code, pieces, hreplace, hslots, hscanned⟩ := ih literals
    refine ⟨.code c :: code, pieces, by rw [replaceFrom, hreplace]; rfl, hslots, fun final hfinal => ?_⟩
    exact .plain (matchAt_eq_none_of_forall hexceeds hnone) (hscanned final hfinal)
  | @hit index prev text rest found segments hfound htext _ ih =>
    subst htext
    rcases replaceMatch_cases hfound literals with
      ⟨span, left, hspan, hstrip, hreplaced⟩ | ⟨before, literal, behind, haround, hreplaced⟩
    · obtain ⟨code, pieces, hreplace, hslots, hscanned⟩ := ih literals
      refine ⟨ofCode left ++ code, pieces, ?_, by simpa using hslots, fun final hfinal => ?_⟩
      · simp only [replaceFrom, hreplaced, hreplace, render_append, render_ofCode]
      · exact .comment hfound hspan hstrip (hscanned final hfinal)
    · obtain ⟨code, pieces, hreplace, hslots, hscanned⟩ := ih (literals.push literal)
      refine ⟨ofCode before ++ .slot literals.size :: (ofCode behind ++ code), literal :: pieces, ?_, ?_,
        fun final hfinal => ?_⟩
      · simp [replaceFrom, hreplaced, hreplace]
      · simp [hslots, List.range'_succ]
      · have hvalue : literalAt final literals.size = literal := by
          obtain ⟨more, hmore⟩ := hfinal
          rw [literalAt, ← Array.getElem?_toList, ← hmore]
          simp
        have hrest := hscanned final (by simpa using hfinal)
        rw [← hvalue] at haround
        exact .aside hfound haround hrest

/-- A text that can be masked is scanned into the masked text. -/
theorem exists_scanned_of_mask {masked : MaskedText} (hexceeds : lexer.pattern.exceeds [] = true)
    (h : mask lexer true text = .ok masked) :
    ∃ code : Template, code.render = masked.text ∧ code.slots = List.range masked.literals.size ∧
      lexer.Scanned (literalAt masked.literals) 0 none text code := by
  obtain ⟨code, pieces, hreplace, hslots, hscanned⟩ :=
    exists_scanned_of_segmented hexceeds (segments_segmented lexer.pattern text) #[]
  rw [mask, if_neg (mt reserved_iff.mp (not_reserved_of_mask h)), replaceSegments_eq, hreplace] at h
  obtain rfl := Except.ok.inj h
  refine ⟨code, rfl, ?_, hscanned _ List.prefix_rfl⟩
  rw [hslots, List.range_eq_range']
  simp

end MaskedText

/-- Where a character of what is left comes from, given what stands behind it: from a place where the lexer finds
nothing, or from around a literal. -/
inductive Lexer.Origin (lexer : Lexer) (strips : List Char → List Char → Prop) (value : Nat → List Char)
    (text : List Char) (c : Char) : Template → Prop where
  | plain {index : Nat} {prev : Option Char} {back : List Char} {behind : Template} : c :: back <:+ text →
      lexer.pattern.matchAt index prev (c :: back) = none → Loses strips value back behind →
      Origin lexer strips value text c behind
  | before {index slot : Nat} {prev : Option Char} {found : Match} {rest first last literal after : List Char}
      {more : Template} : found.text ++ rest <:+ text →
      lexer.pattern.matchAt index prev (found.text ++ rest) = some found →
      found.Around (first ++ c :: last) literal after →
      Origin lexer strips value text c (ofCode last ++ .slot slot :: more)
  | after {index : Nat} {prev : Option Char} {found : Match} {rest before literal first last : List Char}
      {more : Template} : found.text ++ rest <:+ text →
      lexer.pattern.matchAt index prev (found.text ++ rest) = some found →
      found.Around before literal (first ++ c :: last) → Origin lexer strips value text c (ofCode last ++ more)

theorem Lexer.Origin.of_suffix {behind : Template} {whole : List Char} (h : text <:+ whole)
    (horigin : lexer.Origin strips value text c behind) : lexer.Origin strips value whole c behind := by
  cases horigin with
  | plain hplace hnone hloses => exact .plain (hplace.trans h) hnone hloses
  | before hplace hfound haround => exact .before (hplace.trans h) hfound haround
  | after hplace hfound haround => exact .after (hplace.trans h) hfound haround

namespace Lexer.Scanned

variable {behind : Template}

theorem loses (hstrips : lexer.StripsBy strips) (h : lexer.Scanned value index prev text code) :
    Loses strips value text code := by
  induction h with
  | done => exact .nil
  | plain _ _ ih => exact ih.code
  | comment hfound hspan hstrip _ ih => exact ih.comment (hstrips _ _ _ _ _ _ hfound hspan hstrip)
  | aside _ haround _ ih =>
    rw [haround.1, List.append_assoc, List.append_assoc]
    exact .code_append _ (.slot (.code_append _ ih))

/-- What is left of a text that looks like no placeholders looks like none. -/
theorem clean (hlexer : lexer.StripsClean) (htext : Unreserved text)
    (h : lexer.Scanned value index prev text code) : code.Clean := by
  induction h with
  | done => exact unreserved_nil
  | plain _ _ ih =>
    obtain ⟨hc, hrest⟩ := unreserved_cons.mp htext
    exact unreserved_append.mpr ⟨hc, ih hrest⟩
  | comment hfound hspan hstrip _ ih =>
    obtain ⟨hfoundText, hrest⟩ := unreserved_append.mp htext
    obtain ⟨before, after, hsplit, -, -⟩ := Match.span_within hfound hspan
    have hcomment := hfoundText.of_subset (List.IsInfix.subset ⟨before, after, hsplit.symm⟩)
    exact clean_append.mpr ⟨clean_ofCode.mpr (hlexer _ _ _ hstrip hcomment), ih hrest⟩
  | aside _ haround _ ih =>
    obtain ⟨hfoundText, hrest⟩ := unreserved_append.mp htext
    rw [haround.1] at hfoundText
    obtain ⟨hfront, hbehind⟩ := unreserved_append.mp hfoundText
    obtain ⟨hbefore, -⟩ := unreserved_append.mp hfront
    refine clean_append.mpr ⟨clean_ofCode.mpr hbefore, ?_⟩
    exact clean_append.mpr ⟨clean_ofCode.mpr hbehind, ih hrest⟩

/-- A character that is left of no comment has an origin. -/
theorem origin (hstrips : lexer.StripsBy strips) (hc : ∀ comment left, strips comment left → c ∉ left)
    (h : lexer.Scanned value index prev text code) (hsuffix : .code c :: behind <:+ code) :
    lexer.Origin strips value text c behind := by
  induction h with
  | done => simp at hsuffix
  | plain hnone hrest ih =>
    rcases List.suffix_cons_iff.mp hsuffix with heq | hsuffix
    · obtain ⟨hhead, rfl⟩ := List.cons.inj heq
      obtain rfl := Token.code.inj hhead
      exact .plain List.suffix_rfl hnone (hrest.loses hstrips)
    · exact (ih hsuffix).of_suffix (List.suffix_cons _ _)
  | comment hfound hspan hstrip _ ih =>
    rcases suffix_append_cases hsuffix with hsuffix | ⟨_, _, hleft, -⟩
    · exact (ih hsuffix).of_suffix (List.suffix_append _ _)
    · exact absurd (mem_of_ofCode_eq hleft) (hc _ _ (hstrips _ _ _ _ _ _ hfound hspan hstrip))
  | @aside _ _ _ _ _ after _ _ hfound haround _ ih =>
    rcases suffix_append_cases hsuffix with hsuffix | ⟨_, _, hbefore, rfl⟩
    · have hrest : .code c :: behind <:+ ofCode after ++ _ :=
        (List.suffix_cons_iff.mp hsuffix).resolve_left fun heq => nomatch (List.cons.inj heq).1
      rcases suffix_append_cases hrest with hsuffix | ⟨_, _, hafter, rfl⟩
      · exact (ih hsuffix).of_suffix (List.suffix_append _ _)
      · obtain ⟨_, _, rfl, rfl⟩ := exists_of_ofCode_eq hafter
        exact .after List.suffix_rfl hfound haround
    · obtain ⟨_, _, rfl, rfl⟩ := exists_of_ofCode_eq hbefore
      exact .before List.suffix_rfl hfound haround

end Lexer.Scanned

/-! ### Lexers that try comments first -/

/-- What is left of a comment is what the lexer makes of a text that its pattern of comments takes. -/
theorem Lexer.StripsBy.of_label {body rest : Pattern} (hpattern : lexer.pattern = (label .comment body <|> rest))
    (hrest : rest.lacks .comment = true)
    (h : ∀ prev comment behind parts index left, body.Takes prev comment behind parts →
      lexer.strip comment index = some left → strips comment left) : lexer.StripsBy strips := by
  intro index prev text found span left hfound hspan hleft
  rw [hpattern] at hfound
  rcases Match.comment_cases hrest hfound with hlabel | hnone
  · obtain ⟨span', _, _, hspan', -, htext, htakes⟩ := Match.exists_label hlabel
    obtain rfl := Option.some.inj (hspan.symm.trans hspan')
    rw [htext] at hleft
    exact h _ _ _ _ _ _ htakes hleft
  · rw [hspan] at hnone
    cases hnone

/-- Where a comment can begin, something is found. -/
theorem Lexer.matchAt_ne_none {body rest : Pattern} {taken behind : List Char}
    (hpattern : lexer.pattern = (label .comment body <|> rest)) (h : body.Takes prev taken behind []) :
    lexer.pattern.matchAt index prev (taken ++ behind) ≠ none := by
  rw [hpattern, Option.ne_none_iff_isSome]
  exact matchAt_isSome_iff.mpr ⟨taken, behind, _, rfl, Or.inl ⟨[], h, rfl⟩⟩

end Minifier
