import Minifier.Proofs.Masking.Leavings
import Minifier.Proofs.Minify.Literals

/-!
Removing comments of markup. They go without a trace, so what stood apart in the text may stand side by side in what is
left: an opening can be put together around a comment that goes. That is the one way in which a complete comment is
left, apart from an opening in the tag of an element whose body is set aside. A closing is put together as well, but
where an opening stood in the text, the comment would have gone with the first closing behind it.
-/

namespace Minifier.Markup

open Pattern Template

variable {lexer : Lexer} {text : List Char} {value : Nat → List Char}

/-- A comment that the lexer takes off, and the nothing it leaves. -/
def LeavesNothing (lexer : Lexer) (comment left : List Char) : Prop :=
  (∃ inside, comment = "<!--".toList ++ (inside ++ "-->".toList)) ∧ (∃ index, lexer.strip comment index = some []) ∧
    left = []

/-- The opening tag of an element whose body passes through untouched. -/
def IsVerbatimOpening (opening : List Char) : Prop :=
  ∃ tag ∈ verbatimTags, ∃ name inside, opening = '<' :: (name ++ (inside ++ ['>'])) ∧ Spells tag name ∧ '>' ∉ inside

/-! ### The lexers -/

theorem pattern_htmlLexer : htmlLexer.pattern =
    (label .comment Lexer.markupComment <|> (choice (verbatimTags.map verbatim) <|> attributeValue)) := rfl

theorem pattern_xmlLexer : xmlLexer.pattern =
    (label .comment Lexer.markupComment <|> (characterData <|> attributeValue)) := rfl

theorem takes_markupComment {prev : Option Char} {taken behind : List Char} {parts : Parts} :
    Lexer.markupComment.Takes prev taken behind parts ↔
      (∃ inside, taken = "<!--".toList ++ (inside ++ "-->".toList)) ∧ parts = [] := takes_enclosed

theorem stripsBy_htmlLexer : htmlLexer.StripsBy (LeavesNothing htmlLexer) := by
  refine .of_label pattern_htmlLexer (by decide) fun _ comment _ _ index left htakes hleft => ?_
  have hstrip : stripUnconditional comment index = some left := hleft
  rw [stripUnconditional] at hstrip
  split at hstrip
  · cases hstrip
  · obtain rfl := Option.some.inj hstrip
    exact ⟨(takes_markupComment.mp htakes).1, ⟨index, hleft⟩, rfl⟩

theorem stripsBy_xmlLexer : xmlLexer.StripsBy (LeavesNothing xmlLexer) := by
  refine .of_label pattern_xmlLexer (by decide) fun _ comment _ _ index left htakes hleft => ?_
  obtain rfl := Option.some.inj hleft
  exact ⟨(takes_markupComment.mp htakes).1, ⟨index, hleft⟩, rfl⟩

/-! ### What stands around literals -/

/-- What stands around a value or a body: nothing that a tag opens with, or the tags of the element. -/
def AroundBody (before after : List Char) : Prop :=
  '<' ∉ before ∧ '<' ∉ after ∨
    IsVerbatimOpening before ∧ ∃ rest, after = '<' :: '/' :: rest ∧ '<' ∉ rest

theorem aroundBody_nil : AroundBody [] [] := Or.inl ⟨List.not_mem_nil, List.not_mem_nil⟩

theorem leavesAround_attributeValue : attributeValue.LeavesAround AroundBody := by
  have hspares : attributeValue.SparesAround '<' :=
    @Pattern.SparesAround.of_label '<' (char '=' ++ run Text.isBlank) .empty _ (by decide) rfl rfl
  exact fun index prev text found before literal after hfound haround =>
    Or.inl (hspares index prev text found before literal after hfound haround)

def verbatimOpening (tag : String) : Pattern :=
  char '<' ++ wordAnyCase tag ++ wordEdge ++ run (Class.except ['>']) ++ char '>'

def verbatimClosing (tag : String) : Pattern :=
  word "</" ++ (wordAnyCase tag ++ run Text.isBlank ++ char '>')

theorem matchAt_verbatim (tag : String) : (verbatim tag).matchAt =
    (verbatimOpening tag ++ label .literal (shortRun Class.any) ++ verbatimClosing tag).matchAt := rfl

theorem leavesAround_verbatim {tag : String} (htag : tag ∈ verbatimTags) : (verbatim tag).LeavesAround AroundBody := by
  rw [LeavesAround, matchAt_verbatim]
  refine LeavesAround.of_label aroundBody_nil ?_ ?_
  · simp only [verbatimTags, List.mem_cons, List.not_mem_nil, or_false] at htag
    rcases htag with rfl | rfl | rfl | rfl <;> decide
  intro prev prev' before inside after behind parts parts' hopening hclosing
  refine Or.inr ⟨⟨tag, htag, ?_⟩, ?_⟩
  · obtain ⟨_, _, _, _, ⟨_, within, _, _, ⟨_, _, _, _, ⟨_, name, _, _, hopen, hname, rfl, -⟩, ⟨-, rfl, -⟩, rfl, -⟩,
      ⟨hwithin, -⟩, rfl, -⟩, hclose, rfl, -⟩ := hopening
    obtain ⟨rfl, -⟩ := (takes_char '<').mp hopen
    obtain ⟨rfl, -⟩ := (takes_char '>').mp hclose
    refine ⟨name, within, by simp, (takes_wordAnyCase.mp hname).1, fun hmem => ?_⟩
    exact absurd (hwithin _ hmem) (by decide)
  · obtain ⟨_, rest, _, _, hopen, hrest, rfl, -⟩ := hclosing
    obtain ⟨rfl, -⟩ := (takes_word "</").mp hopen
    refine ⟨rest, rfl, hrest.not_mem ?_⟩
    simp only [verbatimTags, List.mem_cons, List.not_mem_nil, or_false] at htag
    rcases htag with rfl | rfl | rfl | rfl <;> decide

theorem leavesAround_htmlLexer : htmlLexer.pattern.LeavesAround AroundBody :=
  .alt (.comment aroundBody_nil _) (.alt (.alt (leavesAround_verbatim (by decide))
    (.alt (leavesAround_verbatim (by decide)) (.alt (leavesAround_verbatim (by decide))
      (leavesAround_verbatim (by decide))))) leavesAround_attributeValue)

theorem sparesAround_xmlLexer : xmlLexer.pattern.SparesAround '<' :=
  .alt (.comment _) (.alt (.of_lacks rfl)
    (@Pattern.SparesAround.of_label '<' (char '=' ++ run Text.isBlank) .empty _ (by decide) rfl rfl))

/-! ### What is left -/

/-- An opening that is put together from its two parts around a comment. -/
def PutTogether (lexer : Lexer) (value : Nat → List Char) (text : List Char) (behind : Template) : Prop :=
  ∃ front part more comment back, text = front ++ (part ++ (comment ++ back)) ∧ part ++ more = "<!--".toList ∧
    part ≠ [] ∧ more ≠ [] ∧ LeavesNothing lexer comment [] ∧
    Loses (LeavesNothing lexer) value back (ofCode more ++ behind)

/-- An opening in the tag of an element whose body is set aside. -/
def InVerbatimOpening (text : List Char) : Prop :=
  ∃ front opening back, text = front ++ (opening ++ back) ∧ IsVerbatimOpening opening ∧ "<!--".toList <:+: opening

theorem not_mem_of_leavesNothing {comment left : List Char} {c : Char} (h : LeavesNothing lexer comment left) :
    c ∉ left := h.2.2 ▸ List.not_mem_nil

theorem infix_of_leavesNothing {comment left : List Char} (h : LeavesNothing lexer comment left) :
    "-->".toList <:+: comment := by
  obtain ⟨⟨inside, rfl⟩, -⟩ := h
  exact ⟨"<!--".toList ++ inside, [], by simp⟩

/-- Where the lexer finds no comment though an opening stands there, no closing is left behind it. -/
theorem not_closed_of_none {rest : Pattern} {index : Nat} {prev : Option Char} {back : List Char} {code : Template}
    (hpattern : lexer.pattern = (label .comment Lexer.markupComment <|> rest))
    (hnone : lexer.pattern.matchAt index prev ("<!--".toList ++ back) = none)
    (hback : Loses (LeavesNothing lexer) value back code) : ¬ ofCode "-->".toList <:+: code := by
  rintro ⟨before, behind, rfl⟩
  rw [List.append_assoc] at hback
  obtain ⟨inside, after, rfl⟩ := hback.infix_of_word (fun _ _ h => h.2.2) fun _ _ => infix_of_leavesNothing
  have htakes : Lexer.markupComment.Takes prev ("<!--".toList ++ (inside ++ "-->".toList)) after [] :=
    takes_markupComment.mpr ⟨⟨inside, rfl⟩, rfl⟩
  have hfound := @Lexer.matchAt_ne_none _ index _ _ _ _ _ hpattern htakes
  exact hfound (by simpa using hnone)

/-- Code in front of a slot holds a word that begins it. -/
theorem prefix_of_ofCode_eq {word last : List Char} {slot : Nat} {code more : Template}
    (h : ofCode word ++ code = ofCode last ++ .slot slot :: more) : word <+: last := by
  induction word generalizing last with
  | nil => exact List.nil_prefix
  | cons c word ih =>
    cases last with
    | nil => cases (List.cons.inj h).1
    | cons d last =>
      obtain ⟨hhead, hrest⟩ := List.cons.inj h
      obtain rfl := Token.code.inj hhead
      exact List.cons_prefix_cons.mpr ⟨rfl, ih hrest⟩

/-- An opening that is left, with a closing behind it, is put together or stands in a tag. -/
theorem putTogether_or_inVerbatimOpening {rest : Pattern} {code behind : Template} {index : Nat} {prev : Option Char}
    (hpattern : lexer.pattern = (label .comment Lexer.markupComment <|> rest))
    (hstrips : lexer.StripsBy (LeavesNothing lexer)) (haround : lexer.pattern.LeavesAround AroundBody)
    (hscanned : lexer.Scanned value index prev text code) (hopening : ofCode "<!--".toList ++ behind <:+ code)
    (hclosing : ofCode "-->".toList <:+: behind) :
    PutTogether lexer value text behind ∨ ¬ lexer.pattern.SparesAround '<' ∧ InVerbatimOpening text := by
  have hsuffix : .code '<' :: (ofCode "!--".toList ++ behind) <:+ code := hopening
  have horigin := hscanned.origin hstrips (fun _ _ => not_mem_of_leavesNothing) hsuffix
  generalize hbehind : ofCode "!--".toList ++ behind = onward at horigin
  cases horigin with
  | plain hplace hnone hloses =>
    subst hbehind
    rcases hloses.word_cases fun _ _ h => h.2.2 with
      ⟨back, rfl, hback⟩ | ⟨part, more, comment, back, hparts, hmore, rfl, hcomment, hback⟩
    · exact absurd hclosing (not_closed_of_none hpattern hnone hback)
    · obtain ⟨front, rfl⟩ := hplace
      exact Or.inl ⟨front, '<' :: part, more, comment, back, rfl, congrArg ('<' :: ·) hparts.symm,
        List.cons_ne_nil _ _, hmore, hcomment, hback⟩
  | @before _ _ _ found rest' first last literal after _ hplace hfound hset =>
    refine Or.inr ⟨fun hspares => ?_, ?_⟩
    · exact (hspares _ _ _ _ _ _ _ hfound hset).1 (by simp)
    rcases haround _ _ _ _ _ _ _ hfound hset with ⟨hnot, -⟩ | ⟨htag, -⟩
    · exact absurd (by simp) hnot
    · obtain ⟨front, rfl⟩ := hplace
      obtain ⟨onward, rfl⟩ := prefix_of_ofCode_eq hbehind
      refine ⟨front, _, literal ++ after ++ rest', ?_, htag, first, onward, by simp⟩
      rw [hset.1]
      simp
  | @after _ _ _ _ before literal first last _ hplace hfound hset =>
    -- The closing tag has one such character, and a slash behind it.
    rcases haround _ _ _ _ _ _ _ hfound hset with ⟨-, hnot⟩ | ⟨-, rest, hrest, hnot⟩
    · exact absurd (by simp) hnot
    · cases first with
      | nil =>
        obtain ⟨-, rfl⟩ := List.cons.inj hrest
        exact absurd (List.cons.inj hbehind).1 (by decide)
      | cons _ first =>
        have hmem : '<' ∈ '/' :: rest := (List.cons.inj hrest).2 ▸ by simp
        exact absurd ((List.mem_cons.mp hmem).resolve_left (by decide)) hnot

/-- **What is left when comments of markup go.** Every text without the characters that mark placeholders can be
scanned, and what is left are the characters outside the comments, in order, with the literals set aside. A complete
comment in it has an opening that was not there before, put together from `<`, `<!` or `<!-` and what stood behind a
comment; or, in HTML, one that the text has inside the tag of an element whose body is set aside. -/
theorem comment_left_cases (hlexer : lexer = htmlLexer ∨ lexer = xmlLexer) (htext : Unreserved text) :
    ∃ masked code, MaskedText.mask lexer true text = .ok masked ∧ code.render = masked.text ∧
      code.slots = List.range masked.literals.size ∧
      Loses (LeavesNothing lexer) (literalAt masked.literals) text code ∧
      ∀ before body behind, masked.text = before ++ ("<!--".toList ++ (body ++ ("-->".toList ++ behind))) →
        ∃ rest : Template, rest.render = body ++ ("-->".toList ++ behind) ∧
          (PutTogether lexer (literalAt masked.literals) text rest ∨
            lexer = htmlLexer ∧ InVerbatimOpening text) := by
  obtain ⟨masked, hmask⟩ := MaskedText.exists_mask lexer true (not_or.mpr htext)
  have hexceeds : lexer.pattern.exceeds [] = true := by rcases hlexer with rfl | rfl <;> decide
  have hstrips : lexer.StripsBy (LeavesNothing lexer) := by
    rcases hlexer with rfl | rfl
    · exact stripsBy_htmlLexer
    · exact stripsBy_xmlLexer
  obtain ⟨code, hrender, hslots, hscanned⟩ := MaskedText.exists_scanned_of_mask hexceeds hmask
  refine ⟨masked, code, hmask, hrender, hslots, hscanned.loses hstrips, fun before body behind hleft => ?_⟩
  rw [← hrender] at hleft
  obtain ⟨first, last, rfl, -, hlast⟩ := exists_split hleft ⟨by decide, '<', by decide, rfl⟩
  obtain ⟨inside, after, rfl, -⟩ := exists_split hlast ⟨by decide, '>', by decide, rfl⟩
  refine ⟨_, hlast, ?_⟩
  have hopening : ofCode "<!--".toList ++ (inside ++ ofCode "-->".toList ++ after) <:+
      first ++ ofCode "<!--".toList ++ (inside ++ ofCode "-->".toList ++ after) := ⟨first, by simp⟩
  have hclosing : ofCode "-->".toList <:+: inside ++ ofCode "-->".toList ++ after := ⟨inside, after, rfl⟩
  rcases hlexer with rfl | rfl
  · exact (putTogether_or_inVerbatimOpening pattern_htmlLexer hstrips leavesAround_htmlLexer hscanned hopening
      hclosing).imp_right fun h => ⟨rfl, h.2⟩
  · have haround : xmlLexer.pattern.LeavesAround AroundBody := fun _ _ _ _ _ _ _ hfound hset =>
      Or.inl (sparesAround_xmlLexer _ _ _ _ _ _ _ hfound hset)
    exact (putTogether_or_inVerbatimOpening pattern_xmlLexer hstrips haround hscanned hopening hclosing).imp_right
      fun h => absurd sparesAround_xmlLexer h.1

/-- The brackets of a text and what stands behind a comment become a comment. -/
theorem comment_left_cases_bracket :
    Unreserved "<p>a</p><<!-- x -->!-- y --><p>b</p>".toList ∧
      ∃ rest : Template, rest.render = " y --><p>b</p>".toList ∧
        (PutTogether htmlLexer (literalAt #[]) "<p>a</p><<!-- x -->!-- y --><p>b</p>".toList rest ∨
          htmlLexer = htmlLexer ∧ InVerbatimOpening "<p>a</p><<!-- x -->!-- y --><p>b</p>".toList) := by
  have htext : Unreserved "<p>a</p><<!-- x -->!-- y --><p>b</p>".toList := by decide
  have hmask : MaskedText.mask htmlLexer true "<p>a</p><<!-- x -->!-- y --><p>b</p>".toList =
      .ok ⟨"<p>a</p><!-- y --><p>b</p>".toList, #[]⟩ := by decide +kernel
  obtain ⟨masked, _, hmasked, -, -, -, hleft⟩ := comment_left_cases (Or.inl rfl) htext
  obtain rfl := Except.ok.inj (hmask.symm.trans hmasked)
  exact ⟨htext, hleft "<p>a</p>".toList " y ".toList "<p>b</p>".toList (by decide)⟩

/-- A comment behind a bracket goes, and text that a browser shows becomes a comment. -/
theorem comment_left_between_brackets :
    (∃ masked, MaskedText.mask htmlLexer true "<p>a</p><<!-- x -->!-- y --><p>b</p>".toList = .ok masked ∧
      masked = ⟨"<p>a</p>".toList ++ ("<!--".toList ++ (" y ".toList ++ ("-->".toList ++ "<p>b</p>".toList))), #[]⟩) ∧
    ∃ masked, MaskedText.mask xmlLexer true "<a><?p <<!-- x -->!-- y --> ?></a>".toList = .ok masked ∧
      masked = ⟨"<a><?p ".toList ++ ("<!--".toList ++ (" y ".toList ++ ("-->".toList ++ " ?></a>".toList))), #[]⟩ := by
  constructor
  · exact ⟨_, by decide +kernel, rfl⟩
  · exact ⟨_, by decide +kernel, rfl⟩

end Minifier.Markup
