import Minifier.Proofs.Masking.Leavings
import Minifier.Proofs.Minify.Literals
import Minifier.Proofs.Script.Lexemes

/-!
Removing comments that open with a slash and a star, and comments to the end of a line. What is left of such a comment
is blank and not empty, so what stood apart in the text still stands apart. An opening that is left was therefore in
the text, at a place where the lexer found nothing; and it finds a comment at every opening, if that of a block is
closed anywhere behind.
-/

namespace Minifier

open Pattern Template

/-- What may stand in the place of a comment: its line break with the indentation behind it, or a space. The comment
opens with a slash and a star, or with a mark that is doubled. -/
def LeavesBreak (marks : List Char) (comment left : List Char) : Prop :=
  (['/', '*'] <+: comment ∨ ∃ mark ∈ marks, [mark, mark] <+: comment) ∧ left = Lexer.leaveBreak comment

/-- What is asked of a lexer of such comments. -/
structure Lexer.RemovesComments (lexer : Lexer) (marks : List Char) : Prop where
  exceeds : lexer.pattern.exceeds [] = true
  stripsClean : lexer.StripsClean
  strips : lexer.StripsBy (LeavesBreak marks)
  block : ∀ index prev body rest,
    lexer.pattern.matchAt index prev ('/' :: '*' :: (body ++ '*' :: '/' :: rest)) ≠ none
  line : ∀ mark ∈ marks, ∀ index prev rest, lexer.pattern.matchAt index prev (mark :: mark :: rest) ≠ none
  around : ∀ c ∈ '/' :: marks, lexer.pattern.SparesAround c

variable {lexer : Lexer} {marks : List Char} {text : List Char} {index : Nat} {prev : Option Char}

/-! ### What is left -/

namespace LeavesBreak

variable {comment left : List Char}

theorem ne_nil (h : LeavesBreak marks comment left) : left ≠ [] := h.2 ▸ Lexer.leaveBreak_ne_nil comment

theorem not_mem {c : Char} (hc : Text.isBlank c = false) (h : LeavesBreak marks comment left) : c ∉ left := by
  intro hmem
  have hblank : ∀ c ∈ Lexer.leaveBreak comment, Text.isBlank c = true := Lexer.forall_mem_leaveBreak rfl comment
  rw [hblank c (h.2 ▸ hmem)] at hc
  cases hc

end LeavesBreak

section Left

variable {value : Nat → List Char} {code before behind : Template} {c d : Char}

/-- Two characters that are not blank stand side by side only if they did in the text. -/
theorem Loses.exists_side_by_side (h : Loses (LeavesBreak marks) value text (before ++ .code c :: .code d :: behind))
    (hc : Text.isBlank c = false) (hd : Text.isBlank d = false) :
    ∃ front back, text = front ++ c :: d :: back ∧ Loses (LeavesBreak marks) value front before ∧
      Loses (LeavesBreak marks) value back behind :=
  h.exists_adjacent (fun _ _ => LeavesBreak.ne_nil) (fun _ _ => LeavesBreak.not_mem hc)
    fun _ _ => LeavesBreak.not_mem hd

/-- Where an opening is left, the lexer found nothing. -/
theorem Lexer.RemovesComments.exists_of_suffix (h : lexer.RemovesComments marks)
    (hscanned : lexer.Scanned value index prev text code) (hmark : c ∈ '/' :: marks)
    (hc : Text.isBlank c = false) (hd : Text.isBlank d = false) (hsuffix : .code c :: .code d :: behind <:+ code) :
    ∃ index prev back, lexer.pattern.matchAt index prev (c :: d :: back) = none ∧
      Loses (LeavesBreak marks) value back behind := by
  have horigin := hscanned.origin h.strips (fun _ _ => LeavesBreak.not_mem hc) hsuffix
  generalize hrest : .code d :: behind = rest at horigin
  cases horigin with
  | plain _ hnone hloses =>
    rw [← hrest] at hloses
    obtain ⟨front, back, rfl, hfront, hback⟩ :=
      @Loses.exists_of_code _ _ _ _ _ [] (fun _ _ => LeavesBreak.not_mem hd) hloses
    obtain rfl := hfront.eq_nil fun _ _ => LeavesBreak.ne_nil
    exact ⟨_, _, back, hnone, hback⟩
  | before _ hfound haround => exact absurd (by simp) (h.around c hmark _ _ _ _ _ _ _ hfound haround).1
  | after _ hfound haround => exact absurd (by simp) (h.around c hmark _ _ _ _ _ _ _ hfound haround).2

/-- No opening of a comment to the end of a line is left. -/
theorem Lexer.RemovesComments.not_line (h : lexer.RemovesComments marks)
    (hscanned : lexer.Scanned value index prev text code) (hmark : c ∈ marks) (hc : Text.isBlank c = false) :
    ¬ ofCode [c, c] <:+: code := by
  rintro ⟨before, behind, hcode⟩
  have hsuffix : .code c :: .code c :: behind <:+ code := ⟨before, by simpa [ofCode] using hcode⟩
  obtain ⟨_, _, _, hnone, -⟩ := h.exists_of_suffix hscanned (List.mem_cons_of_mem _ hmark) hc hc hsuffix
  exact h.line c hmark _ _ _ hnone

/-- Nor is the opening of a block that is closed behind it. -/
theorem Lexer.RemovesComments.not_block (h : lexer.RemovesComments marks)
    (hscanned : lexer.Scanned value index prev text code) (hcode : code = before ++ (ofCode ['/', '*'] ++ behind)) :
    ¬ ofCode ['*', '/'] <:+: behind := by
  rintro ⟨inside, rest, hbehind⟩
  obtain ⟨_, _, back, hnone, hback⟩ :=
    h.exists_of_suffix hscanned List.mem_cons_self rfl rfl ⟨before, hcode.symm⟩
  obtain rfl : inside ++ .code '*' :: .code '/' :: rest = behind := by simpa [ofCode] using hbehind
  obtain ⟨body, more, rfl, -, -⟩ := hback.exists_side_by_side rfl rfl
  exact h.block _ _ _ _ hnone

end Left

/-! ### The lexers -/

section Lexers

variable {body rest : Pattern}

/-- A comment to the end of a line can end anywhere, behind its opening at the least. -/
theorem takes_lineComment (opening : String) (behind : List Char) (prev : Option Char) :
    (Lexer.lineComment opening).Takes prev opening.toList behind [] :=
  ⟨opening.toList, [], [], [], ⟨opening.toList, [], [], [], (takes_word opening).mpr ⟨rfl, rfl⟩, ⟨by simp, rfl⟩,
    by simp, rfl⟩, Or.inr ⟨rfl, rfl⟩, by simp, rfl⟩

/-- A comment of a block, or one to the end of a line, opens as it should. -/
theorem opens_of_takes {mark : Char} {taken behind : List Char} {parts : Parts}
    (hmark : mark ∈ marks)
    (h : (alt Lexer.blockComment (Lexer.lineComment (String.ofList [mark, mark]))).Takes prev taken behind parts) :
    ['/', '*'] <+: taken ∨ ∃ mark ∈ marks, [mark, mark] <+: taken := by
  rcases h with hblock | hline
  · exact Or.inl (opensWith_blockComment _ _ _ _ hblock)
  · have hopens := opensWith_lineComment (String.ofList [mark, mark]) _ _ _ _ hline
    rw [String.toList_ofList] at hopens
    exact Or.inr ⟨mark, hmark, hopens⟩

/-- A lexer tries comments first: blocks, and then those to the end of a line. -/
theorem removesComments_of_mark {mark : Char}
    (hpattern : lexer.pattern =
      (label .comment (alt Lexer.blockComment (Lexer.lineComment (String.ofList [mark, mark]))) <|> rest))
    (hexceeds : lexer.pattern.exceeds [] = true) (hclean : lexer.StripsClean) (hrest : rest.lacks .comment = true)
    (hstrip : ∀ comment index left, (['/', '*'] <+: comment ∨ ∃ mark' ∈ [mark], [mark', mark'] <+: comment) →
      lexer.strip comment index = some left → left = Lexer.leaveBreak comment)
    (haround : ∀ c ∈ ['/', mark], rest.SparesAround c) : lexer.RemovesComments [mark] where
  exceeds := hexceeds
  stripsClean := hclean
  strips := .of_label hpattern hrest fun _ _ _ _ _ _ htakes hleft =>
    have hopens := opens_of_takes List.mem_cons_self htakes
    ⟨hopens, hstrip _ _ _ hopens hleft⟩
  block index prev body rest' := by
    have htakes : (alt Lexer.blockComment (Lexer.lineComment (String.ofList [mark, mark]))).Takes prev
        ("/*".toList ++ (body ++ "*/".toList)) rest' [] :=
      Or.inl (takes_enclosed.mpr ⟨⟨body, rfl⟩, rfl⟩)
    simpa using Lexer.matchAt_ne_none hpattern htakes
  line := by
    intro c hc index prev rest'
    obtain rfl := List.mem_singleton.mp hc
    have htakes : (alt Lexer.blockComment (Lexer.lineComment (String.ofList [c, c]))).Takes prev
        (String.ofList [c, c]).toList rest' [] := Or.inr (takes_lineComment ..)
    simpa using Lexer.matchAt_ne_none hpattern htakes
  around c hc := hpattern ▸ .alt (.comment _) (haround c hc)

theorem Script.pattern_lexer :
    Script.lexer.pattern = (label .comment (alt Lexer.blockComment (Lexer.lineComment (String.ofList ['/', '/']))) <|>
      (Lexer.quoted <|> Script.template <|> Script.regexLiteral)) := rfl

theorem Script.sparesAround_regexLiteral : Script.regexLiteral.SparesAround '/' :=
  @Pattern.SparesAround.of_label '/' Script.leadPattern .empty Script.regexBody (by decide) rfl rfl

theorem Script.removesComments : Script.lexer.RemovesComments ['/'] :=
  removesComments_of_mark Script.pattern_lexer rfl
    (Lexer.stripsClean_of_stripAll rfl) rfl (fun _ _ _ _ hleft => (Option.some.inj hleft).symm) fun c hc => by
      obtain rfl : c = '/' := by simpa using hc
      exact .alt (.of_lacks rfl) (.alt (.of_lacks rfl) Script.sparesAround_regexLiteral)

theorem Style.pattern_lexer :
    Style.lexer.pattern = (label .comment Lexer.blockComment <|> (Lexer.quoted <|> Style.address)) := rfl

theorem Style.sparesAround_address : Style.address.SparesAround '/' :=
  @Pattern.SparesAround.of_label '/' (wordAnyCase "url" ++ char '(') (char ')') _ (by decide) rfl rfl

theorem Style.removesComments : Style.lexer.RemovesComments [] where
  exceeds := rfl
  stripsClean := Lexer.stripsClean_of_stripAll rfl
  strips := .of_label Style.pattern_lexer rfl fun _ _ _ _ _ _ htakes hleft =>
    ⟨Or.inl (opensWith_blockComment _ _ _ _ htakes), (Option.some.inj hleft).symm⟩
  block index prev body rest := by
    have htakes : Lexer.blockComment.Takes prev ("/*".toList ++ (body ++ "*/".toList)) rest [] :=
      takes_enclosed.mpr ⟨⟨body, rfl⟩, rfl⟩
    simpa using Lexer.matchAt_ne_none Style.pattern_lexer htakes
  line := nofun
  around c hc := by
    obtain rfl : c = '/' := by simpa using hc
    exact .alt (.comment _) (.alt (.of_lacks rfl) Style.sparesAround_address)

/-- The line that names the program which runs a file is no comment of these. -/
theorem Generic.eq_leaveBreak_of_strip {comment left : List Char} {index : Nat} (hhash : '#' ∉ marks)
    (hopens : ['/', '*'] <+: comment ∨ ∃ mark ∈ marks, [mark, mark] <+: comment)
    (hleft : Generic.stripButShebang comment index = some left) : left = Lexer.leaveBreak comment := by
  have hnamed : ¬ (index = 0 ∧ ['#', '!'].isPrefixOf comment) := by
    rw [List.isPrefixOf_iff_prefix]
    rintro ⟨-, front, rfl⟩
    rcases hopens with ⟨back, hback⟩ | ⟨mark, hmark, back, hback⟩
    · cases hback
    · exact hhash ((List.cons.inj hback).1 ▸ hmark)
  rw [Generic.stripButShebang, if_neg hnamed] at hleft
  exact (Option.some.inj hleft).symm

theorem Generic.pattern_lexer_cFamily :
    (Generic.lexer .cFamily).pattern =
      (label .comment (alt Lexer.blockComment (Lexer.lineComment (String.ofList ['/', '/']))) <|> Generic.literals) :=
  rfl

theorem Generic.pattern_lexer_sql :
    (Generic.lexer .sql).pattern =
      (label .comment (alt Lexer.blockComment (Lexer.lineComment (String.ofList ['-', '-']))) <|> Generic.literals) :=
  rfl

theorem Generic.removesComments_cFamily : (Generic.lexer .cFamily).RemovesComments ['/'] :=
  removesComments_of_mark pattern_lexer_cFamily rfl (stripsClean_of_stripButShebang rfl) rfl
    (fun _ _ _ => eq_leaveBreak_of_strip (by decide)) fun _ _ => .of_lacks rfl

theorem Generic.removesComments_sql : (Generic.lexer .sql).RemovesComments ['-'] :=
  removesComments_of_mark pattern_lexer_sql rfl (stripsClean_of_stripButShebang rfl) rfl
    (fun _ _ _ => eq_leaveBreak_of_strip (by decide)) fun _ _ => .of_lacks rfl

end Lexers

/-- The lexers whose comments open with a slash and a star. With each stand the marks that open a comment to the end
of a line where they are doubled. -/
def slashStarLexers : List (Lexer × List Char) :=
  [(Script.lexer, ['/']), (Style.lexer, []), (Generic.lexer .cFamily, ['/']), (Generic.lexer .sql, ['-'])]

theorem removesComments_of_mem (h : (lexer, marks) ∈ slashStarLexers) : lexer.RemovesComments marks := by
  simp only [slashStarLexers, List.mem_cons, Prod.mk.injEq, List.not_mem_nil, or_false] at h
  obtain ⟨rfl, rfl⟩ | ⟨rfl, rfl⟩ | ⟨rfl, rfl⟩ | ⟨rfl, rfl⟩ := h
  · exact Script.removesComments
  · exact Style.removesComments
  · exact Generic.removesComments_cFamily
  · exact Generic.removesComments_sql

theorem marks_subset (h : (lexer, marks) ∈ slashStarLexers) : marks ⊆ ['/', '-'] := by
  simp only [slashStarLexers, List.mem_cons, Prod.mk.injEq, List.not_mem_nil, or_false] at h
  obtain ⟨-, rfl⟩ | ⟨-, rfl⟩ | ⟨-, rfl⟩ | ⟨-, rfl⟩ := h <;> decide

/-- A doubled mark is no part of a placeholder. -/
theorem clear_of_mem_marks {mark : Char} (h : (lexer, marks) ∈ slashStarLexers) (hmark : mark ∈ marks) :
    Text.isBlank mark = false ∧ Clear [mark, mark] := by
  obtain rfl | rfl : mark = '/' ∨ mark = '-' := by simpa using marks_subset h hmark
  · exact ⟨rfl, by decide, _, List.mem_cons_self, rfl⟩
  · exact ⟨rfl, by decide, _, List.mem_cons_self, rfl⟩

/-- **Removing comments leaves none and joins nothing.** Every text without the characters that mark placeholders can be
scanned. What is left holds no opening of a comment to the end of a line, and no opening of a block that is closed
anywhere behind it. It is code and the places of the literals in order; what stands in the place of a comment is blank,
so two characters of the code that are not blank stand side by side only where they did in the text. -/
theorem comments_removed (hlexer : (lexer, marks) ∈ slashStarLexers) (htext : Unreserved text) :
    ∃ masked code, MaskedText.mask lexer true text = .ok masked ∧
      (∀ mark ∈ marks, ¬ [mark, mark] <:+: masked.text) ∧
      (∀ before behind, masked.text = before ++ (['/', '*'] ++ behind) → ¬ ['*', '/'] <:+: behind) ∧
      code.render = masked.text ∧ code.slots = List.range masked.literals.size ∧ code.Clean ∧
      Loses (LeavesBreak marks) (literalAt masked.literals) text code ∧
      ∀ before behind c d, code = before ++ .code c :: .code d :: behind → Text.isBlank c = false →
        Text.isBlank d = false → ∃ front back, text = front ++ c :: d :: back ∧
          Loses (LeavesBreak marks) (literalAt masked.literals) front before ∧
          Loses (LeavesBreak marks) (literalAt masked.literals) back behind := by
  have hremoves := removesComments_of_mem hlexer
  obtain ⟨masked, hmask⟩ := MaskedText.exists_mask lexer true (not_or.mpr htext)
  obtain ⟨code, hrender, hslots, hscanned⟩ := MaskedText.exists_scanned_of_mask hremoves.exceeds hmask
  have hloses := hscanned.loses hremoves.strips
  refine ⟨masked, code, hmask, ?line, ?block, hrender, hslots, hscanned.clean hremoves.stripsClean htext, hloses,
    fun before behind c d hcode hc hd => (hcode ▸ hloses).exists_side_by_side hc hd⟩
  case line =>
    rintro mark hmark ⟨before, behind, hinfix⟩
    rw [List.append_assoc, ← hrender] at hinfix
    obtain ⟨hblank, hclear⟩ := clear_of_mem_marks hlexer hmark
    obtain ⟨first, last, rfl, -⟩ := exists_split hinfix.symm hclear
    exact hremoves.not_line hscanned hmark hblank ⟨first, last, rfl⟩
  case block =>
    rintro before behind htext' ⟨inside, rest, rfl⟩
    rw [← hrender] at htext'
    obtain ⟨first, last, rfl, -, hlast⟩ := exists_split htext' ⟨by decide, _, List.mem_cons_self, rfl⟩
    rw [List.append_assoc] at hlast
    obtain ⟨first', last', rfl, -⟩ := exists_split hlast ⟨by decide, _, List.mem_cons_self, rfl⟩
    rw [List.append_assoc] at hscanned
    exact hremoves.not_block hscanned rfl ⟨first', last', rfl⟩

/-- Slashes and stars that meet where comments were do not open one. -/
theorem comments_removed_at_seams :
    (Script.lexer, ['/']) ∈ slashStarLexers ∧ Unreserved "a/*1*//*2*//b*/c=/[/*]//**//d//e\n  /f/".toList ∧
      MaskedText.mask Script.lexer true "a/*1*//*2*//b*/c=/[/*]//**//d//e\n  /f/".toList =
        .ok ⟨"a  /b*/c=\ue0000\ue001 /d\n  /f/".toList, #["/[/*]/".toList]⟩ ∧
      ¬ ['/', '/'] <:+: "a  /b*/c=\ue0000\ue001 /d\n  /f/".toList := by
  have hlexer : (Script.lexer, ['/']) ∈ slashStarLexers := List.mem_cons_self
  have htext : Unreserved "a/*1*//*2*//b*/c=/[/*]//**//d//e\n  /f/".toList := by decide
  have hmask : MaskedText.mask Script.lexer true "a/*1*//*2*//b*/c=/[/*]//**//d//e\n  /f/".toList =
      .ok ⟨"a  /b*/c=\ue0000\ue001 /d\n  /f/".toList, #["/[/*]/".toList]⟩ := by decide +kernel
  obtain ⟨masked, -, hmasked, hline, -⟩ := comments_removed hlexer htext
  obtain rfl := Except.ok.inj (hmask.symm.trans hmasked)
  exact ⟨hlexer, htext, hmask, hline '/' List.mem_cons_self⟩

end Minifier
