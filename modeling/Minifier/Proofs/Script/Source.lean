import Mathlib.Data.List.DropRight
import Minifier.Proofs.Masking.Template
import Minifier.Proofs.Pattern.Enclosed
import Minifier.Script.Basic

/-!
Scripts as their authors read them: code, and in it comments, strings, templates and regular expressions. Written
out, the pieces of a source make up its text, and nothing in the text shows where they begin. A source is plain when
no piece can be taken for another one. Its code holds no quote and no opening of a comment; a regular expression stands
where the characters in front of it say that an expression follows; and where they do so in front of a division, there
is no second slash in the line that could end a regular expression.

Templates are read as a whole, with what is substituted in them, so none may stand within another one.
-/

namespace Minifier.Script

/-! ### Regular expressions -/

/-- What may stand between the slashes of a regular expression: plain characters, escaped ones, and classes of
characters, in which a slash closes nothing. -/
inductive RegexUnits : List Char → Prop where
  | nil : RegexUnits []
  | plain {c : Char} {rest : List Char} : c ∉ ['/', '\\', '\n', '['] → RegexUnits rest →
      RegexUnits (c :: rest)
  | escaped {c : Char} {rest : List Char} : c ≠ '\n' → RegexUnits rest → RegexUnits ('\\' :: c :: rest)
  | among {inside rest : List Char} : EscapedUnits (Class.except [']', '\\', '\n']) Class.inLine inside →
      RegexUnits rest → RegexUnits ('[' :: (inside ++ ']' :: rest))

namespace RegexUnits

variable {text text' behind behind' : List Char}

theorem append (h : RegexUnits text) (h' : RegexUnits text') : RegexUnits (text ++ text') := by
  induction h with
  | nil => exact h'
  | plain hc _ ih => exact .plain hc ih
  | escaped hc _ ih => exact .escaped hc ih
  | among hinside _ ih =>
    rw [List.cons_append, List.append_assoc, List.cons_append]
    exact .among hinside ih

/-- A regular expression ends at the first slash that is neither escaped nor in a class. -/
theorem eq_of_append_eq (h : RegexUnits text) (h' : RegexUnits text')
    (heq : text ++ '/' :: behind = text' ++ '/' :: behind') : text = text' ∧ behind = behind' := by
  induction h generalizing text' with
  | nil => cases h' <;> grind
  | plain hc _ ih => cases h' <;> grind
  | escaped _ _ ih => cases h' <;> grind
  | among hinside _ ih =>
    cases h' with
    | among hinside' hrest =>
      simp only [List.cons_append, List.append_assoc] at heq
      obtain ⟨rfl, hmore⟩ := hinside.eq_of_append_eq (by decide) (by decide) hinside' (List.cons.inj heq).2
      obtain ⟨rfl, hbehind⟩ := ih hrest hmore
      exact ⟨rfl, hbehind⟩
    | _ => grind

/-- What begins a regular expression begins no comment. -/
theorem exists_cons (h : RegexUnits text) (hhead : text.head? ∉ [none, some '*']) :
    ∃ c rest, text = c :: rest ∧ c ∉ ['/', '*'] := by
  cases h with
  | nil => exact absurd List.mem_cons_self hhead
  | @plain c rest hc _ => exact ⟨c, rest, rfl, by simp_all⟩
  | @escaped c rest _ _ => exact ⟨_, _, rfl, by decide⟩
  | @among inside rest _ _ => exact ⟨_, _, rfl, by decide⟩

end RegexUnits

/-! ### Where an expression follows -/

/-- The blanks that are passed over in front of an expression. -/
def leadBlanks : List Char := [' ', '\t', '\r', '\n']

/-- The marks that an expression follows. -/
def leadMarks : List Char := ['(', ',', '=', ':', '[', '!', '&', '|', '?', '{', '}', ';']

/-- The words that an expression follows. -/
def leadWords : List String :=
  ["return", "typeof", "instanceof", "in", "of", "new", "delete", "void", "throw", "case", "do", "else", "yield",
    "await"]

/-- Whether an expression may follow a text, blanks apart: nothing at the beginning of a line, a mark, or a word. -/
def isFront (prev : Option Char) (front : List Char) : Bool :=
  front.isEmpty && (prev.isNone || prev == some '\n') ||
    leadMarks.any (front == [·]) ||
    leadWords.any (front == ·.toList) && !prev.any Text.isWord

/-- Whether an expression may follow a text. -/
def leads (prev : Option Char) (lead : List Char) : Bool := isFront prev (lead.rdropWhile leadBlanks.contains)

/-- Whether a text begins with what an expression may follow, and then with a regular expression. -/
def StartsRegex (prev : Option Char) (text : List Char) : Prop :=
  ∃ lead body rest, text = lead ++ '/' :: (body ++ '/' :: rest) ∧ leads prev lead = true ∧ RegexUnits body ∧
    body.head? ∉ [none, some '*']

/-- Whether a text begins with what an expression may follow, and then with a slash that opens no comment. -/
def mayStartRegex (prev : Option Char) (text : List Char) : Bool :=
  match text.dropWhile (· != '/') with
  | _ :: c :: _ => leads prev (text.takeWhile (· != '/')) && !(c == '/' || c == '*')
  | _ => false

/-- Whether a character neither is a quote nor has a part in the opening of a comment. -/
def isQuietChar (c : Char) : Bool := !isQuote c && c != '/' && c != '*'

theorem isQuietChar_iff {c : Char} : isQuietChar c = true ↔ isQuote c = false ∧ c ≠ '/' ∧ c ≠ '*' := by
  simp [isQuietChar, and_assoc]

/-- Text in which nothing opens a literal or a comment, or could go on opening one. -/
def IsQuiet (text : List Char) : Prop := ∀ c ∈ text, isQuietChar c = true

section Leads

variable {prev : Option Char} {front lead rest : List Char} {c : Char}

theorem isFront_iff : isFront prev front = true ↔
    front = [] ∧ (prev = none ∨ prev = some '\n') ∨ (∃ c ∈ leadMarks, front = [c]) ∨
      (∃ word ∈ leadWords, front = word.toList) ∧ prev.any Text.isWord = false := by
  simp [isFront, or_assoc]

/-- Marks and words hold only characters that a condition holds of, if it holds of all of these. -/
theorem holds_of_isFront {accepts : Char → Bool} (hmarks : leadMarks.all accepts = true)
    (hwords : leadWords.all (·.toList.all accepts) = true) (h : isFront prev front = true) (hc : c ∈ front) :
    accepts c = true := by
  rcases isFront_iff.mp h with ⟨rfl, -⟩ | ⟨mark, hmark, rfl⟩ | ⟨⟨word, hword, rfl⟩, -⟩
  · cases hc
  · obtain rfl := List.mem_singleton.mp hc
    exact List.all_eq_true.mp hmarks c hmark
  · exact List.all_eq_true.mp (List.all_eq_true.mp hwords word hword) c hc

theorem leads_iff : leads prev lead = true ↔
    ∃ front blanks, lead = front ++ blanks ∧ isFront prev front = true ∧ ∀ c ∈ blanks, c ∈ leadBlanks := by
  constructor
  · intro h
    refine ⟨lead.rdropWhile leadBlanks.contains, lead.rtakeWhile leadBlanks.contains, ?_, h, fun c hc => ?_⟩
    · rw [List.rdropWhile, List.rtakeWhile, ← List.reverse_append, List.takeWhile_append_dropWhile,
        List.reverse_reverse]
    · exact List.contains_iff_mem.mp (List.mem_rtakeWhile_imp hc)
  · rintro ⟨front, blanks, rfl, hfront, hblanks⟩
    have hdrop : (front ++ blanks).rdropWhile leadBlanks.contains = front := by
      have hpos : ∀ c ∈ blanks.reverse, leadBlanks.contains c = true := fun c hc =>
        List.contains_iff_mem.mpr (hblanks c (List.mem_reverse.mp hc))
      rw [List.rdropWhile, List.reverse_append, List.dropWhile_append_of_pos hpos]
      refine List.rdropWhile_eq_self_iff.mpr fun hne => ?_
      have hnot : (!leadBlanks.contains (front.getLast hne)) = true :=
        @holds_of_isFront _ _ _ (!leadBlanks.contains ·) rfl rfl hfront (List.getLast_mem hne)
      simpa using hnot
    rw [leads, hdrop]
    exact hfront

/-- Neither a quote nor a character of a comment's opening stands before an expression. -/
theorem isQuiet_of_leads (h : leads prev lead = true) : IsQuiet lead := by
  obtain ⟨front, blanks, rfl, hfront, hblanks⟩ := leads_iff.mp h
  intro c hc
  rcases List.mem_append.mp hc with hc | hc
  · exact holds_of_isFront rfl rfl hfront hc
  · have hall : leadBlanks.all isQuietChar = true := rfl
    exact List.all_eq_true.mp hall c (hblanks c hc)

/-- A slash ends what an expression may follow. -/
theorem takeWhile_of_leads (h : leads prev lead = true) (rest : List Char) :
    (lead ++ '/' :: rest).takeWhile (· != '/') = lead ∧ (lead ++ '/' :: rest).dropWhile (· != '/') = '/' :: rest := by
  refine Pattern.takeWhile_append_of_head (fun c hc => ?_) rfl
  rw [bne_iff_ne]
  rintro rfl
  cases isQuiet_of_leads h '/' hc

theorem StartsRegex.mayStartRegex {text : List Char} (h : StartsRegex prev text) : mayStartRegex prev text = true := by
  obtain ⟨lead, body, rest, rfl, hlead, hunits, hhead⟩ := h
  obtain ⟨c, more, rfl, hc⟩ := hunits.exists_cons hhead
  obtain ⟨htake, hdrop⟩ := takeWhile_of_leads hlead (c :: (more ++ '/' :: rest))
  simp only [Script.mayStartRegex, List.cons_append, htake, hdrop, hlead]
  simpa using hc

end Leads

/-- Whether a text begins with a comment. -/
def startsComment (text : List Char) : Bool := ['/', '/'].isPrefixOf text || ['/', '*'].isPrefixOf text

theorem startsComment_eq_false_iff {text : List Char} :
    startsComment text = false ↔ ¬ ['/', '/'] <+: text ∧ ¬ ['/', '*'] <+: text := by
  rw [startsComment, Bool.or_eq_false_iff, ← List.isPrefixOf_iff_prefix, ← List.isPrefixOf_iff_prefix,
    Bool.not_eq_true, Bool.not_eq_true]

/-! ### Pieces -/

/-- A comment with the text behind it. One that ends with its line takes along the line break and the indentation of
the next line. -/
inductive IsComment : List Char → List Char → Prop where
  | block {body behind : List Char} : ¬ ['*', '/'] <:+: body → IsComment ('/' :: '*' :: (body ++ ['*', '/'])) behind
  | line {body indentation behind : List Char} : '\n' ∉ body → indentation.all Class.spaceTab = true →
      behind.head?.any Class.spaceTab = false →
      IsComment ('/' :: '/' :: (body ++ '\n' :: indentation)) behind
  | lastLine {body : List Char} : '\n' ∉ body → IsComment ('/' :: '/' :: body) []

/-- A literal with the character and the text before it and the text behind it. A template may substitute anything in
which no backtick stands. The text before a regular expression is what an expression follows. -/
inductive IsLiteral : Option Char → List Char → List Char → List Char → Prop where
  | string {prev : Option Char} {quote : Char} {body behind : List Char} : quote = '"' ∨ quote = '\'' →
      EscapedUnits (Class.except [quote, '\\', '\n']) Class.any body →
      IsLiteral prev [] (quote :: (body ++ [quote])) behind
  | template {prev : Option Char} {body behind : List Char} :
      EscapedUnits (Class.except ['\x60', '\\']) Class.any body →
      IsLiteral prev [] ('\x60' :: (body ++ ['\x60'])) behind
  | regex {prev : Option Char} {lead body flags behind : List Char} : leads prev lead = true → RegexUnits body →
      body.head? ∉ [none, some '*'] → flags.all Class.letter = true → behind.head?.any Class.letter = false →
      IsLiteral prev lead ('/' :: (body ++ '/' :: flags)) behind

/-- Code with the character before it and the text behind it, at no place of which a comment or a literal begins. -/
def IsCode (prev : Option Char) (code behind : List Char) : Prop :=
  match code with
  | [] => True
  | c :: rest =>
    isQuote c = false ∧ startsComment (c :: (rest ++ behind)) = false ∧ ¬ StartsRegex prev (c :: (rest ++ behind)) ∧
      IsCode (some c) rest behind

/-- Whether in addition no slash stands where an expression may follow. -/
def isCode (prev : Option Char) (code behind : List Char) : Bool :=
  match code with
  | [] => true
  | c :: rest =>
    !isQuote c && !startsComment (c :: (rest ++ behind)) && !mayStartRegex prev (c :: (rest ++ behind)) &&
      isCode (some c) rest behind

theorem IsCode.of_isCode {prev : Option Char} {code behind : List Char} (h : isCode prev code behind = true) :
    IsCode prev code behind := by
  induction code generalizing prev with
  | nil => trivial
  | cons c rest ih =>
    simp only [isCode, Bool.and_eq_true, Bool.not_eq_true'] at h
    obtain ⟨⟨⟨hquote, hcomment⟩, hregex⟩, hrest⟩ := h
    refine ⟨hquote, hcomment, fun hstarts => ?_, ih hrest⟩
    rw [hstarts.mayStartRegex] at hregex
    cases hregex

/-- A piece of a script. The code that makes a slash behind it open a regular expression belongs to the literal's
piece. -/
inductive Piece where
  | code (text : List Char) : Piece
  | comment (text : List Char) : Piece
  | literal (lead text : List Char) : Piece
  deriving DecidableEq, Repr

namespace Piece

def text : Piece → List Char
  | code text | comment text => text
  | literal lead text => lead ++ text

/-- Whether a piece is what it is called, between a character and a text. -/
def IsPlain (prev : Option Char) (behind : List Char) : Piece → Prop
  | code text => IsCode prev text behind
  | comment text => IsComment text behind
  | literal lead text => IsLiteral prev lead text behind

/-- What of a piece is set aside: literals, and comments unless they go. -/
def kept (stripComments : Bool) : Piece → List (List Char)
  | code _ => []
  | comment text => if stripComments then [] else [text]
  | literal _ text => [text]

/-- A piece with a slot in the place of what is set aside. A comment that goes leaves its line break or a space. -/
def template (stripComments : Bool) (index : Nat) : Piece → Template
  | code text => Template.ofCode text
  | comment text => if stripComments then Template.ofCode (Lexer.leaveBreak text) else [.slot index]
  | literal lead _ => Template.ofCode lead ++ [.slot index]

end Piece

/-- A script, piece by piece. -/
abbrev Source := List Piece

namespace Source

def text (source : Source) : List Char := source.flatMap Piece.text

@[simp] theorem text_cons (piece : Piece) (rest : Source) : text (piece :: rest) = piece.text ++ text rest :=
  List.flatMap_cons

/-- Whether no piece of a source can be taken for another, given the character before. -/
def IsPlain : Option Char → Source → Prop
  | _, [] => True
  | prev, piece :: rest => piece.IsPlain prev (text rest) ∧ IsPlain (piece.text.getLast?.or prev) rest

/-- What is set aside of a source, in order. -/
def kept (stripComments : Bool) (source : Source) : List (List Char) := source.flatMap (Piece.kept stripComments)

/-- A source with slots in the place of what is set aside, numbered from an index on. -/
def template (stripComments : Bool) : Nat → Source → Template
  | _, [] => []
  | index, piece :: rest =>
    piece.template stripComments index ++ template stripComments (index + (piece.kept stripComments).length) rest

end Source

end Minifier.Script
