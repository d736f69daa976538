import Minifier.Proofs.Masking.SetAside
import Minifier.Proofs.Script.Source

/-!
Sources as a lexer reads them. A lexer reads a source when it finds each comment and each literal at its place, all of
it and nothing more, and passes over the code. Then what it sets aside are the literals, and the comments unless they
go.
-/

namespace Minifier

open Pattern

/-- Whether a pattern finds nothing at any place of a text, between a character and another text. -/
def Pattern.PassesOver (pattern : Pattern) (prev : Option Char) (text behind : List Char) : Prop :=
  match text with
  | [] => True
  | c :: rest => (∀ index, pattern.matchAt index prev (c :: (rest ++ behind)) = none) ∧
      pattern.PassesOver (some c) rest behind

namespace Script

variable {lexer : Lexer} {prev : Option Char} {behind : List Char} {source : Source}

/-- Whether a lexer finds a comment, which leaves its line break or a space if it goes. -/
def ReadsComment (lexer : Lexer) (prev : Option Char) (text behind : List Char) : Prop :=
  ∀ index, ∃ found, lexer.pattern.matchAt index prev (text ++ behind) = some found ∧ found.text = text ∧
    ∀ stripComments literals, MaskedText.replaceMatch lexer stripComments literals found =
      if stripComments then (Lexer.leaveBreak text, literals)
      else (Placeholder.render literals.size, literals.push text)

/-- Whether a lexer finds a literal behind what has to stand in front of it. -/
def ReadsLiteral (lexer : Lexer) (prev : Option Char) (lead text behind : List Char) : Prop :=
  ∀ index, ∃ found, lexer.pattern.matchAt index prev (lead ++ text ++ behind) = some found ∧
    found.text = lead ++ text ∧ ∀ stripComments literals, MaskedText.replaceMatch lexer stripComments literals found =
      (lead ++ Placeholder.render literals.size, literals.push text)

/-- Whether a lexer reads a piece as what it is. -/
def Piece.IsRead (lexer : Lexer) (prev : Option Char) (behind : List Char) : Piece → Prop
  | code text => lexer.pattern.PassesOver prev text behind
  | comment text => ReadsComment lexer prev text behind
  | literal lead text => ReadsLiteral lexer prev lead text behind

namespace Source

/-- Whether it reads a source piece by piece, between a character and a text. -/
def IsRead (lexer : Lexer) : Option Char → Source → List Char → Prop
  | _, [], _ => True
  | prev, piece :: rest, behind =>
    piece.IsRead lexer prev (text rest ++ behind) ∧ IsRead lexer (piece.text.getLast?.or prev) rest behind

end Source

/-- The lexer passes over code. -/
theorem segmented_passesOver {pattern : Pattern} {index : Nat} {code : List Char} {segments : List Segment}
    (hcode : pattern.PassesOver prev code behind)
    (h : Segmented pattern (index + code.length) (code.getLast?.or prev) behind segments) :
    Segmented pattern index prev (code ++ behind) (code.map .plain ++ segments) := by
  induction code generalizing index prev with
  | nil => exact h
  | cons c rest ih =>
    obtain ⟨hnone, hrest⟩ := hcode
    rw [getLast?_cons_or, List.length_cons, Nat.add_comm rest.length, ← Nat.add_assoc] at h
    exact .plain (by simp [hnone index]) (ih hrest h)

theorem replaceFrom_code (replace : Array (List Char) → Match → List Char × Array (List Char)) (code : List Char)
    (segments : List Segment) (literals : Array (List Char)) :
    replaceFrom replace (code.map .plain ++ segments) literals =
      (code ++ (replaceFrom replace segments literals).1, (replaceFrom replace segments literals).2) := by
  induction code with
  | nil => rfl
  | cons c rest ih => simp only [List.map_cons, List.cons_append, replaceFrom, ih]

namespace Source

theorem text_append (first second : Source) : text (first ++ second) = text first ++ text second :=
  List.flatMap_append

/-- Behind a source that it reads the lexer goes on with the text behind. -/
theorem IsRead.exists_segmented {index : Nat} {segments : List Segment} (h : source.IsRead lexer prev behind)
    (hbehind : Segmented lexer.pattern (index + source.text.length) (source.text.getLast?.or prev) behind segments) :
    ∃ done, Segmented lexer.pattern index prev (source.text ++ behind) (done ++ segments) ∧
      done.flatMap Segment.text = source.text ∧ ∀ stripComments literals,
        replaceFrom (MaskedText.replaceMatch lexer stripComments) (done ++ segments) literals =
          ((source.template stripComments literals.size).render ++
              (replaceFrom (MaskedText.replaceMatch lexer stripComments) segments
                (literals ++ (source.kept stripComments).toArray)).1,
            (replaceFrom (MaskedText.replaceMatch lexer stripComments) segments
              (literals ++ (source.kept stripComments).toArray)).2) := by
  induction source generalizing prev index with
  | nil => exact ⟨[], hbehind, rfl, fun _ _ => by simp [template, kept]⟩
  | cons piece rest ih =>
    obtain ⟨hpiece, hrest⟩ := h
    rw [text_cons, List.length_append, ← Nat.add_assoc, List.getLast?_append, Option.or_assoc] at hbehind
    obtain ⟨done, hdone, htext, hreplace⟩ := ih hrest hbehind
    rw [text_cons, List.append_assoc]
    cases piece with
    | code text =>
      refine ⟨text.map Segment.plain ++ done, ?_, ?_, fun stripComments literals => ?_⟩
      · rw [List.append_assoc]
        exact segmented_passesOver hpiece hdone
      · simp [htext, Piece.text, List.flatMap_map, Segment.text]
      · rw [List.append_assoc, replaceFrom_code, hreplace]
        simp [template, kept, Piece.template, Piece.kept]
    | comment text =>
      obtain ⟨found, hfound, hfoundText, hset⟩ := hpiece index
      rw [Piece.text, ← hfoundText] at hdone
      refine ⟨.hit found :: done, .hit hfound (by rw [hfoundText, Piece.text]) hdone, ?_, ?_⟩
      · simp [htext, hfoundText, Piece.text, Segment.text]
      · intro stripComments literals
        rw [List.cons_append, replaceFrom, hset]
        cases stripComments <;> simp [hreplace, template, kept, Piece.template, Piece.kept]
    | literal lead text =>
      obtain ⟨found, hfound, hfoundText, hset⟩ := hpiece index
      rw [Piece.text, ← hfoundText] at hdone
      refine ⟨.hit found :: done, .hit hfound (by rw [hfoundText, Piece.text]) hdone, ?_, ?_⟩
      · simp [htext, hfoundText, Piece.text, Segment.text]
      · intro stripComments literals
        rw [List.cons_append, replaceFrom, hset]
        simp [hreplace, template, kept, Piece.template, Piece.kept]

/-- What is set aside of a source that the lexer reads are its literals, and its comments unless they go. -/
theorem IsRead.mask_eq (h : source.IsRead lexer none []) (hexceeds : lexer.pattern.exceeds [] = true)
    (hclear : Unreserved source.text) (stripComments : Bool) :
    MaskedText.mask lexer stripComments source.text =
      .ok ⟨(source.template stripComments 0).render, (source.kept stripComments).toArray⟩ := by
  have hreserved : ¬ MaskedText.reserved source.text = true := fun hreserved =>
    (MaskedText.reserved_iff.mp hreserved).elim hclear.1 hclear.2
  obtain ⟨segments, hsegments, -, hreplace⟩ := @exists_segmented _ _ _ _ 0 _ h .done
  rw [List.append_nil] at hsegments
  -- What the lexer finds at a place is fixed, so the segments are those of the pieces.
  have hunique : lexer.pattern.segments source.text = segments ++ [] :=
    (segments_segmented _ _).unique hexceeds hsegments
  rw [MaskedText.mask, if_neg hreserved, hunique, MaskedText.replaceSegments_eq, hreplace]
  simp [replaceFrom]

end Source

end Script

end Minifier
