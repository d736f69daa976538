import Minifier.Content.Estimate
import Minifier.Proofs.Pattern.Segments
import Minifier.Proofs.Text.Basic

/-!
How many bytes the estimate takes for comments. The matches of one pattern do not overlap, so their sizes add up to the
bytes that they cover. Matches of two patterns may overlap, and a byte counts once for each pattern with a match that
covers it. So a style with one pattern has at most the bytes of the text in comments, and a style with more of them may
have more.
-/

namespace Minifier.Estimate

open Pattern Text

variable {pattern : Pattern} {text : List Char} {times times' : Nat → Nat} {index : Nat}

/-! ### Bytes that count more than once -/

/-- The bytes of a text from an index on, where the bytes of each character count as many times as is given for its
index. -/
def bytesTimes (times : Nat → Nat) : (index : Nat) → List Char → Nat
  | _, [] => 0
  | index, c :: rest => times index * c.utf8Size + bytesTimes times (index + 1) rest

theorem bytesTimes_append (times : Nat → Nat) (index : Nat) (front back : List Char) :
    bytesTimes times index (front ++ back) =
      bytesTimes times index front + bytesTimes times (index + front.length) back := by
  induction front generalizing index with
  | nil => simp [bytesTimes]
  | cons c front ih =>
    rw [List.cons_append, bytesTimes, bytesTimes, ih, List.length_cons, Nat.add_assoc, Nat.add_assoc,
      Nat.add_comm 1]

theorem bytesTimes_add (times times' : Nat → Nat) (index : Nat) (text : List Char) :
    bytesTimes (fun i => times i + times' i) index text = bytesTimes times index text + bytesTimes times' index text := by
  induction text generalizing index with
  | nil => rfl
  | cons c rest ih =>
    rw [bytesTimes, bytesTimes, bytesTimes, ih, Nat.add_mul]
    omega

theorem bytesTimes_mul (n : Nat) (times : Nat → Nat) (index : Nat) (text : List Char) :
    bytesTimes (fun i => n * times i) index text = n * bytesTimes times index text := by
  induction text generalizing index with
  | nil => rfl
  | cons c rest ih => rw [bytesTimes, bytesTimes, ih, Nat.mul_add, Nat.mul_assoc]

theorem bytesTimes_zero (index : Nat) (text : List Char) : bytesTimes (fun _ => 0) index text = 0 := by
  induction text generalizing index with
  | nil => rfl
  | cons c rest ih => rw [bytesTimes, ih, Nat.zero_mul]

theorem bytesTimes_one (index : Nat) (text : List Char) : bytesTimes (fun _ => 1) index text = byteSize text := by
  induction text generalizing index with
  | nil => rfl
  | cons c rest ih => rw [bytesTimes, ih, Nat.one_mul, byteSize_cons]

theorem bytesTimes_le (h : ∀ i, times i ≤ times' i) (index : Nat) (text : List Char) :
    bytesTimes times index text ≤ bytesTimes times' index text := by
  induction text generalizing index with
  | nil => exact Nat.le_refl _
  | cons c rest ih => exact Nat.add_le_add (Nat.mul_le_mul_right _ (h index)) (ih (index + 1))

/-- Only what is given for an index of the text matters. -/
theorem bytesTimes_congr (h : ∀ i, index ≤ i → i < index + text.length → times i = times' i) :
    bytesTimes times index text = bytesTimes times' index text := by
  induction text generalizing index with
  | nil => rfl
  | cons c rest ih =>
    rw [List.length_cons] at h
    rw [bytesTimes, bytesTimes, h index (Nat.le_refl _) (by omega),
      ih fun i hle hlt => h i (by omega) (by omega)]

/-- Bytes that count at least as often come to the same only where they count as often. -/
theorem bytesTimes_eq_iff (h : ∀ i, times i ≤ times' i) : bytesTimes times index text = bytesTimes times' index text ↔
    ∀ i, index ≤ i → i < index + text.length → times i = times' i := by
  refine ⟨?_, bytesTimes_congr⟩
  induction text generalizing index with
  | nil => exact fun _ i hle hlt => absurd hle (Nat.not_le.mpr hlt)
  | cons c rest ih =>
    intro heq i hle hlt
    have hhead := Nat.mul_le_mul_right c.utf8Size (h index)
    have htail := bytesTimes_le h (index + 1) rest
    change times index * c.utf8Size + bytesTimes times (index + 1) rest =
      times' index * c.utf8Size + bytesTimes times' (index + 1) rest at heq
    rcases Nat.eq_or_lt_of_le hle with rfl | hlater
    · exact Nat.eq_of_mul_eq_mul_right c.utf8Size_pos (by omega)
    · rw [List.length_cons] at hlt
      have hrest : bytesTimes times (index + 1) rest = bytesTimes times' (index + 1) rest := by omega
      exact ih hrest i hlater (by omega)

/-! ### What matches cover -/

/-- Whether a match takes the character with an index. -/
def takesIndex (found : Match) (index : Nat) : Bool := found.start ≤ index && index < found.stop

/-- Whether a match of a pattern in a text takes the character with an index. -/
def covers (pattern : Pattern) (text : List Char) (index : Nat) : Bool :=
  (pattern.allMatches text).any fun found => takesIndex found index

/-- Whether at least one match of a style's patterns takes the character with an index. -/
def isCovered (text : List Char) (style : CommentStyle) (index : Nat) : Bool :=
  (patterns style).any fun pattern => covers pattern text index

/-- The bytes that at least one match of a style's patterns takes. -/
def coveredBytes (text : List Char) (style : CommentStyle) : Nat :=
  bytesTimes (fun index => if isCovered text style index then 1 else 0) 0 text

/-- How many patterns of a style have a match that takes the character with an index. -/
def overlap (text : List Char) (style : CommentStyle) (index : Nat) : Nat :=
  (patterns style).countP fun pattern => covers pattern text index

/-- The matches among segments. -/
def hits (segments : List Segment) : List Match :=
  segments.filterMap fun
    | .hit found => some found
    | .plain _ => none

/-- No match begins before the place where the search begins. -/
theorem le_start {prev : Option Char} {segments : List Segment} (h : pattern.Segmented index prev text segments) :
    ∀ found ∈ hits segments, index ≤ found.start := by
  induction h with
  | done => exact fun _ hmem => absurd hmem List.not_mem_nil
  | plain _ _ ih => exact fun found hmem => Nat.le_of_succ_le (ih found hmem)
  | hit hfound _ _ ih =>
    obtain ⟨-, -, -, hstart⟩ := exists_of_matchAt hfound
    refine List.forall_mem_cons.mpr ⟨hstart.ge, fun found hmem => ?_⟩
    exact (Nat.le_add_right _ _).trans (ih found hmem)

/-- Matches from left to right have the size of what they cover. The induction is on the search; a match takes the
characters where it is found, and none behind them. -/
theorem sum_hits {prev : Option Char} {segments : List Segment} (h : pattern.Segmented index prev text segments) :
    ((hits segments).map fun found => byteSize found.text).sum =
      bytesTimes (fun i => if (hits segments).any fun found => takesIndex found i then 1 else 0) index text := by
  induction h with
  | done => rfl
  | @plain index prev c rest segments _ hrest ih =>
    have hnone : ((hits segments).any fun found => takesIndex found index) = false := by
      refine List.any_eq_false.mpr fun found hmem => ?_
      have hlater := le_start hrest found hmem
      simp only [takesIndex, Bool.and_eq_true, decide_eq_true_eq]
      omega
    have hhits : hits (.plain c :: segments) = hits segments := rfl
    rw [hhits, bytesTimes, hnone, ih, if_neg Bool.false_ne_true, Nat.zero_mul, Nat.zero_add]
  | @hit index prev text rest found segments hfound htext hrest ih =>
    obtain ⟨-, -, -, hstart⟩ := exists_of_matchAt hfound
    have hhits : hits (.hit found :: segments) = found :: hits segments := rfl
    have hhere : bytesTimes (fun i => if (found :: hits segments).any fun found => takesIndex found i then 1 else 0)
        index found.text = byteSize found.text := by
      rw [← bytesTimes_one index]
      refine bytesTimes_congr fun i hle hlt => if_pos ?_
      simp [takesIndex, Match.stop, hstart, hle, hlt]
    have hbehind : bytesTimes (fun i => if (found :: hits segments).any fun found => takesIndex found i then 1 else 0)
        (index + found.text.length) rest =
          bytesTimes (fun i => if (hits segments).any fun found => takesIndex found i then 1 else 0)
            (index + found.text.length) rest := by
      refine bytesTimes_congr fun i hle _ => ?_
      have hover : takesIndex found i = false := by simp [takesIndex, Match.stop, hstart, hle]
      rw [List.any_cons, hover, Bool.false_or]
    rw [hhits, htext, bytesTimes_append, hhere, hbehind, List.map_cons, List.sum_cons, ih]

theorem sum_allMatches (pattern : Pattern) (text : List Char) :
    ((pattern.allMatches text).map fun found => byteSize found.text).sum =
      bytesTimes (fun index => if covers pattern text index then 1 else 0) 0 text :=
  sum_hits (segments_segmented pattern text)

/-! ### What the estimate counts -/

/-- The sizes of all matches add up to the bytes covered, each once for each pattern. -/
theorem sum_patterns (patterns : List Pattern) (text : List Char) :
    ((patterns.flatMap fun pattern => pattern.allMatches text).map fun found => byteSize found.text).sum =
      bytesTimes (fun index => patterns.countP fun pattern => covers pattern text index) 0 text := by
  induction patterns with
  | nil => exact (bytesTimes_zero 0 text).symm
  | cons pattern patterns ih =>
    rw [List.flatMap_cons, List.map_append, List.sum_append, ih, sum_allMatches, ← bytesTimes_add]
    refine bytesTimes_congr fun i _ _ => ?_
    rw [List.countP_cons, Nat.add_comm]

theorem overlap_cases (text : List Char) (style : CommentStyle) (index : Nat) :
    (if isCovered text style index then 1 else 0) ≤ overlap text style index ∧
      overlap text style index ≤ (patterns style).length * if isCovered text style index then 1 else 0 := by
  split_ifs with hcovered
  · obtain ⟨pattern, hmem, hcovers⟩ := List.any_eq_true.mp hcovered
    exact ⟨List.countP_pos_iff.mpr ⟨pattern, hmem, hcovers⟩, (Nat.mul_one _).symm ▸ List.countP_le_length⟩
  · have hnone : overlap text style index = 0 := by
      refine List.countP_eq_zero.mpr fun pattern hmem hcovers => hcovered ?_
      exact List.any_eq_true.mpr ⟨pattern, hmem, hcovers⟩
    exact ⟨Nat.zero_le _, hnone.le⟩

/-- What the estimate takes for comments are the bytes of the text, each as often as there are patterns with a match that
covers it. So every byte in a comment counts, none more often than there are patterns, and what counts is the bytes in
comments only where no two patterns have matches that overlap. -/
theorem commentBytes_eq (text : List Char) (style : CommentStyle) :
    commentBytes text style = bytesTimes (overlap text style) 0 text ∧
      coveredBytes text style ≤ byteSize text ∧
      coveredBytes text style ≤ commentBytes text style ∧
      commentBytes text style ≤ (patterns style).length * coveredBytes text style ∧
      (commentBytes text style = coveredBytes text style ↔ ∀ index < text.length, overlap text style index ≤ 1) := by
  have hbytes : commentBytes text style = bytesTimes (overlap text style) 0 text := by
    rw [commentBytes, ← List.sum_eq_foldl]
    exact sum_patterns (patterns style) text
  have hcases := overlap_cases text style
  have hone (index : Nat) : (if isCovered text style index then 1 else 0) ≤ 1 := by
    split_ifs <;> decide
  refine ⟨hbytes, ?_, ?_, ?_, ?_⟩
  · rw [← bytesTimes_one 0]
    exact bytesTimes_le hone 0 text
  · rw [hbytes]
    exact bytesTimes_le (fun index => (hcases index).1) 0 text
  · rw [hbytes, coveredBytes, ← bytesTimes_mul]
    exact bytesTimes_le (fun index => (hcases index).2) 0 text
  · rw [hbytes, eq_comm, coveredBytes, bytesTimes_eq_iff fun index => (hcases index).1]
    constructor
    · intro hsame index hindex
      exact (hsame index (Nat.zero_le _) (by rwa [Nat.zero_add])) ▸ hone index
    · intro honce index _ hindex
      have hle := honce index (by rwa [Nat.zero_add] at hindex)
      have hcase := hcases index
      split_ifs at hcase ⊢ <;> omega

/-- Comments side by side, of both kinds, count once. -/
theorem commentBytes_sideBySide :
    (∀ index < "/*é*/a//b\n//c".toList.length, overlap "/*é*/a//b\n//c".toList .cFamily index ≤ 1) ∧
      commentBytes "/*é*/a//b\n//c".toList .cFamily = 12 := by
  have honce : ∀ index < "/*é*/a//b\n//c".toList.length, overlap "/*é*/a//b\n//c".toList .cFamily index ≤ 1 := by
    decide
  refine ⟨honce, ?_⟩
  rw [(commentBytes_eq "/*é*/a//b\n//c".toList .cFamily).2.2.2.2.mpr honce]
  decide

/-- A comment between signs that holds two slashes counts nearly twice, and a text of nothing else has more bytes in
comments than it has bytes. -/
theorem commentBytes_overlapping :
    coveredBytes "/*//*/\nabcdefghijklm".toList .cFamily = 6 ∧
      commentBytes "/*//*/\nabcdefghijklm".toList .cFamily = 10 ∧
      byteSize "/*//*/".toList < commentBytes "/*//*/".toList .cFamily := by
  decide

end Minifier.Estimate
