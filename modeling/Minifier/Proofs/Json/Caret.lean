import Minifier.Error
import Minifier.Json.Parser
import Minifier.Proofs.Text.CodeLines

/-!
Where an error in a JSON text is shown. Every error lies on a line of the text, and its column, counted in bytes, does not
exceed that line. Its display quotes the line behind a number that takes at least four places, and puts a caret below, as
many characters from the left as the column has bytes.

So the caret stands under the character with that byte as long as every character up to it is one byte and the number of
the line has at most four digits. Each further byte before moves the caret to the right, and each further digit to the
left.
-/

namespace Minifier

namespace Text

variable {text line : List Char} {number byte index : Nat}

/-! ### Lines by their number -/

/-- The lines of a text are its pieces between line feeds, without a last one that is empty. -/
theorem exists_lines_eq (text : List Char) : ∃ ended last, cutLines text = ended ++ [last] ∧
    lines text = ended.map dropReturn ++ if last.isEmpty then [] else [last] := by
  obtain ⟨ended, last, hjoin, hlines⟩ := exists_joinLines text
  have hcut : cutLines text = ended ++ [last] := hjoin ▸ cutLines_joinLines hlines
  refine ⟨ended, last, hcut, ?_⟩
  have hreverse : (cutAt (· == '\n') text).reverse = last :: ended.reverse := by
    rw [← cutLines, hcut, List.reverse_append]
    rfl
  rw [lines, hreverse]
  dsimp only
  rw [List.map_reverse, List.reverse_reverse]
  split_ifs <;> simp

/-- A line loses a carriage return at its end if a line feed follows it. -/
def shownLine (text : List Char) (number : Nat) (line : List Char) : List Char :=
  if number < (cutLines text).length then dropReturn line else line

theorem lines_getElem? (h : (cutLines text)[number]? = some line) :
    (lines text)[number]?.getD [] = shownLine text (number + 1) line := by
  obtain ⟨ended, last, hcut, hlines⟩ := exists_lines_eq text
  rw [hcut] at h
  rw [hlines, shownLine, hcut, List.length_append, List.length_singleton]
  rcases Nat.lt_trichotomy number ended.length with hlt | rfl | hgt
  · rw [List.getElem?_append_left hlt] at h
    rw [List.getElem?_append_left (by simpa using hlt), List.getElem?_map, h, if_pos (by omega)]
    rfl
  · obtain rfl : last = line := by simpa using h
    rw [if_neg (Nat.lt_irrefl (ended.length + 1)), List.getElem?_append_right (by simp), List.length_map, Nat.sub_self]
    split_ifs with hempty
    · exact (List.isEmpty_iff.mp hempty).symm
    · rfl
  · rw [List.getElem?_eq_none (by simpa using Nat.succ_le_of_lt hgt)] at h
    exact absurd h nofun

theorem shownLine_cases (text : List Char) (number : Nat) (line : List Char) :
    shownLine text number line = line ∨ shownLine text number line ++ ['\r'] = line := by
  rw [shownLine, dropReturn]
  split_ifs with _ hreturn
  · exact .inr (List.dropLast_append_getLast? _ (by simpa using hreturn))
  · exact .inl rfl
  · exact .inl rfl

theorem not_mem_of_mem_cutLines (h : line ∈ cutLines text) : '\n' ∉ line := by
  obtain ⟨ended, last, rfl, hlines⟩ := exists_joinLines text
  rw [cutLines_joinLines hlines, List.mem_append, List.mem_singleton] at h
  rcases h with hended | rfl
  · exact hlines.1 line hended
  · exact hlines.2

theorem not_mem_shownLine (h : line ∈ cutLines text) (number : Nat) : '\n' ∉ shownLine text number line := by
  intro hmem
  refine not_mem_of_mem_cutLines h ?_
  rcases shownLine_cases text number line with heq | heq
  · rwa [← heq]
  · rw [← heq]
    exact List.mem_append_left _ hmem

/-- Whether the character of a line with an index has the byte with a number, which counts from one. -/
structure HasByte (line : List Char) (byte index : Nat) : Prop where
  lt : byteSize (line.take index) < byte
  le : byte ≤ byteSize (line.take (index + 1))

theorem HasByte.lt_length (h : HasByte line byte index) : index < line.length := by
  by_contra hge
  have hall (n : Nat) (hn : line.length ≤ n) : line.take n = line := List.take_of_length_le hn
  have hlt := h.lt
  have hle := h.le
  rw [hall index (by omega)] at hlt
  rw [hall (index + 1) (by omega)] at hle
  omega

/-- Among characters of one byte the bytes are numbered as the characters are. -/
theorem HasByte.eq_of_oneByte (h : HasByte line byte index) (hone : ∀ c ∈ line.take (index + 1), c.utf8Size = 1) :
    byte = index + 1 := by
  have hsize {text : List Char} (htext : ∀ c ∈ text, c.utf8Size = 1) : byteSize text = text.length := by
    rw [byteSize_eq_sum, List.map_congr_left htext, List.map_const', List.sum_replicate, Nat.nsmul_eq_mul, Nat.mul_one]
  have hlt := h.lt
  have hle := h.le
  have hlength := h.lt_length
  rw [hsize fun c hc => hone c ((List.take_prefix_take_left (Nat.le_succ index)).subset hc), List.length_take] at hlt
  rw [hsize hone, List.length_take] at hle
  omega

/-- Every byte of a line belongs to one of its characters. -/
theorem exists_hasByte (hpos : 0 < byte) (hle : byte ≤ byteSize line) : ∃ index, HasByte line byte index := by
  induction line generalizing byte with
  | nil => exact absurd (hpos.trans_le hle) (by simp)
  | cons c rest ih =>
    rw [byteSize_cons] at hle
    by_cases hfirst : byte ≤ c.utf8Size
    · exact ⟨0, by simpa using hpos, by simpa using hfirst⟩
    · obtain ⟨index, hlt, hle⟩ : ∃ index, HasByte rest (byte - c.utf8Size) index := ih (by omega) (by omega)
      refine ⟨index + 1, ?_, ?_⟩
      all_goals
        rw [List.take_succ_cons, byteSize_cons]
        omega

end Text

namespace Json

open Text

/-- Going on from a place, a text leads to a place on one of its lines. The induction is on the text; where it begins with
a line feed, the rest has one line less, and no column is carried over. -/
theorem Place.exists_advance (place : Place) (bytes : Nat) (text : List Char) :
    ∃ number line, (cutLines text)[number]? = some line ∧ (place.advance bytes text).line = place.line + number ∧
      (place.advance bytes text).column ≤ (if number = 0 then place.column else 0) + byteSize line := by
  induction text generalizing place bytes with
  | nil =>
    refine ⟨0, [], rfl, ?_, ?_⟩
    all_goals cases bytes <;> simp [advance]
  | cons c rest ih =>
    obtain ⟨first, more, hfirst, -⟩ := exists_cutLines_append rest
    have hbreak : cutLines ('\n' :: rest) = [] :: cutLines rest := cutLines_append_break [] rest
    have hplain (hc : c ≠ '\n') : cutLines (c :: rest) = (c :: first) :: more := by
      obtain ⟨first', more', hfirst', happend⟩ := exists_cutLines_append rest
      obtain ⟨rfl, rfl⟩ := List.cons.inj (hfirst.symm.trans hfirst')
      exact happend [c] (by simpa using hc.symm)
    cases bytes with
    | zero =>
      obtain ⟨line, lines, hlines, -⟩ := exists_cutLines_append (c :: rest)
      exact ⟨0, line, by rw [hlines]; rfl, rfl, Nat.le_add_right _ _⟩
    | succ bytes =>
      rw [advance]
      split_ifs with hsize hc
      · subst hc
        obtain ⟨number, line, hline, hnumber, hcolumn⟩ := ih ⟨place.line + 1, 0⟩ (bytes + 1 - '\n'.utf8Size)
        refine ⟨number + 1, line, by rw [hbreak]; exact hline, by rw [hnumber, Nat.add_assoc, Nat.add_comm 1], ?_⟩
        simpa using hcolumn
      · obtain ⟨number, line, hline, hnumber, hcolumn⟩ :=
          ih ⟨place.line, place.column + c.utf8Size⟩ (bytes + 1 - c.utf8Size)
        rw [hfirst] at hline
        cases number with
        | zero =>
          obtain rfl : first = line := Option.some.inj hline
          refine ⟨0, c :: first, by rw [hplain hc]; rfl, hnumber, ?_⟩
          rw [if_pos rfl] at hcolumn ⊢
          rw [byteSize_cons, ← Nat.add_assoc]
          exact hcolumn
        | succ number => exact ⟨number + 1, line, by rw [hplain hc]; exact hline, hnumber, hcolumn⟩
      · have hc : c ≠ '\n' := by
          rintro rfl
          exact hsize (Nat.succ_le_succ (Nat.zero_le bytes))
        refine ⟨0, c :: first, by rw [hplain hc]; rfl, rfl, ?_⟩
        rw [if_pos rfl, byteSize_cons]
        dsimp only
        omega

/-- A place in a text lies on one of its lines. -/
theorem Place.exists_after (bytes : Nat) (text : List Char) : 0 < (Place.after bytes text).line ∧
    ∃ line, (cutLines text)[(Place.after bytes text).line - 1]? = some line ∧
      (Place.after bytes text).column ≤ byteSize line := by
  obtain ⟨number, line, hline, hnumber, hcolumn⟩ := exists_advance ⟨1, 0⟩ bytes text
  rw [after, hnumber, Nat.add_sub_cancel_left]
  exact ⟨Nat.add_pos_left Nat.one_pos number, line, hline, by simpa using hcolumn⟩

instance (text : List Char) (error : SyntaxError) : Decidable (parseChars text = .error error) :=
  match parseChars text with
  | .ok _ => isFalse nofun
  | .error other => decidable_of_iff (other = error) ⟨congrArg Except.error, Except.error.inj⟩

/-- An error lies at a place in the text. -/
theorem exists_of_parseChars {text : List Char} {error : SyntaxError} (h : parseChars text = .error error) :
    ∃ bytes, error.place = Place.after bytes text := by
  rw [parseChars, readAll] at h
  split at h
  · obtain rfl := Except.error.inj h
    exact ⟨_, rfl⟩
  · split at h
    · obtain rfl := Except.error.inj h
      exact ⟨_, rfl⟩
    · exact absurd h nofun

end Json

namespace Error

open Text

variable {content snippet : List Char} {error : Json.SyntaxError} {index : Nat}

/-! ### The display -/

/-- What a display has above the caret of its last line, and to the right of that. -/
def aboveCaret (display : List Char) : List Char :=
  match (cutLines display).reverse with
  | low :: high :: _ => high.drop (low.idxOf '^')
  | _ => []

/-- How far a line is to the right because its number has more than four digits. -/
def widening (number : Nat) : Nat := (Nat.toDigits 10 number).length - 4

theorem toList_padLeft (number : Nat) : (padLeft 4 (toString number)).toList =
    List.replicate (4 - (Nat.toDigits 10 number).length) ' ' ++ Nat.toDigits 10 number := by
  have hlength : (toString number).length = (Nat.toDigits 10 number).length := by
    rw [← String.length_toList]
    exact congrArg List.length Nat.toList_repr
  rw [padLeft, String.toList_append, String.toList_ofList, hlength]
  exact congrArg _ Nat.toList_repr

/-- What stands before a quoted line. -/
def lineHead (number : Nat) : List Char := [' ', ' '] ++ (padLeft 4 (toString number)).toList ++ [' ', '|', ' ']

/-- The line below it. -/
def caretLine (column : Nat) : List Char :=
  List.replicate 7 ' ' ++ ['|', ' '] ++ List.replicate (column - 1) ' ' ++ ['^']

theorem length_lineHead (number : Nat) : (lineHead number).length = 9 + widening number := by
  rw [lineHead, toList_padLeft, widening]
  simp only [List.length_cons, List.length_append, List.length_replicate, List.length_nil]
  omega

theorem not_mem_lineHead (number : Nat) : '\n' ∉ lineHead number := by
  have hdigits : '\n' ∉ Nat.toDigits 10 number := fun hmem =>
    absurd (Nat.isDigit_of_mem_toDigits (by decide) (by decide) hmem) (by decide)
  rw [lineHead, toList_padLeft]
  simp [hdigits]

theorem not_mem_caretLine (column : Nat) : '\n' ∉ caretLine column := by
  simp [caretLine, List.mem_replicate]

theorem idxOf_caretLine (column : Nat) : (caretLine column).idxOf '^' = 9 + (column - 1) := by
  rw [caretLine, List.idxOf_append_of_notMem (by simp [List.mem_replicate])]
  simp only [List.length_append, List.length_replicate, List.length_cons, List.length_nil, List.idxOf_cons_self]
  omega

/-- A display ends with the quoted line and the line of the caret. -/
theorem exists_detailed_eq (problem : String) (number column : Nat) (snippet : List Char) :
    ∃ top, (detailed (.invalidJson problem (some ⟨some number, some column, some (String.ofList snippet)⟩))).toList =
      top ++ '\n' :: ((lineHead number ++ snippet) ++ '\n' :: caretLine column) := by
  let top := s!"Invalid JSON: {problem}"
  let place := s!"\n  Location: line {number}, column {column}"
  let caret := "\n       | " ++ String.ofList (List.replicate (column - 1) ' ') ++ "^"
  have hcaret : caret.toList = '\n' :: caretLine column := by
    rw [String.toList_append, String.toList_append, @String.toList_ofList (List.replicate (column - 1) ' ')]
    rfl
  have hdetailed : detailed (.invalidJson problem (some ⟨some number, some column, some (String.ofList snippet)⟩)) =
      top ++ (place ++ ("\n  " ++ padLeft 4 (toString number) ++ " | " ++ String.ofList snippet ++ caret)) := rfl
  refine ⟨top.toList ++ place.toList, ?_⟩
  rw [hdetailed]
  generalize top = top
  generalize place = place
  rw [String.toList_append, String.toList_append, String.toList_append, String.toList_append, String.toList_append,
    String.toList_append, hcaret, @String.toList_ofList snippet, lineHead]
  simp

/-- What stands above the caret is what the quoted line has from there on. -/
theorem aboveCaret_detailed {problem : String} {number column : Nat} (hsnippet : '\n' ∉ snippet) :
    aboveCaret (detailed (.invalidJson problem
      (some ⟨some number, some column, some (String.ofList snippet)⟩))).toList =
        (lineHead number ++ snippet).drop (9 + (column - 1)) := by
  obtain ⟨top, hdetailed⟩ := exists_detailed_eq problem number column snippet
  have hhigh : '\n' ∉ lineHead number ++ snippet := by
    rw [List.mem_append, not_or]
    exact ⟨not_mem_lineHead number, hsnippet⟩
  rw [hdetailed, aboveCaret, cutLines_append_break, cutLines_append_break, cutLines_of_not_mem hhigh,
    cutLines_of_not_mem (not_mem_caretLine column), List.reverse_append, List.reverse_append]
  change (lineHead number ++ snippet).drop ((caretLine column).idxOf '^') = _
  rw [idxOf_caretLine]

/-- The caret stands under a character of the quoted line if the column is as far to the right as the character and the
number of the line put it. -/
theorem drop_lineHead_iff {number column : Nat} (hcolumn : 0 < column) (hindex : index < snippet.length) :
    (lineHead number ++ snippet).drop (9 + (column - 1)) = snippet.drop index ↔
      column = index + 1 + widening number := by
  have hhead := length_lineHead number
  constructor
  · intro heq
    have hlength := congrArg List.length heq
    rw [List.length_drop, List.length_drop, List.length_append] at hlength
    omega
  · intro heq
    have hplace : 9 + (column - 1) = (lineHead number).length + index := by omega
    rw [hplace, ← List.drop_drop, List.drop_left]

theorem widening_eq_zero {number : Nat} (h : number < 10000) : widening number = 0 :=
  Nat.sub_eq_zero_of_le ((Nat.length_toDigits_le_iff (by decide) (by decide)).mpr h)

/-- An error in a JSON text lies on one of its lines, and its column does not exceed that line, which is quoted; behind
the last line that is nothing. The column is zero, or it is that of a byte of the quoted line, or of a carriage return
that is not quoted because a line feed follows. The caret stands under the character with that byte if the bytes before it
are as many more than the characters as the digits of the line number are more than four, and only then; so it does on the
first 9999 lines if all characters are one byte up to there. -/
theorem caret_under_byte (h : Json.parseChars content = .error error) :
    ∃ line snippet, 0 < error.place.line ∧ (content.splitOn '\n')[error.place.line - 1]? = some line ∧
      error.place.column ≤ byteSize line ∧
      ofSyntax error content = .invalidJson error.message
        (some ⟨some error.place.line, some error.place.column, some (String.ofList snippet)⟩) ∧
      snippet = shownLine content error.place.line line ∧
      ((lines content).length < error.place.line → snippet = []) ∧
      (error.place.column = 0 ∨ (∃ index, HasByte snippet error.place.column index) ∨
        snippet ++ ['\r'] = line ∧ error.place.column = byteSize line) ∧
      ∀ index, HasByte snippet error.place.column index →
        (aboveCaret (detailed (ofSyntax error content)).toList = snippet.drop index ↔
          error.place.column = index + 1 + widening error.place.line) ∧
        (error.place.line < 10000 → (∀ c ∈ snippet.take (index + 1), c.utf8Size = 1) →
          aboveCaret (detailed (ofSyntax error content)).toList = snippet.drop index) := by
  obtain ⟨bytes, hplace⟩ := Json.exists_of_parseChars h
  obtain ⟨hpos, line, hline, hcolumn⟩ := Json.Place.exists_after bytes content
  rw [← hplace] at hpos hline hcolumn
  have hshown : (lines content)[error.place.line - 1]?.getD [] = shownLine content error.place.line line := by
    rw [lines_getElem? hline, Nat.sub_add_cancel hpos]
  have hcontext : ofSyntax error content = .invalidJson error.message (some ⟨some error.place.line,
      some error.place.column, some (String.ofList (shownLine content error.place.line line))⟩) := by
    rw [ofSyntax, hshown]
  refine ⟨line, _, hpos, cutLines_eq_splitOn content ▸ hline, hcolumn, hcontext, rfl, fun hbehind => ?_, ?_,
    fun index hindex => ?_⟩
  · rw [← hshown, List.getElem?_eq_none (by omega)]
    rfl
  · rcases Nat.eq_zero_or_pos error.place.column with hzero | hcolumnPos
    · exact .inl hzero
    · by_cases hle : error.place.column ≤ byteSize (shownLine content error.place.line line)
      · exact .inr (.inl (exists_hasByte hcolumnPos hle))
      · rcases shownLine_cases content error.place.line line with heq | heq
        · rw [heq] at hle
          exact absurd hcolumn hle
        · have hsize := congrArg byteSize heq
          rw [byteSize_append] at hsize
          have hreturn : byteSize ['\r'] = 1 := rfl
          exact .inr (.inr ⟨heq, by omega⟩)
  · have hunder : aboveCaret (detailed (ofSyntax error content)).toList =
        (shownLine content error.place.line line).drop index ↔
          error.place.column = index + 1 + widening error.place.line := by
      rw [hcontext, aboveCaret_detailed (not_mem_shownLine (List.mem_of_getElem? hline) _),
        drop_lineHead_iff (Nat.zero_lt_of_lt hindex.lt) hindex.lt_length]
    refine ⟨hunder, fun hnumber hone => hunder.mpr ?_⟩
    rw [widening_eq_zero hnumber, Nat.add_zero]
    exact hindex.eq_of_oneByte hone

/-- On a second line that ends with a carriage return and a line feed, the caret stands under the comma, whatever
follows. -/
theorem caret_under_byte_comma :
    Json.parseChars "\x7b\r\n \"a\": ,é\r\n\x7d".toList = .error ⟨.expectedValue, ⟨2, 7⟩⟩ ∧
      aboveCaret (detailed (ofSyntax ⟨.expectedValue, ⟨2, 7⟩⟩ "\x7b\r\n \"a\": ,é\r\n\x7d".toList)).toList =
        ",é".toList := by
  have herror : Json.parseChars "\x7b\r\n \"a\": ,é\r\n\x7d".toList = .error ⟨.expectedValue, ⟨2, 7⟩⟩ := by
    decide +kernel
  obtain ⟨line, snippet, -, hline, -, -, rfl, -, -, hcaret⟩ := caret_under_byte herror
  obtain rfl : " \"a\": ,é\r".toList = line := Option.some.inj hline
  have hquoted : shownLine "\x7b\r\n \"a\": ,é\r\n\x7d".toList 2 " \"a\": ,é\r".toList = " \"a\": ,é".toList := by
    decide
  have hone : ∀ c ∈ " \"a\": ,é".toList.take 7, c.utf8Size = 1 := by simp [Char.utf8Size]
  rw [hquoted] at hcaret
  exact ⟨herror, (hcaret 6 ⟨by decide, by decide⟩).2 (by decide) hone⟩

/-- A character of two bytes before the error moves the caret off it: it stands under the brace. -/
theorem caret_beside_byte :
    Json.parseChars "\x7b\"é\": x\x7d".toList = .error ⟨.expectedValue, ⟨1, 8⟩⟩ ∧
      HasByte "\x7b\"é\": x\x7d".toList 8 6 ∧ "\x7b\"é\": x\x7d".toList.drop 6 = ['x', '\x7d'] ∧
      aboveCaret (detailed (ofSyntax ⟨.expectedValue, ⟨1, 8⟩⟩ "\x7b\"é\": x\x7d".toList)).toList = ['\x7d'] :=
  ⟨by decide +kernel, ⟨by decide, by decide⟩, by decide, by decide +kernel⟩

end Error

end Minifier
