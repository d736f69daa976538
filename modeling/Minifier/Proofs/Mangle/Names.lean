import Minifier.Proofs.Entries
import Minifier.Proofs.Minify.Carry
import Minifier.Proofs.Pattern.Taken

/-!
The names in a code, and what renaming does to them. A search for names cuts a code into names and the characters
between them. A name goes as far as it can, so no character that could belong to it comes next; and that alone fixes
the cut. Writing other names in the place of some therefore cuts the code at the same places, and whether a name stands
alone is read off a character that stays.

Names are sought among ASCII letters, underscores and dollar signs, and go on with word characters and dollar signs. A
letter beyond ASCII begins no name, so a name may be the rest of a longer word.
-/

namespace Minifier.Mangle

open Pattern

variable {index : Nat} {prev before : Option Char} {c : Char} {name short code rest behind : List Char}

/-! ### Names -/

/-- Whether a text is a name: a character that begins one, and any number that may follow it. -/
def IsName : List Char → Prop
  | [] => False
  | c :: rest => Class.nameStart c = true ∧ ∀ d ∈ rest, Class.namePart d = true

instance IsName.decidable : DecidablePred IsName
  | [] => inferInstanceAs (Decidable False)
  | c :: rest => decidable_of_iff (Class.nameStart c = true ∧ rest.all Class.namePart = true)
      (and_congr_right fun _ => List.all_eq_true)

theorem namePart_of_nameStart (hc : Class.nameStart c = true) : Class.namePart c = true := by
  simp only [Class.nameStart, Class.namePart, Bool.or_eq_true, beq_iff_eq] at hc ⊢
  rcases hc with (hletter | rfl) | hdollar
  · have hascii : c.toNat < 128 := by
      have hcase : (decide (65 ≤ c.val ∧ c.val ≤ 90) || (decide (97 ≤ c.val) && decide (c.val ≤ 122))) = true := hletter
      simp only [Bool.or_eq_true, Bool.and_eq_true, decide_eq_true_eq, UInt32.le_iff_toNat_le] at hcase
      have hz : c.val.toNat ≤ 122 := hcase.elim (fun h => Nat.le_trans h.2 (by decide)) fun h => h.2
      exact Nat.lt_of_le_of_lt hz (by decide)
    have hword : Text.isWord c = true := by
      rw [Text.isWord, if_pos hascii, Char.isAlphanum, hletter, Bool.true_or, Bool.true_or]
    exact Or.inl hword
  · exact Or.inl (by decide)
  · exact Or.inr hdollar

/-- Every character of a name may follow another one. -/
theorem IsName.namePart (h : IsName name) : ∀ c ∈ name, Class.namePart c = true := by
  cases name with
  | nil => exact h.elim
  | cons c rest => exact List.forall_mem_cons.mpr ⟨namePart_of_nameStart h.1, h.2⟩

theorem IsName.append (h : IsName name) (hrest : ∀ c ∈ rest, Class.namePart c = true) : IsName (name ++ rest) := by
  cases name with
  | nil => exact h.elim
  | cons c first => exact ⟨h.1, List.forall_mem_append.mpr ⟨h.2, hrest⟩⟩

theorem IsName.ne_nil (h : IsName name) : name ≠ [] := by
  rintro rfl
  exact h

/-! ### Finding names -/

theorem identifier_matchAt_eq_none (hc : Class.nameStart c = false) (index : Nat) (prev : Option Char)
    (rest : List Char) : identifier.matchAt index prev (c :: rest) = none := by
  have hwalk : identifier.walk ⟨index, prev, c :: rest, []⟩ some =
      if Class.nameStart c then (run Class.namePart).walk ⟨index + 1, some c, rest, []⟩ some else none := rfl
  rw [matchAt, hwalk, hc]
  rfl

/-- A name takes all that may belong to it. -/
theorem exists_identifier_matchAt (hc : Class.nameStart c = true) (index : Nat) (prev : Option Char)
    (rest : List Char) : ∃ found, identifier.matchAt index prev (c :: rest) = some found ∧
      found.text = c :: rest.takeWhile Class.namePart := by
  have hwalk : identifier.walk ⟨index, prev, c :: rest, []⟩ some =
      some (Spot.behind ⟨index + 1, some c, rest, []⟩ Class.namePart) := by
    have hseq : identifier.walk ⟨index, prev, c :: rest, []⟩ some =
        if Class.nameStart c then (run Class.namePart).walk ⟨index + 1, some c, rest, []⟩ some else none := rfl
    rw [hseq, if_pos hc]
    exact walk_run_of_isSome rfl
  refine exists_matchAt_of_walk hwalk (cons_takeWhile_append_dropWhile c Class.namePart rest) ?_
  rw [Spot.behind, Spot.after_index, List.length_cons, Nat.add_assoc, Nat.add_comm 1]

/-- Whatever is found is a name that takes all that may belong to it. -/
theorem exists_of_identifier_matchAt {found : Match} (h : identifier.matchAt index prev code = some found) :
    ∃ c rest, code = c :: rest ∧ Class.nameStart c = true ∧ found.text = c :: rest.takeWhile Class.namePart := by
  cases code with
  | nil => cases h
  | cons c rest =>
    have hc : Class.nameStart c = true := by
      by_contra hnot
      rw [identifier_matchAt_eq_none (Bool.eq_false_iff.mpr hnot)] at h
      cases h
    obtain ⟨found', hfound', htext⟩ := exists_identifier_matchAt hc index prev rest
    obtain rfl := Option.some.inj (h.symm.trans hfound')
    exact ⟨c, rest, rfl, hc, htext⟩

theorem takes_identifier {taken : List Char} {parts : Parts} :
    identifier.Takes prev taken behind parts ↔ IsName taken ∧ parts = [] := by
  constructor
  · rintro ⟨_, rest, _, _, ⟨⟨c, hc, rfl⟩, rfl⟩, ⟨hrest, rfl⟩, rfl, rfl⟩
    exact ⟨⟨hc, hrest⟩, rfl⟩
  · rintro ⟨hname, rfl⟩
    cases taken with
    | nil => exact hname.elim
    | cons c rest => exact ⟨[c], rest, [], [], ⟨⟨c, hname.1, rfl⟩, rfl⟩, ⟨hname.2, rfl⟩, rfl, rfl⟩

/-- A name with nothing behind it that may belong to it is found as it is. -/
theorem IsName.exists_matchAt (h : IsName name) (hbehind : behind.head?.any Class.namePart = false) (index : Nat)
    (prev : Option Char) :
    ∃ found, identifier.matchAt index prev (name ++ behind) = some found ∧ found.text = name := by
  cases name with
  | nil => exact h.elim
  | cons c rest =>
    obtain ⟨found, hfound, htext⟩ := exists_identifier_matchAt h.1 index prev (rest ++ behind)
    rw [(takeWhile_append_of_head h.2 hbehind).1] at htext
    exact ⟨found, hfound, htext⟩

/-! ### Pieces -/

/-- A piece of a code. -/
inductive Piece where
  /-- A character outside every name. -/
  | other (c : Char) : Piece
  /-- A name. -/
  | name (text : List Char) : Piece
  deriving DecidableEq, Repr

namespace Piece

def text : Piece → List Char
  | .other c => [c]
  | .name text => text

def ofSegment : Segment → Piece
  | .plain c => .other c
  | .hit found => .name found.text

end Piece

/-- The pieces of a code, from left to right. -/
def pieces (code : List Char) : List Piece := (identifier.segments code).map Piece.ofSegment

def textOf (cut : List Piece) : List Char := cut.flatMap Piece.text

@[simp] theorem textOf_nil : textOf [] = [] := rfl

@[simp] theorem textOf_cons (piece : Piece) (cut : List Piece) : textOf (piece :: cut) = piece.text ++ textOf cut :=
  List.flatMap_cons

@[simp] theorem textOf_append (cut cut' : List Piece) : textOf (cut ++ cut') = textOf cut ++ textOf cut' :=
  List.flatMap_append

/-- Whether pieces are those of a code: no name begins outside the names, and none could go on. -/
inductive IsCut : List Piece → Prop where
  | nil : IsCut []
  | other {c : Char} {cut : List Piece} : Class.nameStart c = false → IsCut cut → IsCut (.other c :: cut)
  | last {name : List Char} : IsName name → IsCut [.name name]
  | name {name : List Char} {c : Char} {cut : List Piece} : IsName name → Class.namePart c = false → IsCut cut →
      IsCut (.name name :: .other c :: cut)

variable {segments : List Segment} {cut cut' : List Piece} {names : Renaming}

theorem not_nameStart_of_not_namePart (hc : Class.namePart c = false) : Class.nameStart c = false :=
  Bool.eq_false_iff.mpr fun hstart => Bool.eq_false_iff.mp hc (namePart_of_nameStart hstart)

/-- What a search finds is a cut. -/
theorem isCut_of_segmented (h : identifier.Segmented index prev code segments) :
    IsCut (segments.map Piece.ofSegment) := by
  induction h with
  | done => exact .nil
  | @plain index prev c rest _ hnone _ ih =>
    refine .other (Bool.eq_false_iff.mpr fun hc => ?_) ih
    obtain ⟨found, hfound, htext⟩ := exists_identifier_matchAt hc index prev rest
    exact List.cons_ne_nil _ _ (htext.symm.trans (hnone found hfound))
  | @hit index prev code rest found segments hfound hcode hrest ih =>
    obtain ⟨c, more, rfl, hc, htext⟩ := exists_of_identifier_matchAt hfound
    have hname : IsName found.text := by
      rw [htext]
      exact ⟨hc, List.all_eq_true.mp List.all_takeWhile⟩
    have hbehind : rest = more.dropWhile Class.namePart := by
      rw [htext, cons_takeWhile_append_dropWhile c Class.namePart more] at hcode
      exact (List.append_cancel_left hcode).symm
    have hstop := any_head?_dropWhile Class.namePart more
    rw [← hbehind] at hstop
    cases hrest with
    | done => exact .last hname
    | plain =>
      cases ih with
      | other _ hcut => exact .name hname (by simpa using hstop) hcut
    | hit hnext =>
      -- The next name would begin with a character that goes on with this one.
      obtain ⟨d, _, rfl, hd, -⟩ := exists_of_identifier_matchAt hnext
      exact absurd (namePart_of_nameStart hd) (by simpa using hstop)

theorem isCut_pieces (code : List Char) : IsCut (pieces code) := isCut_of_segmented (segments_segmented identifier code)

theorem textOf_pieces (code : List Char) : textOf (pieces code) = code := by
  have htext : ∀ segment : Segment, (Piece.ofSegment segment).text = segment.text := by rintro (_ | _) <;> rfl
  rw [textOf, pieces, List.flatMap_map]
  simp only [htext]
  exact (segments_segmented identifier code).flatMap_text

/-- A search finds a cut again. -/
theorem IsCut.exists_segmented (h : IsCut cut) (index : Nat) (prev : Option Char) :
    ∃ segments, identifier.Segmented index prev (textOf cut) segments ∧ segments.map Piece.ofSegment = cut := by
  induction h generalizing index prev with
  | nil => exact ⟨[], .done, rfl⟩
  | @other c cut hc _ ih =>
    obtain ⟨segments, hsegments, rfl⟩ := ih (index + 1) (some c)
    exact ⟨.plain c :: segments, .plain (by simp [identifier_matchAt_eq_none hc]) hsegments, rfl⟩
  | @last name hname =>
    obtain ⟨found, hfound, rfl⟩ := @IsName.exists_matchAt name [] hname rfl index prev
    exact ⟨[.hit found], .hit hfound rfl .done, rfl⟩
  | @name name c cut hname hc _ ih =>
    have hbehind : (c :: textOf cut).head?.any Class.namePart = false := hc
    obtain ⟨found, hfound, rfl⟩ := hname.exists_matchAt hbehind index prev
    obtain ⟨segments, hsegments, rfl⟩ := ih (index + found.text.length + 1) (some c)
    have hnone := identifier_matchAt_eq_none (not_nameStart_of_not_namePart hc)
    exact ⟨.hit found :: .plain c :: segments, .hit hfound rfl (.plain (by simp [hnone]) hsegments), rfl⟩

/-- The pieces of a code are known by being a cut. -/
theorem pieces_textOf (h : IsCut cut) : pieces (textOf cut) = cut := by
  obtain ⟨segments, hsegments, rfl⟩ := h.exists_segmented 0 none
  rw [pieces, (segments_segmented identifier _).unique (by decide) hsegments]

/-- The names that a search finds are those among the pieces. -/
theorem mem_identifiers : name ∈ identifiers code ↔ .name name ∈ pieces code := by
  rw [identifiers, allMatches, pieces, List.mem_map, List.mem_map]
  constructor
  · rintro ⟨found, hfound, rfl⟩
    obtain ⟨segment, hsegment, hhit⟩ := List.mem_filterMap.mp hfound
    cases segment with
    | plain _ => cases hhit
    | hit _ => exact ⟨_, hsegment, congrArg (Piece.name ∘ Match.text) (Option.some.inj hhit)⟩
  · rintro ⟨segment, hsegment, hname⟩
    cases segment with
    | plain _ => cases hname
    | hit found => exact ⟨found, List.mem_filterMap.mpr ⟨_, hsegment, rfl⟩, Piece.name.inj hname⟩

/-! ### Renaming -/

theorem mem_of_lookup_eq_some (h : names.lookup name = some short) : (name, short) ∈ names := by
  obtain ⟨_, _, rfl, -⟩ := List.lookup_eq_some_iff.mp h
  simp

theorem isSome_lookup_iff : (names.lookup name).isSome = true ↔ name ∈ names.map Prod.fst := by
  constructor
  · intro h
    obtain ⟨short, hshort⟩ := Option.isSome_iff_exists.mp h
    exact List.mem_map.mpr ⟨_, mem_of_lookup_eq_some hshort, rfl⟩
  · intro h
    obtain ⟨entry, hentry, rfl⟩ := List.mem_map.mp h
    by_contra hnone
    rw [Bool.not_eq_true, Option.isSome_eq_false_iff, Option.isNone_iff_eq_none, List.lookup_eq_none_iff] at hnone
    simpa using hnone entry hentry

namespace Piece

/-- A piece after renaming, given the character before it. -/
def rename (names : Renaming) (before : Option Char) : Piece → Piece
  | .other c => .other c
  | .name text => .name (if standsAlone before then (names.lookup text).getD text else text)

theorem rename_other (names : Renaming) (before : Option Char) (c : Char) : (other c).rename names before = .other c :=
  rfl

end Piece

/-- Pieces, each with the character before it. -/
def placed : Option Char → List Piece → List (Option Char × Piece)
  | _, [] => []
  | before, piece :: cut => (before, piece) :: placed piece.text.getLast? cut

/-- Pieces are placed one after the other. -/
theorem IsCut.placed_append (h : IsCut cut) (before : Option Char) (cut' : List Piece) :
    placed before (cut ++ cut') = placed before cut ++ placed ((textOf cut).getLast?.or before) cut' := by
  induction h generalizing before with
  | nil => rfl
  | other _ _ ih =>
    simp only [List.cons_append, placed, ih, textOf_cons, Piece.text, List.nil_append, List.getLast?_singleton,
      getLast?_cons_or]
  | last hname =>
    simp only [List.cons_append, List.nil_append, placed, textOf_cons, textOf_nil, Piece.text, List.append_nil,
      List.getLast?_eq_some_getLast hname.ne_nil, Option.some_or]
  | name _ _ _ ih =>
    simp only [List.cons_append, placed, ih, textOf_cons, Piece.text, List.nil_append, List.getLast?_append,
      List.getLast?_singleton, getLast?_cons_or, Option.or_assoc, Option.some_or]

/-- Pieces after renaming. Whether a name stands alone is decided in the old code. -/
def renamePieces (names : Renaming) (before : Option Char) (cut : List Piece) : List Piece :=
  (placed before cut).map fun entry => entry.2.rename names entry.1

theorem renamePieces_cons (names : Renaming) (before : Option Char) (piece : Piece) (cut : List Piece) :
    renamePieces names before (piece :: cut) =
      piece.rename names before :: renamePieces names piece.text.getLast? cut := rfl

/-- A code after renaming. -/
def rename (names : Renaming) (code : List Char) : List Char :=
  renameSegments names none (identifier.segments code) []

theorem renameSegments_eq_textOf (names : Renaming) (before : Option Char) (segments : List Segment) :
    renameSegments names before segments [] =
      textOf (renamePieces names before (segments.map Piece.ofSegment)) := by
  induction segments generalizing before with
  | nil => rfl
  | cons segment segments ih =>
    cases segment with
    | plain c =>
      rw [renameSegments, renameSegments_eq, ih]
      rfl
    | hit found =>
      rw [renameSegments, renameSegments_eq, ih, List.reverseAux_eq, List.append_nil, List.reverse_reverse]
      rfl

theorem rename_eq (names : Renaming) (code : List Char) :
    rename names code = textOf (renamePieces names none (pieces code)) :=
  renameSegments_eq_textOf names none _

theorem renamePieces_nil (before : Option Char) (cut : List Piece) : renamePieces [] before cut = cut := by
  induction cut generalizing before with
  | nil => rfl
  | cons piece cut ih =>
    rw [renamePieces_cons, ih]
    cases piece <;> simp [Piece.rename]

/-- Without names nothing changes, so a code is always the renamed one. -/
theorem mangle_eq (code : List Char) : (mangle code).code = rename (mangle code).renamed code := by
  simp only [mangle]
  split
  · rename_i hempty
    rw [List.isEmpty_iff.mp hempty, rename_eq, renamePieces_nil, textOf_pieces]
  · rfl

/-- Renaming to names makes a name of a name. -/
theorem IsName.exists_rename (hname : IsName name) (hnames : ∀ entry ∈ names, IsName entry.2) (before : Option Char) :
    ∃ new, (Piece.name name).rename names before = .name new ∧ IsName new := by
  refine ⟨_, rfl, ?_⟩
  split
  · cases hlookup : names.lookup name with
    | none => exact hname
    | some short => exact hnames (name, short) (mem_of_lookup_eq_some hlookup)
  · exact hname

/-- So it keeps a cut. -/
theorem IsCut.isCut_renamePieces (h : IsCut cut) (hnames : ∀ entry ∈ names, IsName entry.2) (before : Option Char) :
    IsCut (renamePieces names before cut) := by
  induction h generalizing before with
  | nil => exact .nil
  | other hc _ ih => exact .other hc (ih _)
  | last hname =>
    obtain ⟨new, hnew, hnewName⟩ := hname.exists_rename hnames before
    rw [renamePieces_cons, hnew]
    exact .last hnewName
  | name hname hc _ ih =>
    obtain ⟨new, hnew, hnewName⟩ := hname.exists_rename hnames before
    rw [renamePieces_cons, hnew]
    exact .name hnewName hc (ih _)

/-- The pieces of the renamed code are the renamed pieces. -/
theorem pieces_rename (hnames : ∀ entry ∈ names, IsName entry.2) (code : List Char) :
    pieces (rename names code) = renamePieces names none (pieces code) := by
  rw [rename_eq]
  exact pieces_textOf ((isCut_pieces code).isCut_renamePieces hnames none)

end Minifier.Mangle
