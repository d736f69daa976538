import Minifier.Proofs.Mangle.Names

/-!
Renaming at one place, and renaming back. A name that stands whole, with nothing beside it that could belong to it, is
renamed by itself: what stands on either side is renamed as if it stood alone. Renaming back gives the old code, if no
two names got the same short one and no short one was in the code.

The uses of a code are the names in it that stand alone. Renaming replaces each of them by its short name, and leaves
the others, which follow a point or go on with a longer word.
-/

namespace Minifier.Mangle

open Pattern

variable {before : Option Char} {name short code left behind : List Char} {cut cut' : List Piece} {names : Renaming}

/-! ### Renaming back -/

theorem lookup_swap (hshorts : (names.map Prod.snd).Nodup) (h : names.lookup name = some short) :
    (names.map Prod.swap).lookup short = some name := by
  have hentry := List.mem_map_of_mem (f := Prod.swap) (mem_of_lookup_eq_some h)
  rwa [Entries.lookup_eq_some_iff_mem (by simpa [List.map_map, Function.comp_def] using hshorts)]

theorem lookup_swap_eq_none (h : short ∉ names.map Prod.snd) : (names.map Prod.swap).lookup short = none := by
  rw [List.lookup_eq_none_iff]
  intro entry hentry
  obtain ⟨other, hother, rfl⟩ := List.mem_map.mp hentry
  have hne : short ≠ other.2 := fun heq => h (List.mem_map.mpr ⟨other, hother, heq.symm⟩)
  simpa using hne

/-- A name that is no short one comes back. -/
theorem Piece.rename_swap (hshorts : (names.map Prod.snd).Nodup) (hname : name ∉ names.map Prod.snd)
    (before : Option Char) :
    ((Piece.name name).rename names before).rename (names.map Prod.swap) before = .name name := by
  simp only [Piece.rename]
  split
  · cases hlookup : names.lookup name with
    | none => simp [lookup_swap_eq_none hname]
    | some short => simp [lookup_swap hshorts hlookup]
  · rfl

/-- Whether a name stands alone is decided by a character outside the names, so the same names are renamed back. -/
theorem IsCut.renamePieces_swap (h : IsCut cut) (hshorts : (names.map Prod.snd).Nodup)
    (hfresh : ∀ name, .name name ∈ cut → name ∉ names.map Prod.snd) (before : Option Char) :
    renamePieces (names.map Prod.swap) before (renamePieces names before cut) = cut := by
  induction h generalizing before with
  | nil => rfl
  | @other c cut _ _ ih =>
    have hrest := ih (fun name hname => hfresh name (List.mem_cons_of_mem _ hname)) (some c)
    exact congrArg (Piece.other c :: ·) hrest
  | @last name _ =>
    rw [renamePieces_cons, renamePieces_cons, Piece.rename_swap hshorts (hfresh name (by simp)) before]
    rfl
  | @name name c cut _ _ _ ih =>
    have hrest := ih (fun name hname => hfresh name (by simp [hname])) (some c)
    rw [renamePieces_cons, renamePieces_cons, Piece.rename_swap hshorts (hfresh name (by simp)) before]
    exact congrArg (Piece.name name :: Piece.other c :: ·) hrest

theorem rename_swap (hnames : ∀ entry ∈ names, IsName entry.2) (hshorts : (names.map Prod.snd).Nodup)
    (hfresh : ∀ entry ∈ names, entry.2 ∉ identifiers code) :
    rename (names.map Prod.swap) (rename names code) = code := by
  have hfresh' (name : List Char) (hname : .name name ∈ pieces code) : name ∉ names.map Prod.snd := by
    intro hshort
    obtain ⟨entry, hentry, rfl⟩ := List.mem_map.mp hshort
    exact hfresh entry hentry (mem_identifiers.mpr hname)
  rw [rename_eq _ (rename names code), pieces_rename hnames, (isCut_pieces code).renamePieces_swap hshorts hfresh',
    textOf_pieces]

/-! ### Uses -/

/-- The name that a piece is, if it stands alone behind a character. -/
def use? : Option Char × Piece → Option (List Char)
  | (_, .other _) => none
  | (before, .name name) => if standsAlone before then some name else none

/-- The names that stand alone in a code. -/
def uses (code : List Char) : List (List Char) := (placed none (pieces code)).filterMap use?

theorem use?_rename (names : Renaming) (before : Option Char) (name : List Char) :
    use? (before, (Piece.name name).rename names before) =
      (use? (before, .name name)).map fun name => (names.lookup name).getD name := by
  simp only [Piece.rename, use?]
  split <;> rfl

/-- What follows a name is no name, so no name stands behind a renamed one. -/
theorem IsCut.filterMap_use?_renamePieces (h : IsCut cut) (names : Renaming) (before : Option Char) :
    (placed before (renamePieces names before cut)).filterMap use? =
      ((placed before cut).filterMap use?).map fun name => (names.lookup name).getD name := by
  induction h generalizing before with
  | nil => rfl
  | @other c _ _ _ ih => exact ih (some c)
  | @last name _ =>
    simp only [renamePieces_cons, placed, List.filterMap_cons, use?_rename]
    cases use? (before, .name name) <;> rfl
  | @name name c cut _ _ _ ih =>
    have hrest := ih (some c)
    have hother (before : Option Char) : use? (before, .other c) = none := rfl
    simp only [renamePieces_cons, placed, List.filterMap_cons, use?_rename, Piece.rename_other, hother]
    cases use? (before, .name name) with
    | none => exact hrest
    | some text => exact congrArg (_ :: ·) hrest

/-- The uses of the renamed code are those of the old one, each under its short name if it has one. -/
theorem uses_rename (hnames : ∀ entry ∈ names, IsName entry.2) (code : List Char) :
    uses (rename names code) = (uses code).map fun name => (names.lookup name).getD name := by
  rw [uses, pieces_rename hnames, (isCut_pieces code).filterMap_use?_renamePieces, uses]

/-! ### Names that stand whole -/

/-- Whether a name stands whole between two texts: nothing beside it could belong to it. -/
structure IsWhole (name before behind : List Char) : Prop where
  isName : IsName name
  before : before.getLast?.any Class.namePart = false
  behind : behind.head?.any Class.namePart = false

theorem any_getLast?_of_cons {accepts : Char → Bool} {c : Char} {rest : List Char}
    (h : (c :: rest).getLast?.any accepts = false) : rest.getLast?.any accepts = false := by
  cases hrest : rest.getLast? with
  | none => rfl
  | some d => simpa [List.getLast?_cons, hrest] using h

/-- Cuts lie end to end where the first does not end with a name. -/
theorem IsCut.append (h : IsCut cut) (h' : IsCut cut') (hlast : (textOf cut).getLast?.any Class.namePart = false) :
    IsCut (cut ++ cut') := by
  induction h with
  | nil => exact h'
  | other hc _ ih => exact .other hc (ih (any_getLast?_of_cons hlast))
  | @last name hname =>
    have hc := List.getLast?_eq_some_getLast hname.ne_nil
    have hpart := hname.namePart _ (List.getLast_mem hname.ne_nil)
    simp [Piece.text, hc, hpart] at hlast
  | @name name c cut hname hc _ ih =>
    refine .name hname hc (ih ?_)
    have hrest : ((c :: textOf cut).getLast?).any Class.namePart = false := by
      simpa [Piece.text, List.getLast?_append, List.getLast?_cons] using hlast
    exact any_getLast?_of_cons hrest

/-- A text that does not go on with a name begins with no name. -/
theorem pieces_eq_nil_or_other (hbehind : behind.head?.any Class.namePart = false) :
    pieces behind = [] ∨ ∃ c cut, pieces behind = .other c :: cut ∧ Class.namePart c = false ∧ IsCut cut := by
  have hcut := isCut_pieces behind
  have htext := textOf_pieces behind
  have hnot {name : List Char} {cut : List Piece} (hname : IsName name)
      (htext : textOf (.name name :: cut) = behind) : False := by
    cases name with
    | nil => exact hname
    | cons c rest =>
      rw [← htext] at hbehind
      simp [Piece.text, namePart_of_nameStart hname.1] at hbehind
  generalize pieces behind = cut at hcut htext
  cases hcut with
  | nil => exact Or.inl rfl
  | @other c cut _ hcut =>
    rw [← htext] at hbehind
    exact Or.inr ⟨c, cut, rfl, by simpa [Piece.text] using hbehind, hcut⟩
  | last hname => exact (hnot hname htext).elim
  | name hname _ _ => exact (hnot hname htext).elim

/-- A name that stands whole is a piece. -/
theorem IsWhole.pieces_eq (h : IsWhole name left behind) :
    pieces (left ++ (name ++ behind)) = pieces left ++ .name name :: pieces behind := by
  have hright : IsCut (.name name :: pieces behind) := by
    rcases pieces_eq_nil_or_other h.behind with hnil | ⟨c, cut, hcut, hc, hrest⟩
    · rw [hnil]
      exact .last h.isName
    · rw [hcut]
      exact .name h.isName hc hrest
  have hcut : IsCut (pieces left ++ .name name :: pieces behind) :=
    (isCut_pieces left).append hright (by rw [textOf_pieces]; exact h.before)
  have htext := pieces_textOf hcut
  rwa [textOf_append, textOf_cons, textOf_pieces, textOf_pieces] at htext

theorem IsWhole.mem_identifiers (h : IsWhole name left behind) : name ∈ identifiers (left ++ (name ++ behind)) := by
  rw [Mangle.mem_identifiers, h.pieces_eq]
  simp

/-- Behind a name that stands whole, pieces are renamed as if nothing stood before them. -/
theorem renamePieces_of_behind (hbehind : behind.head?.any Class.namePart = false) (names : Renaming)
    (before : Option Char) : renamePieces names before (pieces behind) = renamePieces names none (pieces behind) := by
  rcases pieces_eq_nil_or_other hbehind with hnil | ⟨c, cut, hcut, -, -⟩
  · rw [hnil]
    rfl
  · rw [hcut]
    rfl

/-- A name that stands whole is renamed by itself, if it stands alone. -/
theorem IsWhole.rename_eq (h : IsWhole name left behind) (names : Renaming) :
    rename names (left ++ (name ++ behind)) =
      rename names left ++ ((if standsAlone left.getLast? then (names.lookup name).getD name else name) ++
        rename names behind) := by
  rw [Mangle.rename_eq, h.pieces_eq, renamePieces, (isCut_pieces left).placed_append, List.map_append, textOf_pieces,
    Option.or_none, ← renamePieces, ← renamePieces, renamePieces_cons, renamePieces_of_behind h.behind, textOf_append,
    textOf_cons, ← Mangle.rename_eq, ← Mangle.rename_eq]
  rfl

/-- Where a name stands whole and alone, it is a use. -/
theorem IsWhole.mem_uses (h : IsWhole name left behind) (halone : standsAlone left.getLast? = true) :
    name ∈ uses (left ++ (name ++ behind)) := by
  have huse : use? (left.getLast?, .name name) = some name := if_pos halone
  rw [uses, h.pieces_eq, (isCut_pieces left).placed_append, textOf_pieces, Option.or_none, List.mem_filterMap]
  exact ⟨_, List.mem_append_right _ List.mem_cons_self, huse⟩

end Minifier.Mangle
