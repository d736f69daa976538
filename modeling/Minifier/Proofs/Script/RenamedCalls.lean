import Minifier.Proofs.Mangle.Declarations
import Minifier.Proofs.Script.Calls

/-!
Words and calls in a code whose names are shortened. Renaming the short names back gives the code, and what stands in
the mangled code is carried along: a word that is no short name stays, since a short name has nothing but letters in it;
and the head of a call stays one whatever the member is called.
-/

namespace Minifier

open Pattern Text

namespace Mangle

variable {names : Renaming} {prev : Option Char} {c : Char} {cut cut' : List Piece}
  {code left rest name word before behind : List Char}

/-! ### Words among the pieces -/

/-- A name that stands somewhere in a code stands in one of its names. -/
theorem IsCut.exists_of_word (h : IsCut cut) (hword : IsName word) (htext : textOf cut = before ++ (word ++ rest)) :
    ∃ cut' front back cut'', cut = cut' ++ .name (front ++ (word ++ back)) :: cut'' ∧ before = textOf cut' ++ front ∧
      rest = back ++ textOf cut'' := by
  obtain ⟨first, tail, rfl⟩ := List.exists_cons_of_ne_nil hword.ne_nil
  induction h generalizing before with
  | nil => simp at htext
  | @other c cut hc _ ih =>
    cases before with
    | nil =>
      obtain ⟨rfl, -⟩ := List.cons.inj htext
      exact absurd hword.1 (Bool.eq_false_iff.mp hc)
    | cons d before =>
      obtain ⟨rfl, hrest⟩ := List.cons.inj htext
      obtain ⟨cut', front, back, cut'', rfl, rfl, rfl⟩ := ih hrest
      exact ⟨.other c :: cut', front, back, cut'', rfl, rfl, rfl⟩
  | @last name _ =>
    have hname : name = before ++ (first :: tail ++ rest) := by simpa [Piece.text] using htext
    exact ⟨[], before, rest, [], by rw [hname]; rfl, rfl, by simp⟩
  | @name name c cut _ hc _ ih =>
    have hwhole : name ++ c :: textOf cut = before ++ (first :: tail ++ rest) := htext
    have hother : ∀ d ∈ first :: tail, d ≠ c := by
      rintro d hd rfl
      exact Bool.eq_false_iff.mp hc (hword.namePart d hd)
    rcases List.append_eq_append_iff.mp hwhole with ⟨more, rfl, hmore⟩ | ⟨more, rfl, hmore⟩
    · cases more with
      | nil => exact absurd (List.cons.inj hmore).1.symm (hother first List.mem_cons_self)
      | cons d more =>
        obtain ⟨rfl, hrest⟩ := List.cons.inj hmore
        obtain ⟨cut', front, back, cut'', rfl, rfl, rfl⟩ := ih hrest
        exact ⟨.name name :: .other c :: cut', front, back, cut'', rfl, by simp [Piece.text], rfl⟩
    · rcases List.append_eq_append_iff.mp hmore with ⟨more', rfl, rfl⟩ | ⟨more', hwordEq, hmore'⟩
      · exact ⟨[], before, more', .other c :: cut, rfl, rfl, rfl⟩
      · cases more' with
        | nil =>
          obtain rfl : rest = c :: textOf cut := by simpa using hmore'.symm
          refine ⟨[], before, [], .other c :: cut, ?_, rfl, rfl⟩
          rw [hwordEq]
          simp
        | cons d more' =>
          obtain ⟨rfl, -⟩ := List.cons.inj hmore'
          exact absurd rfl (hother c (by rw [hwordEq]; simp))

/-- What stands before a name ends with a character that stays. -/
theorem IsCut.of_append_name (h : IsCut (cut ++ .name name :: cut')) : IsCut cut ∧ IsName name ∧ IsCut cut' ∧
    (∀ names before, (textOf (renamePieces names before cut)).getLast? = (textOf cut).getLast?) ∧
    ∀ names before, (textOf (renamePieces names before cut')).head? = (textOf cut').head? := by
  generalize hwhole : cut ++ .name name :: cut' = whole at h
  induction h generalizing cut with
  | nil => simp at hwhole
  | @other c rest hc hrest ih =>
    cases cut with
    | nil => cases (List.cons.inj hwhole).1
    | cons piece cut =>
      obtain ⟨rfl, hrest⟩ := List.cons.inj hwhole
      obtain ⟨hcut, hname, hcut', hlast, hhead⟩ := ih hrest
      refine ⟨.other hc hcut, hname, hcut', fun names before => ?_, hhead⟩
      rw [renamePieces_cons]
      simp [Piece.rename, Piece.text, List.getLast?_cons, hlast]
  | @last other hother =>
    cases cut with
    | nil =>
      obtain ⟨hname, rfl⟩ := List.cons.inj hwhole
      obtain rfl := Piece.name.inj hname
      exact ⟨.nil, hother, .nil, fun _ _ => rfl, fun _ _ => rfl⟩
    | cons piece cut => simp at hwhole
  | @name other c rest hother hc hrest ih =>
    cases cut with
    | nil =>
      obtain ⟨hname, rfl⟩ := List.cons.inj hwhole
      obtain rfl := Piece.name.inj hname
      exact ⟨.nil, hother, .other (not_nameStart_of_not_namePart hc) hrest, fun _ _ => rfl, fun _ _ => rfl⟩
    | cons piece cut =>
      obtain ⟨rfl, hbehind⟩ := List.cons.inj hwhole
      cases cut with
      | nil => cases (List.cons.inj hbehind).1
      | cons piece cut =>
        obtain ⟨rfl, hrest⟩ := List.cons.inj hbehind
        obtain ⟨hcut, hname, hcut', hlast, hhead⟩ := ih hrest
        refine ⟨.name hother hc hcut, hname, hcut', fun names before => ?_, hhead⟩
        rw [renamePieces_cons, renamePieces_cons]
        simp [Piece.rename, Piece.text, List.getLast?_cons, List.getLast?_append, hlast]

/-! ### Renaming from a place on -/

/-- A code after renaming, given the character before it. -/
def renameFrom (names : Renaming) (before : Option Char) (code : List Char) : List Char :=
  textOf (renamePieces names before (pieces code))

theorem renameFrom_cons (names : Renaming) (before : Option Char) (hc : Class.nameStart c = false) (rest : List Char) :
    renameFrom names before (c :: rest) = c :: renameFrom names (some c) rest := by
  have hcut : IsCut (.other c :: pieces rest) := .other hc (isCut_pieces rest)
  have hpieces := pieces_textOf hcut
  rw [textOf_cons, textOf_pieces] at hpieces
  have hpieces : pieces (c :: rest) = .other c :: pieces rest := hpieces
  rw [renameFrom, hpieces, renamePieces_cons]
  rfl

theorem exists_renameFrom_blanks (names : Renaming) (before : Option Char) {blanks : List Char}
    (hblanks : ∀ c ∈ blanks, isBlank c = true) (rest : List Char) :
    ∃ before', renameFrom names before (blanks ++ rest) = blanks ++ renameFrom names before' rest := by
  induction blanks generalizing before with
  | nil => exact ⟨before, rfl⟩
  | cons c blanks ih =>
    obtain ⟨hc, hrest⟩ := List.forall_mem_cons.mp hblanks
    obtain ⟨before', hbehind⟩ := ih (some c) hrest
    have hstart := not_nameStart_of_not_namePart (namePart_of_isBlank hc)
    exact ⟨before', by rw [List.cons_append, renameFrom_cons names before hstart, hbehind, List.cons_append]⟩

/-- A name gives way to a name. -/
theorem exists_renameFrom_name (hnames : ∀ entry ∈ names, IsName entry.2) (before : Option Char) (hname : IsName name)
    (hbehind : behind.head?.any Class.namePart = false) :
    ∃ name' before', renameFrom names before (name ++ behind) = name' ++ renameFrom names before' behind ∧
      IsName name' := by
  have hwhole : IsWhole name [] behind := ⟨hname, rfl, hbehind⟩
  have hpieces : pieces (name ++ behind) = .name name :: pieces behind := hwhole.pieces_eq
  obtain ⟨name', hrename, hname'⟩ := hname.exists_rename hnames before
  exact ⟨name', name.getLast?, by rw [renameFrom, hpieces, renamePieces_cons, hrename]; rfl, hname'⟩

/-- A character that is in no name cuts a code in two. -/
theorem IsCut.append_other (h : IsCut cut) (hc : Class.namePart c = false) (h' : IsCut cut') :
    IsCut (cut ++ .other c :: cut') := by
  induction h with
  | nil => exact .other (not_nameStart_of_not_namePart hc) h'
  | other hd _ ih => exact .other hd ih
  | last hname => exact .name hname hc h'
  | name hname hd _ ih => exact .name hname hd ih

theorem renameFrom_append (names : Renaming) (before : Option Char) (hc : Class.namePart c = false)
    (left right : List Char) :
    renameFrom names before (left ++ c :: right) =
      renameFrom names before left ++ c :: renameFrom names (some c) right := by
  have hcut := (isCut_pieces left).append_other hc (isCut_pieces right)
  have hpieces := pieces_textOf hcut
  rw [textOf_append, textOf_cons, textOf_pieces, textOf_pieces] at hpieces
  have hpieces : pieces (left ++ c :: right) = pieces left ++ .other c :: pieces right := hpieces
  rw [renameFrom, hpieces, renamePieces, (isCut_pieces left).placed_append, List.map_append, textOf_append]
  rfl

/-- A word stays where no word goes on beside it, if it is not renamed itself. The name that it stands in may go on with
dollar signs, but then it is not renamed either. -/
theorem exists_rename_of_word (hword : IsName word) (hkeys : ∀ entry ∈ names, ∀ c ∈ entry.1, isWord c = true)
    (hfree : word ∉ names.map Prod.fst) (hbefore : before.getLast?.any isWord = false)
    (hrest : rest.head?.any isWord = false) :
    ∃ before' back behind last, rest = back ++ behind ∧ (∀ c ∈ back, Class.namePart c = true) ∧
      rename names (before ++ (word ++ rest)) = before' ++ (word ++ (back ++ renameFrom names last behind)) ∧
      before'.getLast?.any isWord = false ∧ (renameFrom names last behind).head? = behind.head? := by
  have hcut := isCut_pieces (before ++ (word ++ rest))
  obtain ⟨cut, front, back, cut', hpieces, rfl, rfl⟩ := hcut.exists_of_word hword (textOf_pieces _)
  rw [hpieces] at hcut
  obtain ⟨hleft, hname, hright, hlast, hhead⟩ := hcut.of_append_name
  have hfree' : front ++ (word ++ back) ∉ names.map Prod.fst := by
    intro hmem
    obtain ⟨entry, hentry, hkey⟩ := List.mem_map.mp hmem
    have hall : ∀ c ∈ front ++ (word ++ back), isWord c = true := hkey ▸ hkeys entry hentry
    have hfront : front = [] := by
      by_contra hne
      rw [List.getLast?_append_of_ne_nil _ hne, List.getLast?_eq_some_getLast hne] at hbefore
      exact Bool.eq_false_iff.mp hbefore (hall _ (List.mem_append_left _ (List.getLast_mem hne)))
    have hback : back = [] := by
      cases back with
      | nil => rfl
      | cons c back => exact absurd (hall c (by simp)) (Bool.eq_false_iff.mp hrest)
    rw [hfront, hback, List.nil_append, List.append_nil] at hmem
    exact hfree hmem
  have hlookup : names.lookup (front ++ (word ++ back)) = none := by
    rw [← Option.isNone_iff_eq_none, ← Option.isSome_eq_false_iff, Bool.eq_false_iff]
    exact fun h => hfree' (isSome_lookup_iff.mp h)
  have hstays : ∀ before,
      (Piece.name (front ++ (word ++ back))).rename names before = .name (front ++ (word ++ back)) := by
    simp [Piece.rename, hlookup]
  have hbehind : pieces (textOf cut') = cut' := pieces_textOf hright
  refine ⟨textOf (renamePieces names none cut) ++ front, back, textOf cut', (front ++ (word ++ back)).getLast?, rfl,
    fun c hc => hname.namePart c (by simp [hc]), ?_, ?_, by rw [renameFrom, hbehind]; exact hhead names _⟩
  · rw [rename_eq, hpieces, renamePieces, hleft.placed_append, List.map_append, ← renamePieces, ← renamePieces,
      renamePieces_cons, hstays, textOf_append, textOf_cons, renameFrom, hbehind]
    simp [Piece.text]
  · rw [List.getLast?_append, hlast, ← List.getLast?_append]
    exact hbefore

/-! ### Renaming back -/

/-- Short names back to the names that have them. -/
def backwards (code : List Char) : Renaming := (mangle code).renamed.map Prod.swap

theorem rename_backwards (code : List Char) : rename (backwards code) (mangle code).code = code := by
  rw [mangle_eq]
  refine rename_swap (fun _ => isName_of_mem_renamed) (nodup_renamed code).2 fun entry hentry => ?_
  obtain ⟨_, -, hfresh, -⟩ := exists_of_mem_renamed hentry
  exact hfresh

theorem isName_of_mem_backwards : ∀ entry ∈ backwards code, IsName entry.2 := by
  intro entry hentry
  obtain ⟨renamed, hrenamed, rfl⟩ := List.mem_map.mp hentry
  obtain ⟨_, _, _, _, -, -, -, -, -, hwhole⟩ := isDeclared_of_mem (mem_declaredNames_of_mem_renamed hrenamed)
  exact hwhole.isName

theorem isWord_of_mem_backwards : ∀ entry ∈ backwards code, ∀ c ∈ entry.1, isWord c = true := by
  intro entry hentry
  obtain ⟨renamed, hrenamed, rfl⟩ := List.mem_map.mp hentry
  obtain ⟨n, hshort, -⟩ := exists_of_mem_renamed hrenamed
  rw [Prod.fst_swap, hshort]
  exact isWord_of_mem_base26 n

theorem map_fst_backwards (code : List Char) : (backwards code).map Prod.fst = (mangle code).renamed.map Prod.snd := by
  simp [backwards]

end Mangle

namespace Script

variable {names : Mangle.Renaming} {code word head rest : List Char}

open Mangle

/-- Names have no brackets in them. -/
theorem bracketsOf_renameFrom (hnames : ∀ entry ∈ names, IsName entry.2) (before : Option Char) (code : List Char) :
    bracketsOf (renameFrom names before code) = bracketsOf code := by
  have hnone : ∀ {name : List Char}, IsName name → bracketsOf name = [] := fun hname =>
    bracketsOf_eq_nil_iff.mpr (not_bracket_of_forall Class.namePart rfl hname.namePart)
  suffices hcut : ∀ {cut : List Mangle.Piece}, IsCut cut → ∀ before,
      bracketsOf (textOf (renamePieces names before cut)) = bracketsOf (textOf cut) by
    rw [renameFrom, hcut (isCut_pieces code), textOf_pieces]
  intro cut hcut
  induction hcut with
  | nil => exact fun _ => rfl
  | other _ _ ih =>
    intro before
    rw [renamePieces_cons, textOf_cons, textOf_cons, bracketsOf_append, bracketsOf_append, ih]
    rfl
  | last hname =>
    intro before
    obtain ⟨new, hrename, hnew⟩ := hname.exists_rename hnames before
    rw [renamePieces_cons, hrename, textOf_cons, textOf_cons, bracketsOf_append, bracketsOf_append, Mangle.Piece.text,
      Mangle.Piece.text, hnone hnew, hnone hname]
    rfl
  | name hname _ _ ih =>
    intro before
    obtain ⟨new, hrename, hnew⟩ := hname.exists_rename hnames before
    simp only [renamePieces_cons, hrename, textOf_cons, bracketsOf_append, Mangle.Piece.text, hnone hnew, hnone hname,
      ih, Mangle.Piece.rename_other]

theorem HoldsWord.rename (h : HoldsWord word code) (hword : IsName word)
    (hkeys : ∀ entry ∈ names, ∀ c ∈ entry.1, isWord c = true) (hfree : word ∉ names.map Prod.fst) :
    HoldsWord word (Mangle.rename names code) := by
  obtain ⟨before, rest, rfl, hbefore, hrest⟩ := h
  obtain ⟨before', back, behind, last, rfl, -, hrename, hbefore', hhead⟩ :=
    exists_rename_of_word hword hkeys hfree hbefore hrest
  refine ⟨before', _, hrename, hbefore', ?_⟩
  rwa [List.head?_append, hhead, ← List.head?_append]

/-- Behind the word, the head of a call stays one under another name. -/
theorem exists_renameFrom_callHead (hnames : ∀ entry ∈ names, IsName entry.2) (before : Option Char)
    {first second name gap : List Char} (hfirst : ∀ c ∈ first, isBlank c = true)
    (hsecond : ∀ c ∈ second, isBlank c = true) (hname : IsName name) (hgap : ∀ c ∈ gap, isBlank c = true) :
    ∃ name', IsName name' ∧
      renameFrom names before (first ++ '.' :: (second ++ (name ++ (gap ++ '(' :: rest)))) =
        first ++ '.' :: (second ++ (name' ++ (gap ++ '(' :: renameFrom names (some '(') rest))) := by
  have hnot : ∀ {c : Char} {gap : List Char}, (∀ c ∈ gap, isBlank c = true) → Class.namePart c = false →
      ∀ rest, (gap ++ c :: rest).head?.any Class.namePart = false := by
    intro c gap hgap hc rest
    cases gap with
    | nil => exact hc
    | cons d gap => exact namePart_of_isBlank (hgap d List.mem_cons_self)
  obtain ⟨_, hone⟩ := exists_renameFrom_blanks names before hfirst ('.' :: (second ++ (name ++ (gap ++ '(' :: rest))))
  obtain ⟨_, htwo⟩ := exists_renameFrom_blanks names (some '.') hsecond (name ++ (gap ++ '(' :: rest))
  obtain ⟨name', _, hthree, hname'⟩ := exists_renameFrom_name hnames _ hname (hnot hgap (c := '(') rfl rest)
  obtain ⟨_, hfour⟩ := exists_renameFrom_blanks names _ hgap ('(' :: rest)
  refine ⟨name', hname', ?_⟩
  rw [hone, renameFrom_cons _ _ (by decide), htwo, hthree, hfour, renameFrom_cons _ _ (by decide)]

/-- A call stays one. -/
theorem HoldsCall.rename (h : HoldsCall code) (hnames : ∀ entry ∈ names, IsName entry.2)
    (hkeys : ∀ entry ∈ names, ∀ c ∈ entry.1, isWord c = true) (hfree : "console".toList ∉ names.map Prod.fst) :
    HoldsCall (Mangle.rename names code) := by
  obtain ⟨before, _, inside, behind, rfl, hbefore, ⟨@⟨first, second, name, hfirst, hsecond, hname⟩, hgap⟩, hinside⟩ := h
  rename_i gap
  generalize hrest : first ++ '.' :: (second ++ (name ++ (gap ++ '(' :: (inside ++ ')' :: behind)))) = rest
  have hpart : rest.head?.any Class.namePart = false := by
    rw [← hrest]
    cases first with
    | nil => rfl
    | cons c first => exact namePart_of_isBlank (hfirst c List.mem_cons_self)
  have hword : rest.head?.any isWord = false := by
    rw [← hrest]
    cases first with
    | nil => rfl
    | cons c first => exact isWord_of_isBlank (hfirst c List.mem_cons_self)
  have hisName : IsName "console".toList := by decide
  obtain ⟨before', back, behind', last, hback, hbackPart, hrename, hbefore', -⟩ :=
    exists_rename_of_word hisName hkeys hfree hbefore hword
  obtain rfl : back = [] := by
    cases back with
    | nil => rfl
    | cons c back =>
      rw [hback] at hpart
      exact absurd (hbackPart c List.mem_cons_self) (Bool.eq_false_iff.mp hpart)
  obtain rfl : rest = behind' := hback
  obtain ⟨name', hname', hhead⟩ := exists_renameFrom_callHead hnames last hfirst hsecond hname hgap
  have hclose := renameFrom_append names (some '(') (c := ')') rfl inside behind
  refine ⟨before', "console".toList ++ first ++ ['.'] ++ second ++ name' ++ gap, renameFrom names (some '(') inside,
    renameFrom names (some ')') behind, ?_, hbefore', .mk (.mk hfirst hsecond hname') hgap,
    hinside.congr (bracketsOf_renameFrom hnames _ inside).symm⟩
  have hcode : before ++ ("console".toList ++ first ++ ['.'] ++ second ++ name ++ gap ++
      '(' :: (inside ++ ')' :: behind)) = before ++ ("console".toList ++ rest) := by simp [← hrest]
  rw [hcode, hrename, ← hrest, hhead, hclose]
  simp

/-! ### Mangled codes -/

/-- A reserved word that no word goes on beside in the mangled code was there before. -/
theorem HoldsWord.of_mangle {word : List Char} (h : HoldsWord word (Mangle.mangle code).code)
    (hreserved : word ∈ Mangle.reservedWords) : HoldsWord word code := by
  have hfree : word ∉ (Mangle.backwards code).map Prod.fst := by
    rw [Mangle.map_fst_backwards]
    intro hmem
    obtain ⟨entry, hentry, rfl⟩ := List.mem_map.mp hmem
    obtain ⟨_, -, -, hnot, -⟩ := Mangle.exists_of_mem_renamed hentry
    exact hnot hreserved
  have hback := h.rename (Mangle.isName_of_mem_reservedWords hreserved) Mangle.isWord_of_mem_backwards hfree
  rwa [Mangle.rename_backwards] at hback

/-- A call in the mangled code was there before, if no name is shortened to the word of the console. -/
theorem HoldsCall.of_mangle (h : HoldsCall (Mangle.mangle code).code)
    (hfree : "console".toList ∉ (Mangle.mangle code).renamed.map Prod.snd) : HoldsCall code := by
  rw [← Mangle.map_fst_backwards] at hfree
  have hback := h.rename Mangle.isName_of_mem_backwards Mangle.isWord_of_mem_backwards hfree
  rwa [Mangle.rename_backwards] at hback

end Script

end Minifier
