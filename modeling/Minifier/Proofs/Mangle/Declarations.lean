import Minifier.Proofs.Mangle.Renaming
import Minifier.Proofs.Mangle.ShortNames
import Minifier.Proofs.Pattern.Enclosed
import Minifier.Proofs.Text.Words

/-!
Declared names and what becomes of them. A declared name stands whole behind a declaring word and blanks, wherever in
the code that is; nothing else is asked of it. It draws a short name at its first declaration, and where the short name
is shorter, the code is renamed.

So each place where such a name stands alone holds the short name afterwards, and where it stands behind a point, or
goes on with a longer word, it stays.
-/

namespace Minifier.Mangle

open Pattern Text

variable {code left behind name short word : List Char} {entry : List Char × List Char}

/-! ### Declarations -/

/-- The words that declare the name behind them. -/
def declaringWords : List String := ["var", "let", "const", "function", "class"]

/-- Whether a name is declared in a code: it stands whole somewhere behind a declaring word and blanks. -/
def IsDeclared (name code : List Char) : Prop :=
  ∃ left word blanks behind, word ∈ declaringWords ∧ left.getLast?.any isWord = false ∧
    blanks ≠ [] ∧ (∀ c ∈ blanks, isBlank c = true) ∧
    code = left ++ (word.toList ++ blanks) ++ (name ++ behind) ∧ IsWhole name (left ++ (word.toList ++ blanks)) behind

theorem namePart_of_isBlank {c : Char} (h : isBlank c = true) : Class.namePart c = false := by
  have hdollar : c ≠ '$' := by
    rintro rfl
    exact absurd h (by decide)
  rw [Class.namePart, isWord_of_isBlank h, beq_false_of_ne hdollar, Bool.or_false]

/-- A search for declarations finds a declared name. -/
theorem isDeclared_of_matchAt {index : Nat} {text : List Char} {found : Match}
    (h : declaration.matchAt index left.getLast? text = some found) :
    IsDeclared (found.part 1) (left ++ text) := by
  have hpattern : declaration = wordEdge ++ words declaringWords ++ run1 isBlank ++
      label (.part 1) (one Class.nameStart ++ run Class.namePart) := rfl
  rw [hpattern] at h
  obtain ⟨_, inside, behind, _, _, rfl, hfront, hstart, -, hpart⟩ := exists_of_matchAt_label_run h
  obtain ⟨_, blanks, _, _, ⟨_, _, _, _, ⟨hedge, rfl, rfl⟩, hwords, rfl, rfl⟩, hblanks, rfl, -⟩ := hfront
  obtain ⟨⟨word, hword, rfl⟩, -⟩ := (takes_words declaringWords).mp hwords
  obtain ⟨hne, hblank, -⟩ := (takes_run1 isBlank).mp hblanks
  obtain ⟨⟨c, hc, rfl⟩, -⟩ := hstart
  have hname : found.part 1 = c :: behind.takeWhile Class.namePart := by rw [Match.part_eq, hpart]; rfl
  have hopens : (word.toList ++ (blanks ++ ([c] ++ behind))).head?.any isWord = true := by
    have hwords : ∀ word ∈ declaringWords, word.toList.head?.any isWord = true := by decide
    exact any_head?_append (hwords word hword) _
  have hbefore : left.getLast?.any isWord = false := by
    rw [← Anchor.holdsBetween_wordEdge_before hopens]
    simpa using hedge
  refine ⟨left, word, blanks, behind.dropWhile Class.namePart, hword, hbefore, hne, hblank, ?_, ?_, ?_, ?_⟩
  · rw [hname, ← cons_takeWhile_append_dropWhile]
    simp
  · rw [hname]
    exact ⟨hc, List.all_eq_true.mp List.all_takeWhile⟩
  · obtain ⟨last, hlast⟩ : ∃ last, blanks.getLast? = some last := ⟨_, List.getLast?_eq_some_getLast hne⟩
    rw [List.getLast?_append, List.getLast?_append, hlast]
    exact namePart_of_isBlank (hblank last (List.mem_of_getLast? hlast))
  · exact any_head?_dropWhile Class.namePart behind

theorem isDeclared_of_mem (h : name ∈ declaredNames code) : IsDeclared name code := by
  obtain ⟨found, hfound, rfl⟩ := List.mem_map.mp h
  rw [allMatches, List.mem_filterMap] at hfound
  obtain ⟨segment, hsegment, hhit⟩ := hfound
  cases segment with
  | plain _ => cases hhit
  | hit other =>
    obtain rfl := Option.some.inj hhit
    obtain ⟨done, todo, hsegments⟩ := List.append_of_mem hsegment
    have hsearch := segments_segmented declaration code
    rw [hsegments] at hsearch
    obtain ⟨_, _, hcode, hmatch⟩ := hsearch.exists_matchAt
    rw [Option.or_none] at hmatch
    exact hcode ▸ isDeclared_of_matchAt hmatch

theorem IsDeclared.mem_identifiers (h : IsDeclared name code) : name ∈ identifiers code := by
  obtain ⟨_, _, _, _, _, _, _, _, rfl, hwhole⟩ := h
  exact hwhole.mem_identifiers

/-! ### What is renamed -/

/-- The names that no short name may be. -/
def takenNames (code : List Char) : List (List Char) := (identifiers code).eraseDups ++ reservedWords

theorem renamed_eq (code : List Char) :
    (mangle code).renamed = (chosen (takenNames code) (declaredNames code)).1.reverse := by
  rw [← choose_eq]
  simp only [mangle]
  split <;> rfl

theorem nodup_renamed (code : List Char) :
    ((mangle code).renamed.map Prod.fst).Nodup ∧ ((mangle code).renamed.map Prod.snd).Nodup := by
  have hchoice := isChoice_chosen (takenNames code) (declaredNames code)
  rw [renamed_eq, List.map_reverse, List.map_reverse, List.nodup_reverse, List.nodup_reverse]
  exact ⟨hchoice.names, hchoice.shorts⟩

/-- Every short name is a numbered one that the code does not use, is not reserved, and is shorter. -/
theorem exists_of_mem_renamed (h : entry ∈ (mangle code).renamed) : ∃ n, entry.2 = base26 n ∧
    entry.2 ∉ identifiers code ∧ entry.2 ∉ reservedWords ∧ byteSize entry.2 < byteSize entry.1 := by
  rw [renamed_eq, List.mem_reverse] at h
  obtain ⟨n, -, hshort, hfree, hlength⟩ := (isChoice_chosen _ _).entry entry h
  rw [takenNames, List.mem_append, List.mem_eraseDups, not_or] at hfree
  rw [hshort, byteSize_base26]
  exact ⟨n, rfl, hfree.1, hfree.2, hlength⟩

theorem isName_of_mem_renamed (h : entry ∈ (mangle code).renamed) : IsName entry.2 := by
  obtain ⟨n, hshort, -⟩ := exists_of_mem_renamed h
  exact hshort ▸ isName_base26 n

/-- What a code makes of a name hangs on the declarations alone. -/
theorem mem_renamed_iff : (name, short) ∈ (mangle code).renamed ↔
    ∃ n, Draws (takenNames code) (declaredNames code) name n ∧ short = base26 n ∧
      (base26 n).length < byteSize name := by
  rw [renamed_eq, List.mem_reverse, mem_chosen_iff]

theorem mem_declaredNames_of_mem_renamed (h : entry ∈ (mangle code).renamed) : entry.1 ∈ declaredNames code := by
  rw [renamed_eq, List.mem_reverse] at h
  exact mem_of_mem_chosen (List.mem_map_of_mem h)

theorem lookup_renamed (h : (name, short) ∈ (mangle code).renamed) : (mangle code).renamed.lookup name = some short :=
  (Entries.lookup_eq_some_iff_mem (nodup_renamed code).1).mpr h

/-- A name that stands whole is mangled by itself, if it stands alone. -/
theorem IsWhole.mangle_eq (h : IsWhole name left behind) (hcode : code = left ++ (name ++ behind)) :
    (mangle code).code = rename (mangle code).renamed left ++
      ((if standsAlone left.getLast? then ((mangle code).renamed.lookup name).getD name else name) ++
        rename (mangle code).renamed behind) := by
  rw [Mangle.mangle_eq]
  nth_rewrite 2 [hcode]
  exact h.rename_eq _

/-! ### Reserved words -/

theorem isName_of_mem_reservedWords (h : word ∈ reservedWords) : IsName word := by
  have hnames : ∀ word ∈ reservedWords, IsName word := by decide +kernel
  exact hnames word h

/-- A reserved word is mangled like any other name. It gets the short name that it draws where it is first declared, if
that is shorter, and gives way to it wherever it stands whole and alone. A reserved word that nowhere stands behind a
declaring word and blanks is kept, wherever it stands. -/
theorem mangle_reservedWord (hword : word ∈ reservedWords) (code : List Char) :
    (∀ short, (word, short) ∈ (mangle code).renamed ↔
        ∃ n, Draws (takenNames code) (declaredNames code) word n ∧ short = base26 n ∧
          (base26 n).length < byteSize word) ∧
      (word ∈ declaredNames code → IsDeclared word code) ∧
      (∀ left behind, left.getLast?.any Class.namePart = false → behind.head?.any Class.namePart = false →
        code = left ++ (word ++ behind) →
        (mangle code).code = rename (mangle code).renamed left ++
          ((if standsAlone left.getLast? then ((mangle code).renamed.lookup word).getD word else word) ++
            rename (mangle code).renamed behind)) ∧
      (¬ IsDeclared word code → (∀ short, (word, short) ∉ (mangle code).renamed) ∧
        ∀ left behind, left.getLast?.any Class.namePart = false → behind.head?.any Class.namePart = false →
          code = left ++ (word ++ behind) →
          (mangle code).code = rename (mangle code).renamed left ++ (word ++ rename (mangle code).renamed behind)) := by
  have hplace (left behind : List Char) (hleft : left.getLast?.any Class.namePart = false)
      (hbehind : behind.head?.any Class.namePart = false) : IsWhole word left behind :=
    ⟨isName_of_mem_reservedWords hword, hleft, hbehind⟩
  refine ⟨fun short => mem_renamed_iff, isDeclared_of_mem, ?_, fun hnot => ?_⟩
  · intro left behind hleft hbehind hcode
    exact (hplace left behind hleft hbehind).mangle_eq hcode
  · have hnone (short : List Char) : (word, short) ∉ (mangle code).renamed := fun hmem =>
      hnot (isDeclared_of_mem (mem_declaredNames_of_mem_renamed hmem))
    refine ⟨hnone, fun left behind hleft hbehind hcode => ?_⟩
    have hlookup : (mangle code).renamed.lookup word = none := by
      cases hshort : (mangle code).renamed.lookup word with
      | none => rfl
      | some short => exact absurd (mem_of_lookup_eq_some hshort) (hnone short)
    rw [(hplace left behind hleft hbehind).mangle_eq hcode, hlookup, Option.getD_none, ite_self]

/-- The word behind a class without a name. -/
theorem mangle_reservedWord_extends :
    "extends".toList ∈ reservedWords ∧
      (mangle "let B=class extends A{}".toList).code =
        rename (mangle "let B=class extends A{}".toList).renamed "let B=class ".toList ++
          ((if standsAlone "let B=class ".toList.getLast? then
              ((mangle "let B=class extends A{}".toList).renamed.lookup "extends".toList).getD "extends".toList
            else "extends".toList) ++
            rename (mangle "let B=class extends A{}".toList).renamed " A{}".toList) := by
  have hword : "extends".toList ∈ reservedWords := by decide
  exact ⟨hword, (mangle_reservedWord hword "let B=class extends A{}".toList).2.2.1 "let B=class ".toList
    " A{}".toList (by decide) (by decide) rfl⟩

/-- Behind a class without a name, and in the declaration of a constant enumeration, a reserved word is lost. -/
theorem mangle_renames_reserved :
    ("extends".toList ∈ reservedWords ∧
        mangle "let B=class extends A{}".toList =
          ⟨"let B=class b A{}".toList, [("extends".toList, "b".toList)]⟩) ∧
      "enum".toList ∈ reservedWords ∧
        mangle "const enum E{A}".toList = ⟨"const a E{A}".toList, [("enum".toList, "a".toList)]⟩ := by
  decide +kernel

end Minifier.Mangle

/-!
## Mangling undone

Mangling captures no name and can be undone. Every declared name that gets a short one gets one of its own, which
nothing in the code is called; so the short names in the mangled code are known for what they stand for, and renaming
them back gives the code.

Nothing is said here about scope. A name that is declared twice is one name, and all its uses are renamed alike.
-/

namespace Minifier.Mangle

open Text

/-- Mangling is a renaming that can be undone. The search for a free short name ends with the next one. No two names
are the same, and no two short ones. No short name is in the code or reserved, and each is shorter than its name. The
pieces of the mangled code are those of the code, but for the names that stand alone and have a short one, which gives
way to it. Renaming the short names back in the same way gives the code. -/
theorem mangle_reversible (code : List Char) :
    (∀ counter, ∃ n, n ≤ counter + (takenNames code).length ∧ IsNext (takenNames code) counter n ∧
        freshName (takenNames code) (takenNames code).length counter = (base26 n, n + 1)) ∧
      ((mangle code).renamed.map Prod.fst).Nodup ∧ ((mangle code).renamed.map Prod.snd).Nodup ∧
      (∀ entry ∈ (mangle code).renamed, entry.2 ∉ identifiers code ∧ entry.2 ∉ reservedWords ∧
        byteSize entry.2 < byteSize entry.1) ∧
      code = textOf (pieces code) ∧
      (mangle code).code = textOf (renamePieces (mangle code).renamed none (pieces code)) ∧
      pieces (mangle code).code = renamePieces (mangle code).renamed none (pieces code) ∧
      rename ((mangle code).renamed.map Prod.swap) (mangle code).code = code := by
  obtain ⟨hnames, hshorts⟩ := nodup_renamed code
  have hisName : ∀ entry ∈ (mangle code).renamed, IsName entry.2 := fun _ => isName_of_mem_renamed
  have hentry : ∀ entry ∈ (mangle code).renamed, entry.2 ∉ identifiers code ∧ entry.2 ∉ reservedWords ∧
      byteSize entry.2 < byteSize entry.1 := by
    intro entry h
    obtain ⟨_, -, hentry⟩ := exists_of_mem_renamed h
    exact hentry
  refine ⟨exists_freshName _, hnames, hshorts, hentry, (textOf_pieces code).symm, ?_, ?_, ?_⟩
  · rw [← rename_eq, ← mangle_eq]
  · rw [mangle_eq, pieces_rename hisName]
  · rw [mangle_eq]
    exact rename_swap hisName hshorts fun entry h => (hentry entry h).1

/-- A member keeps its name, and a name in use is not given again. -/
example : mangle "let value=1;let a=2;obj.value=value+a;".toList =
    ⟨"let b=1;let a=2;obj.value=b+a;".toList, [("value".toList, "b".toList)]⟩ := by
  decide +kernel

end Minifier.Mangle
