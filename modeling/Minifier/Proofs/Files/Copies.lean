import Minifier.Proofs.Files.BatchOutput
import Minifier.Proofs.Files.Discovery

/-!
Where the copies of the files of a directory go. Beside its file a copy has the marked name; in an output directory it
lies as the file lies in the root. So the path to a copy is a path from a directory to a place below it, and it leads
through that directory and the ones that hold the place.
-/

namespace Minifier

open Minifier.Path

/-! ### Paths put together from names -/

namespace Path

theorem partsOf_append (first : Bool) (start : Nat) (front back : List (List Char)) :
    partsOf first start (front ++ back) =
      partsOf first start front ++ partsOf (first && front.isEmpty) (start + width front) back := by
  induction front generalizing first start with
  | nil => simp [partsOf, width]
  | cons piece front ih =>
    have hstart : start + piece.length + 1 + width front = start + width (piece :: front) := by
      rw [width_cons]
      omega
    rw [List.cons_append, partsOf, partsOf, ih, hstart]
    cases componentOf first piece <;> simp

theorem join_empty {name : String} (hname : IsName name) : join "" name = name := by
  rw [join, hname.not_isAbsolute]
  simp

theorem IsName.getLast?_ne {name : String} (h : IsName name) (text : List Char) : (text ++ name.toList).getLast? ≠ some '/' := by
  rw [List.getLast?_append_of_ne_nil _ h.ne_nil]
  exact fun hlast => h.1 (List.mem_of_getLast? hlast)

end Path

namespace Files

variable {root target name : String} {front rest : Place}

theorem toList_pathTo_concat (directory : String) (hfront : front ≠ []) (hnames : ∀ name ∈ front, IsName name)
    (hname : IsName name) :
    (pathTo directory (front ++ [name])).toList = (pathTo directory front).toList ++ '/' :: name.toList := by
  obtain ⟨outer, last, rfl⟩ := List.eq_nil_or_concat' front |>.resolve_left hfront
  have hlast : IsName last := hnames last (by simp)
  have hend : (pathTo directory (outer ++ [last])).toList.getLast? ≠ some '/' := by
    rw [pathTo_concat]
    rcases join_cases (pathTo directory outer) hlast with ⟨-, hjoin⟩ | ⟨text, -, hjoin⟩
    · rw [hjoin]
      exact hlast.getLast?_ne []
    · rw [hjoin, List.append_cons]
      exact hlast.getLast?_ne _
  have hempty : (pathTo directory (outer ++ [last])).toList ≠ [] := by
    rw [pathTo_concat]
    rcases join_cases (pathTo directory outer) hlast with ⟨-, hjoin⟩ | ⟨text, -, hjoin⟩
    · rw [hjoin]
      exact hlast.ne_nil
    · rw [hjoin]
      simp
  rw [pathTo_concat]
  rcases join_cases (pathTo directory (outer ++ [last])) hname with ⟨hnil, -⟩ | ⟨text, ⟨htext, -⟩ | htext, hjoin⟩
  · exact absurd (congrArg String.toList hnil) hempty
  · rw [hjoin, htext]
  · rw [htext, List.getLast?_concat] at hend
    exact absurd rfl hend

theorem pathTo_singleton {name : String} (hname : IsName name) : pathTo "" [name] = name := join_empty hname

/-- A path of names is one name, or a name behind such a path. -/
@[elab_as_elim]
theorem names_induction {motive : Place → Prop} (hnames : ∀ name ∈ rest, IsName name) (hrest : rest ≠ [])
    (single : ∀ name, IsName name → motive [name])
    (concat : ∀ front name, (∀ other ∈ front, IsName other) → front ≠ [] → IsName name → motive front →
      motive (front ++ [name])) : motive rest := by
  induction rest using List.reverseRecOn with
  | nil => exact absurd rfl hrest
  | append_singleton front name ih =>
    simp only [List.forall_mem_append, List.forall_mem_singleton] at hnames
    by_cases hfront : front = []
    · subst hfront
      exact single name hnames.2
    · exact concat front name hnames.1 hfront hnames.2 (ih hnames.1 hfront)

theorem pieces_pathTo_empty (hnames : ∀ name ∈ rest, IsName name) (hrest : rest ≠ []) :
    pieces (pathTo "" rest).toList = rest.map String.toList := by
  refine names_induction hnames hrest (fun name hname => ?_) fun front name hnames hfront hname ih => ?_
  · rw [pathTo_singleton hname, pieces_of_not_mem hname.1]
    rfl
  · rw [toList_pathTo_concat "" hfront hnames hname, pieces_append_slash, ih, pieces_of_not_mem hname.1, List.map_append]
    rfl

/-- A path from a directory stands behind a slash. -/
theorem toList_pathTo (hroot : root ≠ "") (hnames : ∀ name ∈ rest, IsName name) (hrest : rest ≠ []) :
    ∃ text, (root.toList = text ∨ root.toList = text ++ ['/']) ∧
      (pathTo root rest).toList = text ++ '/' :: (pathTo "" rest).toList := by
  refine names_induction hnames hrest (fun name hname => ?_) fun front name hnames hfront hname ih => ?_
  · rcases join_cases root hname with ⟨hempty, -⟩ | ⟨text, htext, hjoin⟩
    · exact absurd hempty hroot
    · refine ⟨text, htext.imp_left And.left, ?_⟩
      rw [pathTo_singleton hname]
      exact hjoin
  · obtain ⟨text, htext, hpath⟩ := ih
    refine ⟨text, htext, ?_⟩
    rw [toList_pathTo_concat root hfront hnames hname, toList_pathTo_concat "" hfront hnames hname, hpath,
      List.append_assoc, List.cons_append]

/-! ### Copies in an output directory -/

theorem parts_pathTo (hroot : root ≠ "") (hrelative : isAbsolute root = false) (hnames : ∀ name ∈ rest, IsName name)
    (hrest : rest ≠ []) :
    ∃ above, pieces (pathTo root rest).toList = above ++ rest.map String.toList ∧
      parts (pathTo root rest) = parts root ++ partsOf false (width above) (rest.map String.toList) := by
  obtain ⟨text, htext, hpath⟩ := toList_pathTo hroot hnames hrest
  have hne : text ≠ [] := by
    rintro rfl
    rcases htext with htext | htext
    · exact hroot (String.toList_eq_nil_iff.mp htext)
    · simp [isAbsolute, htext] at hrelative
  obtain ⟨c, left, rfl⟩ := List.exists_cons_of_ne_nil hne
  have hbegin : c ≠ '/' := by
    rintro rfl
    rcases htext with htext | htext <;> simp [isAbsolute, htext] at hrelative
  have habove : (pieces (c :: left)).isEmpty = false := by simpa using pieces_ne_nil (c :: left)
  have hpieces : pieces (pathTo root rest).toList = pieces (c :: left) ++ rest.map String.toList := by
    rw [hpath, pieces_append_slash, pieces_pathTo_empty hnames hrest]
  have hparts : parts root = partsOf true 0 (pieces (c :: left)) := by
    rw [parts_of_not_isAbsolute hrelative]
    rcases htext with htext | htext
    · rw [htext]
    · rw [htext, pieces_append_slash, partsOf_append]
      exact List.append_nil _
  refine ⟨pieces (c :: left), hpieces, ?_⟩
  rw [parts_of_not_isAbsolute (by simp [isAbsolute, hpath, hbegin]), hpieces, partsOf_append, hparts, habove, Nat.zero_add]
  rfl

/-- What is left of the path from a directory to a place is the path to that place alone. -/
theorem stripPrefix?_pathTo (hroot : root ≠ "") (hrelative : isAbsolute root = false) (hnames : ∀ name ∈ rest, IsName name)
    (hrest : rest ≠ []) : stripPrefix? (pathTo root rest) root = some (pathTo "" rest) := by
  obtain ⟨above, hpieces, hparts⟩ := parts_pathTo hroot hrelative hnames hrest
  obtain ⟨first, more, hfirst⟩ := List.exists_cons_of_ne_nil hrest
  obtain ⟨front, last, hlast⟩ := List.eq_nil_or_concat' rest |>.resolve_left hrest
  have hcount : (components root).length = (parts root).length := List.length_map ..
  have hbegin : ∃ part others, partsOf false (width above) (rest.map String.toList) = part :: others ∧
      part.start = width above := by
    rw [hfirst, List.map_cons, partsOf, (hnames first (by simp [hfirst])).componentOf_eq]
    exact ⟨_, _, rfl, rfl⟩
  have hend : (parts (pathTo root rest)).getLast? =
      some ⟨.normal last, width above + width (front.map String.toList),
        width above + width (front.map String.toList) + last.toList.length⟩ := by
    rw [hparts, hlast, List.map_append, partsOf_append, ← List.append_assoc, List.map_singleton, Bool.false_and, partsOf,
      (hnames last (by simp [hlast])).componentOf_eq]
    exact List.getLast?_concat
  obtain ⟨part, others, hpart, hstart⟩ := hbegin
  rw [stripPrefix?, hcount]
  simp only [hend]
  rw [hparts, List.take_left, List.drop_left, components, if_pos rfl, hpart]
  simp only [hstart]
  have hsplit : pieces (pathTo root rest).toList = above ++ (front.map String.toList ++ last.toList :: []) := by
    rw [hpieces, hlast, List.map_append]
    rfl
  have hslice := slice_eq hsplit
  have hrestPieces := intercalate_pieces (pathTo "" rest).toList
  rw [pieces_pathTo_empty hnames hrest, hlast, List.map_append, List.map_singleton] at hrestPieces
  rw [hslice, hrestPieces, String.ofList_toList, hlast]

/-- A path from another directory to the same place goes on as the path to that place alone. -/
theorem join_pathTo (target : String) (hnames : ∀ name ∈ rest, IsName name) (hrest : rest ≠ []) :
    Path.join target (pathTo "" rest) = pathTo target rest := by
  have hjoin {path longer : String} {more : List Char} (hpath : path.toList ≠ []) (hlonger : longer.toList = path.toList ++ more) :
      (Path.join target longer).toList = (Path.join target path).toList ++ more := by
    have habsolute : isAbsolute longer = isAbsolute path := by
      rw [isAbsolute, isAbsolute, hlonger, List.head?_append_of_ne_nil _ hpath]
    rw [Path.join, Path.join, habsolute]
    split_ifs <;> simp [hlonger]
  refine names_induction hnames hrest (fun name hname => ?_) fun front name hnames hfront hname ih => ?_
  · rw [pathTo_singleton hname]
    rfl
  · have hpath : (pathTo "" front).toList ≠ [] := by
      intro hnil
      have hpieces := pieces_pathTo_empty hnames hfront
      obtain ⟨first, more, rfl⟩ := List.exists_cons_of_ne_nil hfront
      rw [hnil] at hpieces
      exact (hnames first List.mem_cons_self).ne_nil (List.cons.inj hpieces).1.symm
    rw [← String.toList_inj, hjoin hpath (toList_pathTo_concat "" hfront hnames hname), ih,
      toList_pathTo_concat target hfront hnames hname]

/-- In an output directory a copy lies as its file lies in the root. -/
theorem outputPath_pathTo (hroot : root ≠ "") (hrelative : isAbsolute root = false) (hnames : ∀ name ∈ rest, IsName name)
    (hrest : rest ≠ []) (target : String) :
    outputPath (pathTo root rest) root false (some target) = pathTo target rest := by
  have hsame : same (pathTo root rest) root = false := by
    rw [Bool.eq_false_iff, ne_eq, same_iff, components_pathTo root hnames]
    intro heq
    exact hrest (List.map_eq_nil_iff.mp (List.append_right_eq_self.mp heq))
  rw [outputPath, hsame]
  simp only [Bool.or_self, Bool.false_eq_true, if_false]
  rw [stripPrefix?_pathTo hroot hrelative hnames hrest, Option.getD_some, join_pathTo target hnames hrest]

/-! ### Copies beside their files -/

theorem isName_minified (h : '/' ∉ name.toList) : IsName (FileName.minified name) := by
  obtain ⟨stem, behind, hname, hcopy, -⟩ := FileName.exists_minified_eq name
  have hlength : (FileName.minified name).toList.length = name.toList.length + 4 := by
    rw [hcopy, hname]
    simp
    omega
  refine ⟨fun hslash => ?_, ?_⟩
  · rcases FileName.mem_minified hslash with hmem | hmem
    · exact h hmem
    · exact absurd hmem (by decide)
  · rw [componentOf, if_neg, if_neg, if_neg, String.ofList_toList]
    all_goals
      intro heq
      simp [heq] at hlength

/-- Beside its file a copy has the marked name. -/
theorem minified_pathTo (directory : String) (place : Place) (h : IsName name) :
    FileName.minified (pathTo directory (place ++ [name])) = pathTo directory (place ++ [FileName.minified name]) := by
  rw [pathTo_concat, pathTo_concat]
  generalize pathTo directory place = above
  rw [Path.join, Path.join, h.not_isAbsolute, (isName_minified h.1).not_isAbsolute, if_neg Bool.false_ne_true,
    if_neg Bool.false_ne_true]
  split_ifs with hend
  · refine FileName.minified_append ?_ name
    simpa using hend
  · exact FileName.minified_append (.inr (by simp)) name

/-! ### Where they lie -/

theorem exists_endsWith_pathTo {directory : String} (hdirectory : isAbsolute directory = false) {place : Place}
    (hnames : ∀ name ∈ place, IsName name) (h : IsName name) :
    ∃ front, EndsWith (pathTo directory (place ++ [name])) front name.toList := by
  induction place using List.reverseRecOn generalizing name with
  | nil =>
    obtain ⟨front, hends, -⟩ := exists_endsWith_join hdirectory h
    exact ⟨front, hends⟩
  | append_singleton place last ih =>
    simp only [List.forall_mem_append, List.forall_mem_singleton] at hnames
    obtain ⟨above, habove⟩ := ih hnames.1 hnames.2
    obtain ⟨front, hends, -⟩ := exists_endsWith_join habove.relative h
    exact ⟨front, by rwa [pathTo_concat]⟩

theorem place_pathTo (directory : String) (hnames : ∀ name ∈ rest, IsName name) :
    Path.place (pathTo directory rest) = Path.place directory ++ rest := by
  rw [Path.place, components_pathTo directory hnames, leads_append, leads_normal, Path.place]

/-- The way to a place below a directory goes to that directory, and then through the ones that hold the place. -/
theorem mem_way_pathTo (directory : String) {place : Place} (hnames : ∀ name ∈ place, IsName name) (h : IsName name)
    {stop : Place} :
    stop ∈ way (pathTo directory (place ++ [name])) ↔
      stop ∈ stops [] (components directory) ∨ ∃ above, above <+: place ∧ stop = Path.place directory ++ above := by
  rw [way, components_pathTo directory (by simpa [or_imp, forall_and] using ⟨hnames, h⟩), List.map_append, ← List.append_assoc,
    List.map_singleton, List.dropLast_concat, mem_stops_append, mem_stops_normal]
  rfl

end Files

end Minifier
