import Minifier.Error
import Minifier.Proofs.Files.Following

/-!
Directories made and files written at paths. Either works where the way to the last name is open: a directory where
nothing is, a file where no directory is.
-/

namespace Minifier.FileTree

open Minifier.Path

variable {tree : FileTree} {path : String} {front : List (List Char)} {last : List Char}

theorem split_eq (h : EndsWith path front last) :
    tree.split path = (tree.follow [] (front.map String.ofList ++ ["."])).map fun place =>
      (place, if last = ['.'] ∨ last = ['.', '.'] then none else some (String.ofList last), false) := by
  have hcondition : (path.isEmpty || isAbsolute path) = false := by simp [h.ne_empty, h.relative]
  have hreversed : (FileTree.pieces path).reverse = String.ofList last :: (front.map String.ofList).reverse := by
    rw [FileTree.pieces, ← Path.pieces, h.pieces_eq, List.map_append, List.reverse_append]
    rfl
  have hlast : (String.ofList last == "") = false := by simpa using h.last_ne_nil
  have htext (text : String) : String.ofList last = text ↔ last = text.toList := by
    rw [← String.toList_inj, String.toList_ofList]
  rw [FileTree.split, hcondition, if_neg Bool.false_ne_true]
  simp only [hreversed, List.takeWhile_cons, hlast, Bool.false_eq_true, if_false, List.length_nil, List.drop_zero,
    List.reverse_reverse, List.isEmpty_nil, htext, Bool.or_eq_true, decide_eq_true_eq]
  rfl

/-- The way to the last piece is open or not. -/
theorem split_cases (tree : FileTree) (h : EndsWith path front last) :
    (tree.IsOpen [] (front.filterMap (componentOf false)) ∧ tree.split path =
      .ok (leads [] (front.filterMap (componentOf false)),
        if last = ['.'] ∨ last = ['.', '.'] then none else some (String.ofList last), false)) ∨
    ∃ fault, tree.Blocked [] (front.filterMap (componentOf false)) fault ∧ tree.split path = .error fault := by
  have hdot : (front ++ [['.']]).filterMap (componentOf false) = front.filterMap (componentOf false) := by
    rw [List.filterMap_append]
    exact List.append_nil _
  rw [split_eq h]
  rcases tree.follow_concat [] front ['.'] with ⟨hopen, hfollow⟩ | ⟨fault, hblocked, hfollow⟩
  · refine .inl ⟨hopen, ?_⟩
    rw [hdot] at hfollow
    exact congrArg _ hfollow
  · exact .inr ⟨fault, hblocked, congrArg _ hfollow⟩

/-- The last piece is a name, or dots that lead to a directory. -/
theorem isName_or_node?_ne_none (htree : tree.WellFormed) (h : EndsWith path front last)
    (hopen : tree.IsOpen [] (front.filterMap (componentOf false))) :
    (¬ (last = ['.'] ∨ last = ['.', '.']) ∧ IsName (String.ofList last) ∧ leads [] (Path.below path.toList) =
        leads [] (front.filterMap (componentOf false)) ++ [String.ofList last]) ∨
      (last = ['.'] ∨ last = ['.', '.']) ∧ tree.node? (leads [] (Path.below path.toList)) ≠ none := by
  have hplace := hopen _ (leads_mem_stops _ _)
  rw [h.below_eq, leads_append]
  by_cases hdots : last = ['.'] ∨ last = ['.', '.']
  · refine .inr ⟨hdots, ?_⟩
    rcases hdots with rfl | rfl
    · exact fun hnone => Option.some_ne_none _ (hplace.symm.trans hnone)
    · exact fun hnone => Option.some_ne_none _ ((htree.directory_dropLast hplace).symm.trans hnone)
  · have hname : componentOf false last = some (.normal (String.ofList last)) := by
      rw [not_or] at hdots
      simp [componentOf, h.last_ne_nil, hdots.1, hdots.2]
    refine .inl ⟨hdots, isName_of_componentOf (h.slash_not_mem last (by simp)) hname, ?_⟩
    rw [hname]
    rfl

/-- A directory is made where nothing is, if the way there is open. -/
theorem makeDirectory_cases (htree : tree.WellFormed) (h : EndsWith path front last) :
    (∃ fault, tree.Blocked [] (front.filterMap (componentOf false)) fault ∧ tree.makeDirectory path = .error fault) ∨
    (tree.makeDirectory path = .error .alreadyThere ∧ tree.IsOpen [] (front.filterMap (componentOf false)) ∧
      tree.node? (leads [] (Path.below path.toList)) ≠ none) ∨
    ∃ place name, tree.makeDirectory path = .ok (tree.put (place ++ [name]) .directory) ∧
      tree.IsOpen [] (front.filterMap (componentOf false)) ∧ IsName name ∧ tree.node? place = some .directory ∧
      tree.node? (place ++ [name]) = none ∧ leads [] (Path.below path.toList) = place ++ [name] := by
  rcases split_cases tree h with ⟨hopen, hsplit⟩ | ⟨fault, hblocked, hsplit⟩
  · rcases isName_or_node?_ne_none htree h hopen with ⟨hdots, hname, hleads⟩ | ⟨hdots, hthere⟩
    · rw [if_neg hdots] at hsplit
      rw [makeDirectory, hsplit, hleads]
      cases hnode : tree.node? (leads [] (front.filterMap (componentOf false)) ++ [String.ofList last]) with
      | some node => exact .inr (.inl ⟨by simp [hnode, bind, Except.bind], hopen, nofun⟩)
      | none =>
        exact .inr (.inr ⟨_, _, by simp [hnode, bind, Except.bind], hopen, hname, hopen _ (leads_mem_stops _ _), hnode, rfl⟩)
    · rw [if_pos hdots] at hsplit
      refine .inr (.inl ⟨?_, hopen, hthere⟩)
      rw [makeDirectory, hsplit]
      rfl
  · refine .inl ⟨fault, hblocked, ?_⟩
    rw [makeDirectory, hsplit]
    rfl

/-- A file is written where no directory is, if the way there is open. -/
theorem write_cases {name : String} (hname : IsName name) (h : EndsWith path front name.toList) (content : FileContent) :
    (∃ fault, tree.write path content = .error fault ∧
      (¬ tree.IsOpen [] (front.filterMap (componentOf false)) ∨
        tree.node? (leads [] (Path.below path.toList)) = some .directory)) ∨
    ∃ place, tree.write path content = .ok (tree.put (place ++ [name]) (.file content)) ∧
      tree.IsOpen [] (front.filterMap (componentOf false)) ∧ tree.node? place = some .directory ∧
      tree.node? (place ++ [name]) ≠ some .directory ∧ leads [] (Path.below path.toList) = place ++ [name] := by
  have hdots : ¬ (name.toList = ['.'] ∨ name.toList = ['.', '.']) := by
    have hcomponent := hname.2
    rintro (hdot | hdot) <;> simp [hdot, componentOf] at hcomponent
  have hleads : leads [] (Path.below path.toList) = leads [] (front.filterMap (componentOf false)) ++ [name] := by
    rw [h.below_eq, hname.2, leads_append]
    rfl
  rcases split_cases tree h with ⟨hopen, hsplit⟩ | ⟨fault, hblocked, hsplit⟩
  · rw [if_neg hdots, String.ofList_toList] at hsplit
    rw [write, hsplit, hleads]
    by_cases hnode : tree.node? (leads [] (front.filterMap (componentOf false)) ++ [name]) = some .directory
    · exact .inl ⟨.isDirectory, by simp [hnode, bind, Except.bind], .inr hnode⟩
    · refine .inr ⟨_, ?_, hopen, hopen _ (leads_mem_stops _ _), hnode, rfl⟩
      simp only [bind, Except.bind]
  · refine .inl ⟨fault, ?_, .inl (not_isOpen_of_blocked hblocked)⟩
    rw [write, hsplit]
    rfl

/-- Where a path has a last name with nothing behind it, it ends in that name. -/
theorem exists_endsWith_of_split {place : Place} {name : String} (h : tree.split path = .ok (place, some name, false)) :
    ∃ front, IsName name ∧ EndsWith path front name.toList := by
  rw [FileTree.split] at h
  split_ifs at h with hcondition
  rw [Bool.or_eq_true, not_or, Bool.not_eq_true, Bool.not_eq_true] at hcondition
  simp only at h
  split at h
  case h_1 => cases h
  case h_2 last before hlast =>
    cases hfollow : tree.follow [] (before.reverse ++ ["."]) with
    | error fault => simp [hfollow, bind, Except.bind] at h
    | ok found =>
      simp only [hfollow, bind, Except.bind, Except.ok.injEq, Prod.mk.injEq, Bool.not_eq_eq_eq_not, Bool.not_false,
        List.isEmpty_iff] at h
      obtain ⟨-, hname, htrailing⟩ := h
      rw [htrailing, List.length_nil, List.drop_zero] at hlast
      rw [hlast] at htrailing
      have hempty : last ≠ "" := by
        rintro rfl
        simp at htrailing
      split_ifs at hname with hdots
      obtain rfl := Option.some.inj hname
      have hpieces : Path.pieces path.toList = before.reverse.map String.toList ++ [last.toList] := by
        have hall := congrArg (List.map String.toList) (congrArg List.reverse hlast)
        rw [List.reverse_reverse, FileTree.pieces, ← Path.pieces, List.map_map] at hall
        simpa using hall
      have hslash : '/' ∉ last.toList := not_mem_of_mem_pieces (hpieces ▸ List.mem_append_right _ List.mem_cons_self)
      have hcounts : componentOf false last.toList = some (.normal last) := by
        simp only [Bool.or_eq_true, decide_eq_true_eq, not_or] at hdots
        have hdot : last.toList ≠ ['.'] := fun heq => hdots.1 (String.toList_inj.mp heq)
        have hparent : last.toList ≠ ['.', '.'] := fun heq => hdots.2 (String.toList_inj.mp heq)
        simp [componentOf, hempty, hdot, hparent]
      exact ⟨_, ⟨hslash, hcounts⟩, hcondition.2, hpieces, by simp [IsName.componentOf_eq ⟨hslash, hcounts⟩]⟩

/-- A file is written only at a path that ends in a name. -/
theorem exists_endsWith_of_write {content : FileContent} {later : FileTree} (h : tree.write path content = .ok later) :
    ∃ front name, IsName name ∧ EndsWith path front name.toList := by
  rw [write] at h
  rcases hsplit : tree.split path with fault | ⟨place, _ | name, _ | _⟩
  · simp [hsplit, bind, Except.bind] at h
  · simp [hsplit, bind, Except.bind] at h
  · simp [hsplit, bind, Except.bind] at h
  · obtain ⟨front, hname, hends⟩ := exists_endsWith_of_split hsplit
    exact ⟨front, name, hname, hends⟩
  · simp [hsplit, bind, Except.bind] at h

/-- A file can be written at a path: the path does not lead through a file nor through the place of the new one, and
no directory stands there. -/
structure Writable (tree : FileTree) (path : String) : Prop where
  open_ : ∀ stop ∈ way path, ∀ content, tree.node? stop ≠ some (.file content)
  free : tree.node? (place path) ≠ some .directory
  apart : place path ∉ way path

/-- What becomes of a tree in which a text is written at a path, and of the directories on the way: the text stands
there, or nothing was written. -/
def Stored (tree later : FileTree) (path text : String) (result : Except Error Unit) : Prop :=
  tree.Writable path ∧ result = .ok () ∧
      tree.Grown (· ∈ way path) (fun stop content => stop = place path ∧ content = .text text) later ∧
      (∀ stop ∈ way path, later.node? stop = some .directory) ∧ later.node? (place path) = some (.file (.text text)) ∨
    ¬ tree.Writable path ∧ (∃ problem, result = .error (.io problem)) ∧
      tree.Grown (· ∈ way path) (fun _ _ => False) later

end Minifier.FileTree
