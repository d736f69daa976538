import Minifier.Proofs.Files.Tree

/-!
Paths followed through a tree. The components of a path lead from place to place, and a path is followed just if a
directory stands wherever it stops on the way. What a path to a name leads to is what stands at that name in the
last of these directories.
-/

namespace Minifier

namespace Path

/-! ### Where components lead -/

/-- Where a component leads from a place. -/
def Component.leadsFrom (place : Place) : Component → Place
  | normal name => place ++ [name]
  | parent => place.dropLast
  | current | root => place

/-- Where components lead one after the other. -/
def leads (place : Place) (all : List Component) : Place := all.foldl Component.leadsFrom place

/-- The places where components stop on their way, the first and the last one included. -/
def stops : Place → List Component → List Place
  | place, [] => [place]
  | place, component :: rest => place :: stops (component.leadsFrom place) rest

theorem leads_append (place : Place) (all others : List Component) :
    leads place (all ++ others) = leads (leads place all) others := List.foldl_append

theorem first_mem_stops (place : Place) (all : List Component) : place ∈ stops place all := by
  cases all <;> exact List.mem_cons_self

theorem leads_mem_stops (place : Place) (all : List Component) : leads place all ∈ stops place all := by
  induction all generalizing place with
  | nil => exact List.mem_cons_self
  | cons component all ih => exact List.mem_cons_of_mem _ (ih _)

theorem mem_stops_append {place stop : Place} {all others : List Component} :
    stop ∈ stops place (all ++ others) ↔ stop ∈ stops place all ∨ stop ∈ stops (leads place all) others := by
  induction all generalizing place with
  | nil =>
    have hfirst : stop ∈ stops place [] → stop ∈ stops place others := by
      intro h
      rw [List.mem_singleton.mp h]
      exact first_mem_stops place others
    exact ⟨.inr, fun h => h.elim hfirst id⟩
  | cons component all ih =>
    rw [List.cons_append, stops, stops, List.mem_cons, List.mem_cons, ih, or_assoc]
    rfl

theorem mem_stops_concat {place stop : Place} {all : List Component} {component : Component} :
    stop ∈ stops place (all ++ [component]) ↔ stop ∈ stops place all ∨ stop = leads place (all ++ [component]) := by
  have hfirst : stop = leads place all → stop ∈ stops place all := fun h => h ▸ leads_mem_stops place all
  rw [mem_stops_append, leads_append]
  simp only [stops, List.mem_cons, List.not_mem_nil, or_false, leads, List.foldl_cons, List.foldl_nil] at hfirst ⊢
  tauto

theorem leads_normal (place : Place) (names : List String) :
    leads place (names.map .normal) = place ++ names := by
  induction names generalizing place with
  | nil => exact (List.append_nil place).symm
  | cons name names ih => exact (ih _).trans (List.append_cons place name names).symm

theorem mem_stops_normal {place stop : Place} {names : List String} :
    stop ∈ stops place (names.map .normal) ↔ ∃ front, front <+: names ∧ stop = place ++ front := by
  induction names generalizing place with
  | nil => simp [stops]
  | cons name names ih =>
    rw [List.map_cons, stops, List.mem_cons, ih]
    constructor
    · rintro (rfl | ⟨front, hfront, rfl⟩)
      · exact ⟨[], List.nil_prefix, (List.append_nil _).symm⟩
      · exact ⟨name :: front, List.cons_prefix_cons.mpr ⟨rfl, hfront⟩, (List.append_cons place name front).symm⟩
    · rintro ⟨front, hfront, rfl⟩
      cases front with
      | nil => exact .inl (List.append_nil _)
      | cons first front =>
        obtain ⟨rfl, hrest⟩ := List.cons_prefix_cons.mp hfront
        exact .inr ⟨front, hrest, List.append_cons place first front⟩

/-! ### The components of a path from the top -/

theorem head_ne_of_not_isAbsolute {text : List Char} (h : isAbsolute (String.ofList text) = false) (rest : List Char) :
    text ≠ '/' :: rest := by
  rintro rfl
  simp [isAbsolute] at h

theorem parts_of_not_isAbsolute {path : String} (h : isAbsolute path = false) :
    parts path = partsOf true 0 (pieces path.toList) := by
  obtain ⟨text, rfl⟩ : ∃ text, path = String.ofList text := ⟨path.toList, String.ofList_toList.symm⟩
  rw [parts_of_head_ne (head_ne_of_not_isAbsolute h), String.toList_ofList]

/-- The components of a path that does not begin at the root: those of its pieces, where only the first one may be a
single dot. -/
theorem components_of_pieces {text piece : List Char} {others : List (List Char)}
    (h : isAbsolute (String.ofList text) = false) (hpieces : pieces text = piece :: others) :
    components (String.ofList text) = (componentOf true piece).toList ++ others.filterMap (componentOf false) := by
  rw [components, parts_of_head_ne (head_ne_of_not_isAbsolute h), hpieces, map_component_partsOf_cons]

/-- A dot in front does not lead anywhere. -/
theorem components_eq_or {path : String} (h : isAbsolute path = false) :
    components path = below path.toList ∨ components path = .current :: below path.toList := by
  obtain ⟨text, rfl⟩ : ∃ text, path = String.ofList text := ⟨path.toList, String.ofList_toList.symm⟩
  obtain ⟨piece, others, hpieces⟩ := List.exists_cons_of_ne_nil (pieces_ne_nil text)
  rw [components_of_pieces h hpieces, String.toList_ofList, below, hpieces]
  by_cases hdot : piece = ['.']
  · subst hdot
    exact .inr rfl
  · have hsame : componentOf true piece = componentOf false piece := by
      rw [componentOf, componentOf, if_neg hdot, if_neg hdot]
    rw [hsame]
    cases hcomponent : componentOf false piece with
    | none => exact .inl (List.filterMap_cons_none hcomponent).symm
    | some component => exact .inl (List.filterMap_cons_some hcomponent).symm

theorem leads_components {path : String} (h : isAbsolute path = false) (place : Place) :
    leads place (components path) = leads place (below path.toList) := by
  rcases components_eq_or h with heq | heq <;> rw [heq]
  rfl

/-! ### The path above -/

/-- A path that does not begin at the root and ends with its last component, which is the last one of its pieces. -/
structure EndsWith (path : String) (front : List (List Char)) (last : List Char) : Prop where
  relative : isAbsolute path = false
  pieces_eq : pieces path.toList = front ++ [last]
  counts : componentOf front.isEmpty last ≠ none

theorem exists_partsOf_concat {first : Bool} {front : List (List Char)} {last : List Char} {component : Component}
    (h : componentOf (first && front.isEmpty) last = some component) (start : Nat) :
    ∃ begin, partsOf first start (front ++ [last]) =
      partsOf first start front ++ [⟨component, begin, begin + last.length⟩] := by
  induction front generalizing first start with
  | nil =>
    refine ⟨start, ?_⟩
    rw [List.isEmpty_nil, Bool.and_true] at h
    simp [partsOf, h]
  | cons piece front ih =>
    have hbehind : componentOf (false && front.isEmpty) last = some component := by simpa using h
    obtain ⟨begin, hbegin⟩ := ih hbehind (start + piece.length + 1)
    refine ⟨begin, ?_⟩
    rw [List.cons_append, partsOf, partsOf, hbegin]
    cases componentOf first piece <;> rfl

theorem filterMap_of_partsOf_eq_nil {first : Bool} {start : Nat} {all : List (List Char)}
    (h : partsOf first start all = []) : all.filterMap (componentOf false) = [] := by
  cases all with
  | nil => rfl
  | cons piece all =>
    have hmap := map_component_partsOf_cons first start piece all
    rw [h, List.map_nil, eq_comm, List.append_eq_nil_iff, Option.toList_eq_nil_iff] at hmap
    have hpiece : componentOf false piece = none := by
      simp only [componentOf] at hmap ⊢
      grind
    rw [List.filterMap_cons_none hpiece, hmap.2]

theorem filterMap_concat (front : List (List Char)) (last : List Char) :
    (front ++ [last]).filterMap (componentOf false) =
      front.filterMap (componentOf false) ++ (componentOf false last).toList := by
  rw [List.filterMap_append]
  cases hlast : componentOf false last with
  | none => rw [List.filterMap_cons_none hlast]; rfl
  | some component => rw [List.filterMap_cons_some hlast]; rfl

namespace EndsWith

variable {path : String} {front : List (List Char)} {last : List Char}

theorem parts_eq (h : EndsWith path front last) : parts path = partsOf true 0 (front ++ [last]) := by
  rw [parts_of_not_isAbsolute h.relative, h.pieces_eq]

theorem last_ne_nil (h : EndsWith path front last) : last ≠ [] := by
  rintro rfl
  exact h.counts rfl

theorem ne_empty (h : EndsWith path front last) : path ≠ "" := by
  rintro rfl
  have hpieces := h.pieces_eq
  have hlast := List.getLast?_concat ▸ congrArg List.getLast? hpieces
  exact h.last_ne_nil (Option.some.inj hlast).symm

theorem slash_not_mem (h : EndsWith path front last) : ∀ piece ∈ front ++ [last], '/' ∉ piece :=
  h.pieces_eq ▸ fun _ => not_mem_of_mem_pieces

theorem below_eq (h : EndsWith path front last) :
    below path.toList = front.filterMap (componentOf false) ++ (componentOf false last).toList := by
  rw [below, h.pieces_eq, filterMap_concat]

theorem mem_stops_below (h : EndsWith path front last) {place stop : Place}
    (hstop : stop ∈ stops place (front.filterMap (componentOf false))) : stop ∈ stops place (below path.toList) := by
  rw [h.below_eq]
  exact mem_stops_append.mpr (.inl hstop)

/-- The path above ends with a component as well, if there is one. -/
theorem exists_parent (h : EndsWith path front last) :
    ∃ above, parent? path = some above ∧ below above.toList = front.filterMap (componentOf false) ∧
      (above = "" ∨ ∃ front last, EndsWith above front last) ∧
      (components above).length < (components path).length := by
  obtain ⟨component, hlast⟩ := Option.ne_none_iff_exists'.mp h.counts
  have hfirst : componentOf (true && front.isEmpty) last = some component := by rwa [Bool.true_and]
  obtain ⟨begin, hparts⟩ := exists_partsOf_concat hfirst 0
  rw [← h.parts_eq] at hparts
  have hroot : component ≠ .root := by
    rintro rfl
    simp only [componentOf] at hlast
    split_ifs at hlast <;> exact Component.noConfusion (Option.some.inj hlast)
  have hlength : (components path).length = (partsOf true 0 front).length + 1 := by
    rw [components, hparts, List.length_map, List.length_append, List.length_singleton]
  rw [hlength]
  rcases List.eq_nil_or_concat (partsOf true 0 front) with hnone | ⟨before, previous, hprevious⟩
  · refine ⟨"", ?_, (filterMap_of_partsOf_eq_nil hnone).symm, .inl rfl, Nat.succ_pos _⟩
    rw [parent?, hparts, hnone]
    simp [hroot]
  · rw [List.concat_eq_append] at hprevious
    obtain ⟨outer, piece, back, found, hfront, hbefore, hpiece, hpart, hback⟩ := exists_of_partsOf_eq hprevious
    have hpieces : pieces path.toList = [] ++ (outer ++ piece :: (back ++ [last])) := by
      rw [h.pieces_eq, hfront, List.nil_append, List.append_assoc, List.cons_append]
    have hslash : ∀ inner ∈ outer ++ [piece], '/' ∉ inner := fun inner hinner =>
      h.slash_not_mem inner (by rw [hfront]; simp only [List.mem_append, List.mem_cons] at hinner ⊢; tauto)
    have hslice : slice path 0 previous.stop = String.ofList (['/'].intercalate (outer ++ [piece])) := by
      rw [← slice_eq hpieces, hpart]
      simp [width]
    have hends : EndsWith (slice path 0 previous.stop) outer piece := by
      refine ⟨?_, ?_, by rw [Bool.true_and] at hpiece; simp [hpiece]⟩
      · rw [slice, isAbsolute, String.toList_ofList, List.drop_zero, List.head?_take]
        split_ifs
        · rfl
        · exact h.relative
      · rw [hslice, String.toList_ofList, pieces_intercalate hslash (List.concat_ne_nil _ _)]
    have hskipped : back.filterMap (componentOf false) = [] := filterMap_of_partsOf_eq_nil hback.symm
    refine ⟨slice path 0 previous.stop, ?_, ?_, .inr ⟨outer, piece, hends⟩, ?_⟩
    · rw [parent?, hparts, hprevious]
      simp [hroot]
    · rw [below, hends.pieces_eq, hfront, List.filterMap_append, List.filterMap_append, List.filterMap_cons,
        List.filterMap_cons, hskipped]
      rfl
    · obtain ⟨begin, hparts⟩ := exists_partsOf_concat hpiece 0
      rw [← hends.parts_eq] at hparts
      rw [components, hparts, hprevious, hbefore, List.length_map, List.length_append, List.length_append]
      exact Nat.lt_succ_self _

end EndsWith

/-! ### Names -/

namespace IsName

variable {name : String}

theorem ne_nil (h : IsName name) : name.toList ≠ [] := fun hnil => by simpa [hnil, componentOf] using h.2

theorem componentOf_eq (h : IsName name) (first : Bool) : componentOf first name.toList = some (.normal name) := by
  have hname := h.2
  rw [componentOf] at hname ⊢
  split_ifs at hname ⊢ <;> simp_all

theorem not_isAbsolute (h : IsName name) : isAbsolute name = false := by
  obtain ⟨c, rest, hrest⟩ := List.exists_cons_of_ne_nil h.ne_nil
  have hc : c ≠ '/' := fun hc => h.1 (hrest ▸ hc ▸ List.mem_cons_self)
  simp [isAbsolute, hrest, hc]

end IsName

/-- What counts behind a slash as a name is one. -/
theorem isName_of_componentOf {piece : List Char} (hslash : '/' ∉ piece)
    (h : componentOf false piece = some (.normal (String.ofList piece))) : IsName (String.ofList piece) := by
  rw [IsName, String.toList_ofList]
  exact ⟨hslash, h⟩

/-- A name taken from a directory stands behind a slash, unless the directory is empty. -/
theorem join_cases (directory : String) {name : String} (hname : IsName name) :
    directory = "" ∧ join directory name = name ∨
      ∃ text, (directory.toList = text ∧ text ≠ [] ∨ directory.toList = text ++ ['/']) ∧
        (join directory name).toList = text ++ '/' :: name.toList := by
  rw [join, hname.not_isAbsolute, if_neg Bool.false_ne_true]
  by_cases hempty : directory = ""
  · subst hempty
    exact .inl ⟨rfl, by simp⟩
  have hnot : directory.isEmpty = false := by simpa using hempty
  rw [hnot, Bool.false_or]
  right
  split_ifs with hend
  · obtain ⟨text, htext⟩ := List.getLast?_eq_some_iff.mp (eq_of_beq hend)
    exact ⟨text, .inr htext, by rw [String.toList_append, htext, List.append_assoc]; rfl⟩
  · refine ⟨directory.toList, .inl ⟨rfl, mt String.toList_eq_nil_iff.mp hempty⟩, ?_⟩
    rw [String.toList_append, String.toList_append, List.append_assoc]
    rfl

/-- A name behind a directory is the last piece. -/
theorem exists_endsWith_join {directory name : String} (hdirectory : isAbsolute directory = false) (hname : IsName name) :
    ∃ front, EndsWith (join directory name) front name.toList ∧
      front.filterMap (componentOf false) = below directory.toList := by
  have hcounts (front : List (List Char)) : componentOf front.isEmpty name.toList ≠ none := by
    rw [hname.componentOf_eq]
    nofun
  have hpieces : pieces name.toList = [name.toList] := pieces_of_not_mem hname.1
  rcases join_cases directory hname with ⟨rfl, hjoin⟩ | ⟨text, htext, hjoin⟩
  · rw [hjoin]
    exact ⟨[], ⟨hname.not_isAbsolute, hpieces, hcounts []⟩, rfl⟩
  · have hbegin : ∃ c rest, text = c :: rest ∧ c ≠ '/' := by
      rw [isAbsolute] at hdirectory
      cases text with
      | nil =>
        rcases htext with ⟨-, hne⟩ | htext
        · exact absurd rfl hne
        · simp [htext] at hdirectory
      | cons c rest =>
        refine ⟨c, rest, rfl, ?_⟩
        rintro rfl
        rcases htext with ⟨htext, -⟩ | htext <;> simp [htext] at hdirectory
    obtain ⟨c, rest, rfl, hc⟩ := hbegin
    refine ⟨pieces (c :: rest), ⟨by simp [isAbsolute, hjoin, hc], ?_, hcounts _⟩, ?_⟩
    · rw [hjoin, pieces_append_slash, hpieces]
    · rcases htext with ⟨htext, -⟩ | htext
      · rw [htext]
        rfl
      · rw [htext, below_append_slash, below_of_forall_eq (List.forall_mem_nil _), List.append_nil]
        rfl

/-! ### Files -/

/-- Where a path leads from the top, if it does not begin at the root. -/
def place (path : String) : Place := leads [] (components path)

/-- Where a path stops before it comes to its last component. -/
def way (path : String) : List Place := stops [] (components path).dropLast

namespace EndsWith

variable {path name : String} {front : List (List Char)}

theorem mem_way (h : EndsWith path front name.toList) (hname : IsName name) {stop : Place} :
    stop ∈ way path ↔ stop ∈ stops [] (front.filterMap (componentOf false)) := by
  have hbelow := h.below_eq
  rw [hname.2, Option.toList_some] at hbelow
  rw [way]
  rcases components_eq_or h.relative with heq | heq
  · rw [heq, hbelow, List.dropLast_concat]
  · rw [heq, hbelow, ← List.cons_append, List.dropLast_concat]
    exact ⟨fun hstop => (List.mem_cons.mp hstop).elim (fun hfirst => hfirst ▸ first_mem_stops _ _) id,
      List.mem_cons_of_mem _⟩

end EndsWith

end Path

namespace FileTree

open Minifier.Path

/-! ### Following -/

/-- A directory stands wherever components stop on their way from a place. -/
def IsOpen (tree : FileTree) (place : Place) (all : List Component) : Prop :=
  ∀ stop ∈ stops place all, tree.node? stop = some .directory

/-- What keeps components from being followed from a place: nothing is there, or a file. -/
def Blocked (tree : FileTree) (place : Place) (all : List Component) (fault : FileFault) : Prop :=
  ∃ stop ∈ stops place all, tree.node? stop = none ∧ fault = .missing ∨
    (∃ content, tree.node? stop = some (.file content)) ∧ fault = .notDirectory

/-- A file stands where components stop on their way from a place. -/
def Barred (tree : FileTree) (place : Place) (all : List Component) : Prop :=
  ∃ stop ∈ stops place all, ∃ content, tree.node? stop = some (.file content)

theorem not_isOpen_of_barred {tree : FileTree} {place : Place} {all : List Component} (h : tree.Barred place all) :
    ¬ tree.IsOpen place all := by
  obtain ⟨stop, hstop, content, hfile⟩ := h
  exact fun hopen => by simp [hopen stop hstop] at hfile

theorem not_isOpen_of_blocked {tree : FileTree} {place : Place} {all : List Component} {fault : FileFault}
    (h : tree.Blocked place all fault) : ¬ tree.IsOpen place all := by
  obtain ⟨stop, hstop, ⟨hnone, -⟩ | ⟨hfile, -⟩⟩ := h
  · exact fun hopen => by simp [hopen stop hstop] at hnone
  · exact not_isOpen_of_barred ⟨stop, hstop, hfile⟩

theorem isOpen_cons {tree : FileTree} {place : Place} {component : Component} {all : List Component} :
    tree.IsOpen place (component :: all) ↔
      tree.node? place = some .directory ∧ tree.IsOpen (component.leadsFrom place) all :=
  List.forall_mem_cons

theorem isOpen_concat {tree : FileTree} {place : Place} {component : Component} {all : List Component} :
    tree.IsOpen place (all ++ [component]) ↔
      tree.IsOpen place all ∧ tree.node? (leads place (all ++ [component])) = some .directory := by
  simp only [IsOpen, mem_stops_concat, or_imp, forall_and, forall_eq]

theorem isOpen_append_toList {tree : FileTree} {place : Place} {all : List Component} (last : Option Component) :
    tree.IsOpen place (all ++ last.toList) ↔
      tree.IsOpen place all ∧ tree.node? (leads place (all ++ last.toList)) = some .directory := by
  cases last with
  | none =>
    rw [Option.toList_none, List.append_nil]
    exact ⟨fun hopen => ⟨hopen, hopen _ (leads_mem_stops _ _)⟩, And.left⟩
  | some component => exact isOpen_concat

variable {tree : FileTree} {place : Place}

theorem follow_cons (h : tree.node? place = some .directory) (piece : List Char) (rest : List String) :
    tree.follow place (String.ofList piece :: rest) = tree.follow (leads place (componentOf false piece).toList) rest := by
  have hpiece (text : String) : String.ofList piece = text ↔ piece = text.toList := by
    rw [← String.toList_inj, String.toList_ofList]
  rw [follow, h]
  simp only [hpiece, componentOf, Bool.or_eq_true, decide_eq_true_eq]
  split_ifs <;> simp_all [leads, Component.leadsFrom]

/-- Pieces with one more behind them are followed through every place where they stop, or up to the first one that is
no directory. -/
theorem follow_concat (tree : FileTree) (place : Place) (all : List (List Char)) (last : List Char) :
    (tree.IsOpen place (all.filterMap (componentOf false)) ∧
      tree.follow place (all.map String.ofList ++ [String.ofList last]) =
        .ok (leads place ((all ++ [last]).filterMap (componentOf false)))) ∨
    ∃ fault, tree.Blocked place (all.filterMap (componentOf false)) fault ∧
      tree.follow place (all.map String.ofList ++ [String.ofList last]) = .error fault := by
  induction all generalizing place with
  | nil =>
    cases hnode : tree.node? place with
    | none => exact .inr ⟨.missing, ⟨place, List.mem_cons_self, .inl ⟨hnode, rfl⟩⟩, by simp [follow, hnode]⟩
    | some node =>
      cases node with
      | file content =>
        exact .inr ⟨.notDirectory, ⟨place, List.mem_cons_self, .inr ⟨⟨content, hnode⟩, rfl⟩⟩, by simp [follow, hnode]⟩
      | directory =>
        refine .inl ⟨by simpa [IsOpen, stops] using hnode, (follow_cons hnode last []).trans ?_⟩
        rw [follow, filterMap_concat]
        rfl
  | cons piece all ih =>
    cases hnode : tree.node? place with
    | none => exact .inr ⟨.missing, ⟨place, first_mem_stops _ _, .inl ⟨hnode, rfl⟩⟩, by simp [follow, hnode]⟩
    | some node =>
      cases node with
      | file content =>
        exact .inr ⟨.notDirectory, ⟨place, first_mem_stops _ _, .inr ⟨⟨content, hnode⟩, rfl⟩⟩, by simp [follow, hnode]⟩
      | directory =>
        rw [List.map_cons, List.cons_append, List.cons_append, follow_cons hnode]
        cases hpiece : componentOf false piece with
        | none =>
          rw [List.filterMap_cons_none hpiece, List.filterMap_cons_none hpiece]
          exact ih place
        | some component =>
          rw [List.filterMap_cons_some hpiece, List.filterMap_cons_some hpiece, isOpen_cons]
          rcases ih (component.leadsFrom place) with ⟨hopen, hfollow⟩ | ⟨fault, ⟨stop, hstop, hfault⟩, hfollow⟩
          · exact .inl ⟨⟨hnode, hopen⟩, hfollow⟩
          · exact .inr ⟨fault, ⟨stop, List.mem_cons_of_mem _ hstop, hfault⟩, hfollow⟩

theorem find_eq {path : String} (hempty : path ≠ "") (habsolute : isAbsolute path = false) :
    tree.find path = (tree.follow [] (FileTree.pieces path)).bind fun place =>
      match tree.node? place with
      | some node => .ok (place, node)
      | none => .error .missing := by
  have hcondition : (path.isEmpty || isAbsolute path) = false := by simp [hempty, habsolute]
  rw [find, hcondition, if_neg Bool.false_ne_true]
  rfl

/-- What a path leads to stands there. -/
theorem node?_of_find {path : String} {node : FileNode} (h : tree.find path = .ok (place, node)) :
    tree.node? place = some node := by
  by_cases hempty : path = ""
  · simp [find, hempty] at h
  cases habsolute : isAbsolute path with
  | true => simp [find, habsolute] at h
  | false =>
    rw [find_eq hempty habsolute] at h
    cases hfollow : tree.follow [] (FileTree.pieces path) with
    | error fault => simp [hfollow, Except.bind] at h
    | ok found =>
      simp only [hfollow, Except.bind] at h
      split at h
      case h_1 node' hnode =>
        obtain ⟨rfl, rfl⟩ := Prod.mk.inj (Except.ok.inj h)
        exact hnode
      case h_2 => exact absurd h nofun

/-- A path leads to a directory just if a directory stands wherever it stops. -/
theorem find_eq_directory_iff {path : String} :
    tree.find path = .ok (place, .directory) ↔ path ≠ "" ∧ isAbsolute path = false ∧
      place = leads [] (Path.below path.toList) ∧ tree.IsOpen [] (Path.below path.toList) := by
  by_cases hempty : path = ""
  · simp [find, hempty]
  cases habsolute : isAbsolute path with
  | true => simp [find, habsolute]
  | false =>
    obtain ⟨front, last, hpieces⟩ : ∃ front last, Path.pieces path.toList = front ++ [last] :=
      ⟨_, _, (List.dropLast_concat_getLast (pieces_ne_nil path.toList)).symm⟩
    have hbelow : Path.below path.toList = front.filterMap (componentOf false) ++ (componentOf false last).toList := by
      rw [Path.below, hpieces, filterMap_concat]
    rw [find_eq hempty habsolute, FileTree.pieces, ← Path.pieces, hpieces, List.map_append, List.map_singleton, hbelow,
      isOpen_append_toList]
    rcases tree.follow_concat [] front last with ⟨hopen, hfollow⟩ | ⟨fault, hblocked, hfollow⟩
    · rw [hfollow, filterMap_concat, Except.bind]
      generalize leads [] (front.filterMap (componentOf false) ++ (componentOf false last).toList) = final
      rcases hnode : tree.node? final with _ | node
      · simp
      · simp only [hempty, hopen, Except.ok.injEq, Prod.mk.injEq, Option.some.injEq, ne_eq, not_false_eq_true, true_and,
          @eq_comm _ place]
    · rw [hfollow, Except.bind]
      exact iff_of_false (by simp) fun h => not_isOpen_of_blocked hblocked h.2.2.2.1

/-- Where the way is open, a path leads to what stands behind it. -/
theorem find_of_isOpen {path : String} {front : List (List Char)} {last : List Char} (h : EndsWith path front last)
    (hopen : tree.IsOpen [] (front.filterMap (componentOf false))) :
    tree.find path =
      match tree.node? (leads [] (Path.below path.toList)) with
      | some node => .ok (leads [] (Path.below path.toList), node)
      | none => .error .missing := by
  rw [find_eq h.ne_empty h.relative, FileTree.pieces, ← Path.pieces, Path.below, h.pieces_eq, List.map_append,
    List.map_singleton]
  rcases tree.follow_concat [] front last with ⟨-, hfollow⟩ | ⟨fault, hblocked, -⟩
  · rw [hfollow]
    rfl
  · exact absurd hopen (not_isOpen_of_blocked hblocked)

/-- A name in a directory leads to what stands there. -/
theorem find_join {directory name : String} (hname : IsName name) (h : tree.find directory = .ok (place, .directory)) :
    tree.find (join directory name) =
      match tree.node? (place ++ [name]) with
      | some node => .ok (place ++ [name], node)
      | none => .error .missing := by
  obtain ⟨-, hrelative, rfl, hopen⟩ := find_eq_directory_iff.mp h
  obtain ⟨front, hends, hfront⟩ := exists_endsWith_join hrelative hname
  rw [find_of_isOpen hends (hfront ▸ hopen), hends.below_eq, hfront, hname.2, leads_append]
  rfl

end FileTree

end Minifier
