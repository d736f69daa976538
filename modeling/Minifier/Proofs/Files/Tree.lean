import Minifier.Files.Tree
import Minifier.Proofs.Entries
import Minifier.Proofs.Files.Path
import Mathlib.Data.List.Induction
import Mathlib.Data.List.Lex
import Mathlib.Data.String.Basic

/-!
Trees of directories and files, and how they grow. What is put at a place stands there and leaves all else where it
was. A tree is well formed if its entries are in the order of places, have proper names and lie in directories, and
it stays so if what is put lies in a directory and does not take the place of one.
-/

namespace Minifier

/-! ### Places in order -/

namespace Place

theorem before_iff {place other : Place} : place.before other = true ↔ place < other := by
  induction place generalizing other with
  | nil => cases other <;> simp [before]
  | cons name place ih =>
    cases other with
    | nil => simp [before]
    | cons name' other => simp [before, List.cons_lt_cons_iff, ih]

theorem below?_eq_some_iff {top place rest : Place} :
    below? top place = some rest ↔ place = top ++ rest ∧ rest ≠ [] := by
  induction top generalizing place with
  | nil => cases place <;> simp +contextual [below?, eq_comm]
  | cons name top ih =>
    cases place with
    | nil => simp [below?]
    | cons name' place =>
      rw [below?]
      split_ifs with h
      · rw [ih, h, List.cons_append, List.cons_inj_right]
      · simp [Ne.symm h]

end Place

/-- A piece of a path that counts as a name, so that it can stand in a tree. -/
def Path.IsName (name : String) : Prop :=
  '/' ∉ name.toList ∧ componentOf false name.toList = some (.normal name)

instance (name : String) : Decidable (Path.IsName name) := inferInstanceAs (Decidable (_ ∧ _))

namespace FileTree

/-! ### What is put somewhere -/

/-- What is put at a place stands there, and all else stands where it stood. -/
theorem lookup_putInto (place other : Place) (node : FileNode) (entries : List (Place × FileNode)) :
    (putInto place node entries).lookup other = if other = place then some node else entries.lookup other := by
  have hcons (entry : Place × FileNode) (rest : List (Place × FileNode)) :
      (entry :: rest).lookup other = if other = entry.1 then some entry.2 else rest.lookup other := by
    rw [List.lookup_cons]
    split_ifs with h
    · rw [beq_iff_eq.mpr h]
    · rw [beq_false_of_ne h]
  induction entries with
  | nil => rw [putInto, hcons]
  | cons entry rest ih =>
    rw [putInto, hcons]
    split_ifs with heq hbefore hother hother hother
    all_goals simp only [hcons, ih]
    all_goals grind

theorem node?_put {place : Place} (hplace : place ≠ []) (tree : FileTree) (node : FileNode) (other : Place) :
    (tree.put place node).node? other = if other = place then some node else tree.node? other := by
  cases other with
  | nil => rw [if_neg hplace.symm, node?, node?]
  | cons name other => exact lookup_putInto place (name :: other) node tree.entries

theorem mem_putInto {place : Place} {node : FileNode} {entries : List (Place × FileNode)} {entry : Place × FileNode}
    (h : entry ∈ putInto place node entries) : entry = (place, node) ∨ entry ∈ entries := by
  induction entries with
  | nil => exact .inl (List.mem_singleton.mp h)
  | cons first rest ih =>
    rw [putInto] at h
    split_ifs at h <;> grind

/-- What is looked for and not found at a place is found just as before after something was put there. -/
theorem filterMap_putInto {α : Type} {look : Place × FileNode → Option α} {place : Place} {node : FileNode}
    {entries : List (Place × FileNode)} (hnode : look (place, node) = none)
    (hentries : ∀ entry ∈ entries, entry.1 = place → look entry = none) :
    (putInto place node entries).filterMap look = entries.filterMap look := by
  induction entries with
  | nil => rw [putInto, List.filterMap_cons_none hnode]
  | cons entry rest ih =>
    rw [List.forall_mem_cons] at hentries
    rw [putInto]
    split_ifs with heq hbefore
    · rw [List.filterMap_cons_none hnode, List.filterMap_cons_none (hentries.1 heq)]
    · rw [List.filterMap_cons_none hnode]
    · rw [List.filterMap_cons, List.filterMap_cons, ih hentries.2]

/-! ### Well-formed trees -/

/-- Entries stand in the order of places. -/
def InOrder (entries : List (Place × FileNode)) : Prop :=
  entries.Pairwise fun entry next => entry.1.before next.1 = true

instance (entries : List (Place × FileNode)) : Decidable (InOrder entries) :=
  inferInstanceAs (Decidable (entries.Pairwise fun entry next => entry.1.before next.1 = true))

theorem inOrder_putInto {entries : List (Place × FileNode)} (h : InOrder entries) (place : Place) (node : FileNode) :
    InOrder (putInto place node entries) := by
  induction entries with
  | nil => exact List.pairwise_singleton _ _
  | cons first rest ih =>
    obtain ⟨hfirst, hrest⟩ := List.pairwise_cons.mp h
    rw [putInto]
    split_ifs with heq hbefore
    · exact List.pairwise_cons.mpr ⟨fun entry hentry => heq ▸ hfirst entry hentry, hrest⟩
    · refine List.pairwise_cons.mpr ⟨fun entry hentry => ?_, h⟩
      rcases List.mem_cons.mp hentry with rfl | hentry
      · exact hbefore
      · exact Place.before_iff.mpr ((Place.before_iff.mp hbefore).trans (Place.before_iff.mp (hfirst entry hentry)))
    · refine List.pairwise_cons.mpr ⟨fun entry hentry => ?_, ih hrest⟩
      rcases mem_putInto hentry with rfl | hentry
      · have hle := not_lt.mp (mt Place.before_iff.mpr hbefore)
        exact Place.before_iff.mpr (lt_of_le_of_ne hle heq)
      · exact hfirst entry hentry

/-- Every entry has proper names and lies in a directory, and the entries are in the order of places. -/
structure WellFormed (tree : FileTree) : Prop where
  inOrder : InOrder tree.entries
  named : ∀ entry ∈ tree.entries, entry.1 ≠ [] ∧ ∀ name ∈ entry.1, Path.IsName name
  rooted : ∀ entry ∈ tree.entries, tree.node? entry.1.dropLast = some .directory

theorem mem_of_node? {tree : FileTree} {place : Place} {node : FileNode} (hplace : place ≠ [])
    (h : tree.node? place = some node) : (place, node) ∈ tree.entries := by
  obtain ⟨name, more, rfl⟩ := List.exists_cons_of_ne_nil hplace
  obtain ⟨before, after, hentries, -⟩ := List.lookup_eq_some_iff.mp h
  rw [hentries]
  exact List.mem_append_right _ List.mem_cons_self

namespace WellFormed

variable {tree : FileTree}

theorem node?_of_mem (h : tree.WellFormed) {entry : Place × FileNode} (hentry : entry ∈ tree.entries) :
    tree.node? entry.1 = some entry.2 := by
  have hnodup : (tree.entries.map Prod.fst).Nodup :=
    List.pairwise_map.mpr (h.inOrder.imp fun hbefore => (Place.before_iff.mp hbefore).ne)
  obtain ⟨name, more, hplace⟩ := List.exists_cons_of_ne_nil (h.named entry hentry).1
  rw [hplace]
  exact (Entries.lookup_eq_some_iff_mem hnodup).mpr (hplace ▸ hentry)

/-- What holds something is a directory. -/
theorem directory_of_node? (h : tree.WellFormed) {place rest : Place} {node : FileNode}
    (hnode : tree.node? (place ++ rest) = some node) (hrest : rest ≠ []) : tree.node? place = some .directory := by
  induction rest using List.reverseRecOn generalizing node with
  | nil => exact absurd rfl hrest
  | append_singleton rest name ih =>
    rw [← List.append_assoc] at hnode
    have hparent := h.rooted _ (mem_of_node? (by simp) hnode)
    rw [List.dropLast_concat] at hparent
    by_cases hempty : rest = []
    · rwa [hempty, List.append_nil] at hparent
    · exact ih hparent hempty

/-- Two dots lead from a directory to a directory. -/
theorem directory_dropLast (h : tree.WellFormed) {place : Place} {node : FileNode} (hnode : tree.node? place = some node) :
    tree.node? place.dropLast = some .directory := by
  by_cases hplace : place = []
  · rw [hplace]
    rfl
  · exact h.rooted _ (mem_of_node? hplace hnode)

/-- A tree stays well formed if what is put lies in a directory and is not put where a directory stands, unless it
is one. -/
theorem put (h : tree.WellFormed) {place : Place} {name : String} {node : FileNode} (hname : Path.IsName name)
    (hplace : tree.node? place = some .directory)
    (hfree : tree.node? (place ++ [name]) ≠ some .directory ∨ node = .directory) :
    (tree.put (place ++ [name]) node).WellFormed := by
  have hne : place ++ [name] ≠ [] := List.concat_ne_nil _ _
  have hkept {other : Place} (hother : tree.node? other = some .directory) :
      (tree.put (place ++ [name]) node).node? other = some .directory := by
    rw [node?_put hne]
    split_ifs with heq
    · subst heq
      rw [hfree.resolve_left (not_not_intro hother)]
    · exact hother
  refine ⟨inOrder_putInto h.inOrder _ _, fun entry hentry => ?_, fun entry hentry => ?_⟩
  · rcases mem_putInto hentry with rfl | hentry
    · refine ⟨hne, fun other hother => ?_⟩
      rcases List.mem_append.mp hother with hother | hother
      · have hplaceNe : place ≠ [] := List.ne_nil_of_mem hother
        exact (h.named _ (mem_of_node? hplaceNe hplace)).2 other hother
      · rw [List.mem_singleton.mp hother]
        exact hname
    · exact h.named entry hentry
  · rcases mem_putInto hentry with rfl | hentry
    · simpa using hkept hplace
    · exact hkept (h.rooted entry hentry)

end WellFormed

/-! ### Growing -/

/-- A tree grows by directories where nothing is and by files where no directory is, each in a directory that is
there, and only at places where it may. -/
inductive Grown (mayMake : Place → Prop) (mayWrite : Place → FileContent → Prop) (tree : FileTree) : FileTree → Prop
  | refl : Grown mayMake mayWrite tree tree
  | directory {later : FileTree} {place : Place} {name : String} (grown : Grown mayMake mayWrite tree later)
      (named : Path.IsName name) (rooted : later.node? place = some .directory)
      (free : later.node? (place ++ [name]) = none) (may : mayMake (place ++ [name])) :
      Grown mayMake mayWrite tree (later.put (place ++ [name]) .directory)
  | file {later : FileTree} {place : Place} {name : String} {content : FileContent}
      (grown : Grown mayMake mayWrite tree later) (named : Path.IsName name)
      (rooted : later.node? place = some .directory) (free : later.node? (place ++ [name]) ≠ some .directory)
      (may : mayWrite (place ++ [name]) content) :
      Grown mayMake mayWrite tree (later.put (place ++ [name]) (.file content))

namespace Grown

variable {mayMake : Place → Prop} {mayWrite : Place → FileContent → Prop} {tree later last : FileTree}

theorem trans (h : Grown mayMake mayWrite tree later) (h' : Grown mayMake mayWrite later last) :
    Grown mayMake mayWrite tree last := by
  induction h' with
  | refl => exact h
  | directory _ named rooted free may ih => exact ih.directory named rooted free may
  | file _ named rooted free may ih => exact ih.file named rooted free may

theorem mono {mayMake' : Place → Prop} {mayWrite' : Place → FileContent → Prop} (h : Grown mayMake mayWrite tree later)
    (hmake : ∀ place, mayMake place → mayMake' place) (hwrite : ∀ place content, mayWrite place content → mayWrite' place content) :
    Grown mayMake' mayWrite' tree later := by
  induction h with
  | refl => exact .refl
  | directory _ named rooted free may ih => exact ih.directory named rooted free (hmake _ may)
  | file _ named rooted free may ih => exact ih.file named rooted free (hwrite _ _ may)

theorem wellFormed (h : Grown mayMake mayWrite tree later) (htree : tree.WellFormed) : later.WellFormed := by
  induction h with
  | refl => exact htree
  | directory _ named rooted _ _ ih => exact ih.put named rooted (.inr rfl)
  | file _ named rooted free _ ih => exact ih.put named rooted (.inl free)

/-- What stands at a place has stood there, or was put there where it may be. -/
theorem node?_cases (h : Grown mayMake mayWrite tree later) (place : Place) :
    later.node? place = tree.node? place ∨
      (mayMake place ∧ tree.node? place = none ∧ later.node? place = some .directory) ∨
      ∃ content, mayWrite place content ∧ tree.node? place ≠ some .directory ∧
        later.node? place = some (.file content) := by
  induction h with
  | refl => exact .inl rfl
  | directory _ named rooted free may ih =>
    rw [node?_put (List.concat_ne_nil _ _)]
    split_ifs with heq
    · subst heq
      rcases ih with hsame | ⟨-, -, hdirectory⟩ | ⟨content, -, -, hfile⟩
      · exact .inr (.inl ⟨may, hsame ▸ free, rfl⟩)
      · simp [free] at hdirectory
      · simp [free] at hfile
    · exact ih
  | @file before front name content _ named rooted free may ih =>
    rw [node?_put (List.concat_ne_nil _ _)]
    split_ifs with heq
    · subst heq
      refine .inr (.inr ⟨content, may, ?_, rfl⟩)
      rcases ih with hsame | ⟨-, hnone, -⟩ | ⟨content, -, hne, -⟩
      · exact hsame ▸ free
      · simp [hnone]
      · exact hne
    · exact ih

/-- Directories stay. -/
theorem directory_kept (h : Grown mayMake mayWrite tree later) {place : Place}
    (hplace : tree.node? place = some .directory) : later.node? place = some .directory := by
  rcases h.node?_cases place with hsame | ⟨-, -, hdirectory⟩ | ⟨content, -, hne, -⟩
  · rw [hsame, hplace]
  · exact hdirectory
  · exact absurd hplace hne

/-- Where nothing may be put, nothing changes. -/
theorem eq (h : Grown mayMake mayWrite tree later) (hmake : ∀ place, ¬ mayMake place)
    (hwrite : ∀ place content, ¬ mayWrite place content) : later = tree := by
  cases h with
  | refl => rfl
  | directory _ _ _ _ may => exact absurd may (hmake _)
  | file _ _ _ _ may => exact absurd may (hwrite _ _)

/-- A place at which nothing may be put keeps what it has. -/
theorem node?_eq (h : Grown mayMake mayWrite tree later) {place : Place} (hmake : tree.node? place = none → ¬ mayMake place)
    (hwrite : ∀ content, ¬ mayWrite place content) : later.node? place = tree.node? place := by
  rcases h.node?_cases place with hsame | ⟨hmay, hnone, -⟩ | ⟨content, hmay, -⟩
  · exact hsame
  · exact absurd hmay (hmake hnone)
  · exact absurd hmay (hwrite content)

/-- What is looked for among the entries is found just as before if it is no directory and no file that may be
written. -/
theorem filterMap_eq {α : Type} {look : Place × FileNode → Option α} (h : Grown mayMake mayWrite tree later)
    (hdirectory : ∀ place, look (place, .directory) = none)
    (hfile : ∀ place content, mayWrite place content → ∀ node, look (place, node) = none) :
    later.entries.filterMap look = tree.entries.filterMap look := by
  induction h with
  | refl => rfl
  | directory _ named rooted free may ih =>
    refine (filterMap_putInto (hdirectory _) fun entry hentry heq => ?_).trans ih
    obtain ⟨name, more, hplace⟩ := List.exists_cons_of_ne_nil (List.concat_ne_nil _ _)
    rw [hplace] at free heq
    have hne := List.lookup_eq_none_iff.mp free entry hentry
    simp [heq] at hne
  | file _ named rooted free may ih =>
    refine (filterMap_putInto (hfile _ _ may _) fun entry _ heq => ?_).trans ih
    obtain ⟨place, node⟩ := entry
    subst heq
    exact hfile _ _ may node

end Grown

end FileTree

end Minifier
