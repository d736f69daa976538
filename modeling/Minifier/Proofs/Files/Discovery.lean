import Minifier.Proofs.Files.Name
import Minifier.Proofs.Host.Memory

/-!
What a run finds in a directory: the files within reach whose names are those of sources. The path that it gives for
such a file leads to it, and a file has no two such paths.
-/

namespace Minifier

open Minifier.Path MemoryHost FileTree

/-! ### Paths to places below a directory -/

/-- A name that counts behind a slash counts alone. -/
theorem Path.IsName.components_eq {name : String} (h : IsName name) :
    components name = [.normal name] ∧ below name.toList = [.normal name] := by
  have hbelow : below name.toList = [.normal name] := by
    rw [below_of_not_mem h.1, h.2]
    rfl
  refine ⟨?_, hbelow⟩
  rw [← hbelow, ← components_eq_below (pieces_of_not_mem h.1) h.2, String.ofList_toList]

theorem Path.components_join_name (directory : String) {name : String} (h : IsName name) :
    components (join directory name) = components directory ++ [.normal name] := by
  obtain ⟨c, left, hleft⟩ := List.exists_cons_of_ne_nil h.ne_nil
  obtain ⟨hcomponents, hbelow⟩ := h.components_eq
  have hname : name = String.ofList (c :: left) := by rw [← hleft, String.ofList_toList]
  have hc : c ≠ '/' := fun hc => h.1 (hleft ▸ hc ▸ List.mem_cons_self)
  rw [hleft] at hbelow
  rw [hname, components_join directory hc (by rw [← hname, hcomponents, hbelow]), hbelow, ← hname]

namespace Files

variable {root : String} {top rest : Place}

theorem pathTo_concat (directory : String) (place : Place) (name : String) :
    pathTo directory (place ++ [name]) = Path.join (pathTo directory place) name := List.foldl_concat ..

theorem components_pathTo (directory : String) (h : ∀ name ∈ rest, IsName name) :
    components (pathTo directory rest) = components directory ++ rest.map .normal := by
  induction rest using List.reverseRecOn with
  | nil => exact (List.append_nil _).symm
  | append_singleton rest name ih =>
    simp only [List.forall_mem_append, List.forall_mem_singleton] at h
    rw [pathTo_concat, components_join_name _ h.2, ih h.1, List.map_append, List.append_assoc]
    rfl

/-- The file name of a path to a place is the last name. -/
theorem fileName?_pathTo (directory : String) (h : ∀ name ∈ rest, IsName name) (hrest : rest ≠ []) :
    fileName? (pathTo directory rest) = rest.getLast? := by
  obtain ⟨front, name, rfl⟩ := List.eq_nil_or_concat' rest |>.resolve_left hrest
  rw [fileName?, components_pathTo directory h, List.map_append, ← List.append_assoc, List.map_singleton,
    List.getLast?_concat, List.getLast?_concat]

end Files

namespace FileTree

variable {tree : FileTree} {root : String} {top rest : Place} {node : FileNode}

theorem WellFormed.isName (h : tree.WellFormed) {place : Place} (hnode : tree.node? place = some node) :
    ∀ name ∈ place, IsName name := by
  intro name hname
  exact (h.named _ (mem_of_node? (List.ne_nil_of_mem hname) hnode)).2 name hname

theorem WellFormed.isName_below (h : tree.WellFormed) (hnode : tree.node? (top ++ rest) = some node) :
    ∀ name ∈ rest, IsName name :=
  fun name hname => h.isName hnode name (List.mem_append_right top hname)

/-- A file is not at the place of a directory. -/
theorem ne_nil_of_file (hroot : tree.find root = .ok (top, .directory)) {content : FileContent}
    (hfile : tree.node? (top ++ rest) = some (.file content)) : rest ≠ [] := by
  rintro rfl
  rw [List.append_nil, node?_of_find hroot] at hfile
  exact FileNode.noConfusion (Option.some.inj hfile)

/-- The path from a directory to a place below it leads to what stands there. -/
theorem find_pathTo (h : tree.WellFormed) (hroot : tree.find root = .ok (top, .directory))
    (hnode : tree.node? (top ++ rest) = some node) : tree.find (Files.pathTo root rest) = .ok (top ++ rest, node) := by
  induction rest using List.reverseRecOn generalizing node with
  | nil =>
    obtain rfl : FileNode.directory = node := by
      rw [List.append_nil] at hnode
      exact Option.some.inj ((node?_of_find hroot).symm.trans hnode)
    rw [List.append_nil]
    exact hroot
  | append_singleton rest name ih =>
    have hname : IsName name := h.isName hnode name (by simp)
    rw [← List.append_assoc] at hnode ⊢
    have hdirectory := h.directory_of_node? hnode (List.cons_ne_nil _ _)
    rw [Files.pathTo_concat, find_join hname (ih hdirectory), hnode]

end FileTree

/-! ### Sources -/

namespace Files

variable {tree : FileTree} {root path : String} {recursive : Bool} {top rest : Place}

/-- The sources within reach below a place, in the order of places. -/
def sourcesBelow (tree : FileTree) (root : String) (recursive : Bool) (top : Place) : List String :=
  sourcesAmong root recursive (tree.entries.filterMap fun (place, node) =>
    (top.below? place).map fun rest => (rest, node.status))

/-- A source within reach below a place. -/
structure Source (tree : FileTree) (recursive : Bool) (top rest : Place) : Prop where
  file : ∃ content, tree.node? (top ++ rest) = some (.file content)
  reach : inReach recursive rest = true
  named : ∃ name, rest.getLast? = some name ∧ FileName.isSourceName name = true

theorem Source.rest_ne (h : Source tree recursive top rest) : rest ≠ [] := by
  obtain ⟨name, hname, -⟩ := h.named
  rintro rfl
  simp at hname

theorem perform_discover {host : MemoryHost} (hroot : host.files.find root = .ok (top, .directory)) (recursive : Bool)
    (shop : Workshop) :
    perform (discover root recursive) shop host = ((.ok (sourcesBelow host.files root recursive top), shop), host) := by
  have hstatus : perform (ε := Error) (Host.status root) shop host = ((.ok (.ok .directory), shop), host) := by
    change ((Except.ok (host.files.status root), shop), host) = _
    rw [FileTree.status, hroot]
    rfl
  have hbelow : perform (orFail (Host.below (fun name => recursive && !skippedDirectories.contains name) root)) shop host =
      ((.ok (host.files.entries.filterMap fun (place, node) =>
        (top.below? place).map fun rest => (rest, node.status)), shop), host) := by
    change (((host.files.below root).mapError fun fault => Error.io fault.message, shop), host) = _
    rw [FileTree.below, hroot]
    rfl
  rw [discover, perform_bind, hstatus]
  simp only
  rw [perform_bind, hbelow]
  rfl

/-- What an entry of a tree adds to the sources below a place. -/
def sourceAt (root : String) (recursive : Bool) (top : Place) (entry : Place × FileNode) : Option String :=
  (top.below? entry.1).bind fun rest =>
    if entry.2.status.isFile && inReach recursive rest && FileName.isSource (pathTo root rest) then some (pathTo root rest)
    else none

theorem sourcesBelow_eq (tree : FileTree) (root : String) (recursive : Bool) (top : Place) :
    sourcesBelow tree root recursive top = tree.entries.filterMap (sourceAt root recursive top) := by
  rw [sourcesBelow, sourcesAmong, List.filterMap_filterMap]
  refine List.filterMap_congr ?_
  rintro ⟨place, node⟩ -
  cases hbelow : top.below? place <;> simp [sourceAt, hbelow]

theorem isSource_pathTo_iff (root : String) (hnames : ∀ name ∈ rest, IsName name) (hrest : rest ≠ []) :
    FileName.isSource (pathTo root rest) = true ↔ ∃ name, rest.getLast? = some name ∧ FileName.isSourceName name = true := by
  obtain ⟨front, name, rfl⟩ := List.eq_nil_or_concat' rest |>.resolve_left hrest
  have hname : fileName? (pathTo root (front ++ [name])) = some name := by
    rw [fileName?_pathTo root hnames hrest, List.getLast?_concat]
  rw [FileName.isSource_eq hname, List.getLast?_concat]
  simp

/-- What is found below a place are the paths to the sources within reach. -/
theorem mem_sourcesBelow_iff (hwell : tree.WellFormed) :
    path ∈ sourcesBelow tree root recursive top ↔ ∃ rest, Source tree recursive top rest ∧ path = pathTo root rest := by
  rw [sourcesBelow_eq, List.mem_filterMap]
  constructor
  · rintro ⟨⟨place, node⟩, hentry, hsource⟩
    obtain ⟨rest, hbelow, hpath⟩ := Option.bind_eq_some_iff.mp hsource
    obtain ⟨rfl, hrest⟩ := Place.below?_eq_some_iff.mp hbelow
    have hnode := hwell.node?_of_mem hentry
    have hnames := hwell.isName_below hnode
    split_ifs at hpath with hcondition
    simp only [Bool.and_eq_true] at hcondition
    obtain ⟨⟨hfile, hreach⟩, hnamed⟩ := hcondition
    refine ⟨rest, ⟨?_, hreach, (isSource_pathTo_iff root hnames hrest).mp hnamed⟩, (Option.some.inj hpath).symm⟩
    cases node with
    | directory => exact absurd hfile nofun
    | file content => exact ⟨content, hnode⟩
  · rintro ⟨rest, hsource, rfl⟩
    obtain ⟨content, hnode⟩ := hsource.file
    have hrest := hsource.rest_ne
    have hnames := hwell.isName_below hnode
    refine ⟨_, mem_of_node? (List.append_ne_nil_of_right_ne_nil top hrest) hnode, ?_⟩
    rw [sourceAt, Place.below?_eq_some_iff.mpr ⟨rfl, hrest⟩]
    simp [FileNode.status, FileStatus.isFile, hsource.reach, (isSource_pathTo_iff root hnames hrest).mpr hsource.named]

/-- Two paths from a directory to one text lead to one place. -/
theorem pathTo_inj (hwell : tree.WellFormed) (hroot : tree.find root = .ok (top, .directory)) {other : Place}
    {node node' : FileNode} (hnode : tree.node? (top ++ rest) = some node) (hother : tree.node? (top ++ other) = some node')
    (h : pathTo root rest = pathTo root other) : rest = other := by
  have hfind := FileTree.find_pathTo hwell hroot hnode
  rw [h, FileTree.find_pathTo hwell hroot hother] at hfind
  exact (List.append_cancel_left (Prod.mk.inj (Except.ok.inj hfind)).1).symm

/-- A file below a place is found just if it is a source within reach. -/
theorem pathTo_mem_sourcesBelow_iff (hwell : tree.WellFormed) (hroot : tree.find root = .ok (top, .directory))
    {content : FileContent} (hfile : tree.node? (top ++ rest) = some (.file content)) :
    pathTo root rest ∈ sourcesBelow tree root recursive top ↔
      inReach recursive rest = true ∧ ∃ name, rest.getLast? = some name ∧ FileName.isSourceName name = true := by
  rw [mem_sourcesBelow_iff hwell]
  constructor
  · rintro ⟨other, hsource, hpath⟩
    obtain ⟨content', hother⟩ := hsource.file
    obtain rfl := pathTo_inj hwell hroot hfile hother hpath
    exact ⟨hsource.reach, hsource.named⟩
  · rintro ⟨hreach, hnamed⟩
    exact ⟨rest, ⟨⟨content, hfile⟩, hreach, hnamed⟩, rfl⟩

end Files

end Minifier
