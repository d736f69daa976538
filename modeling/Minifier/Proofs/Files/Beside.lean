import Minifier.Proofs.Files.Copies

/-!
Copies beside their files. A copy has the directory and the ending of its file and a name of its own, which no file to
minify has. So without an output the copies of a run keep out of each other's way and out of the files' way.
-/

namespace Minifier

open Minifier.Path MemoryHost FileTree

namespace FileName

/-! ### Base names -/

/-- The base name of a copy. -/
def marked (base : List Char) : List Char :=
  match splitExtension? base with
  | some (stem, ending) => stem ++ ['.', 'm', 'i', 'n'] ++ '.' :: ending
  | none => base ++ ['.', 'm', 'i', 'n']

theorem toList_minified (name : String) :
    (minified name).toList = (split name.toList).1 ++ marked (split name.toList).2 := by
  have hname := split_append name.toList
  cases hsplit : splitExtension? (split name.toList).2 with
  | none => simp [minified, marked, hsplit, ← List.append_assoc, hname]
  | some found => simp [minified, marked, hsplit]

theorem mem_marked {base : List Char} {c : Char} (h : c ∈ marked base) : c ∈ base ∨ c ∈ ['.', 'm', 'i', 'n'] := by
  rw [marked] at h
  split at h
  case h_1 stem ending hsplit =>
    rw [Path.eq_of_splitExtension? hsplit]
    simp only [List.mem_append, List.mem_cons, List.not_mem_nil, or_false] at h ⊢
    tauto
  case h_2 => exact List.mem_append.mp h

theorem split_of_not_isSeparator {base : List Char} (h : ∀ c ∈ base, isSeparator c = false) : split base = ([], base) := by
  have hbase : ∀ c ∈ base, (!isSeparator c) = true := by simpa using h
  rw [split_eq, List.rdropWhile_eq_nil_iff.mpr hbase, List.rtakeWhile_eq_self_iff.mpr hbase]

theorem isSeparator_of_getLast? {name : List Char} : ∀ c ∈ (split name).1.getLast?, isSeparator c = true := by
  intro c hc
  rw [split_eq] at hc
  obtain ⟨hne, hlast⟩ := List.mem_getLast?_eq_getLast hc
  simpa [hlast] using List.rdropWhile_last_not (fun c => !isSeparator c) name hne

/-- A copy has the directory of its file. -/
theorem split_minified (name : String) :
    split (minified name).toList = ((split name.toList).1, marked (split name.toList).2) := by
  have hmarked : ∀ c ∈ marked (split name.toList).2, isSeparator c = false := by
    intro c hc
    rcases mem_marked hc with hbase | hmark
    · exact not_isSeparator_of_mem_base hbase
    · have hall : ['.', 'm', 'i', 'n'].all (fun d => !isSeparator d) = true := by decide
      simpa using List.all_eq_true.mp hall c hmark
  rw [toList_minified, split_append_of_separator isSeparator_of_getLast?, split_of_not_isSeparator hmarked,
    List.append_nil]

/-- A base name with a dot behind its first character has an ending. -/
theorem exists_splitExtension?_eq {base : List Char} (h : '.' ∈ base.tail) :
    ∃ stem ending, splitExtension? base = some (stem, ending) := by
  obtain ⟨c, more, rfl⟩ := List.exists_cons_of_ne_nil (show base ≠ [] by rintro rfl; simp at h)
  obtain ⟨front, back, hmore, hfront⟩ := List.eq_append_cons_of_mem (List.mem_reverse.mpr h)
  refine ⟨c :: back.reverse, front.reverse, Path.splitExtension?_eq_some_iff.mpr ⟨?_, List.cons_ne_nil _ _, ?_⟩⟩
  · rw [List.tail_cons, List.reverse_eq_iff] at hmore
    simp [hmore]
  · rwa [List.mem_reverse]

/-- A copy has the ending of its file, if that has one. -/
theorem extension_minified {name : String} (h : '.' ∈ (split name.toList).2.tail) :
    extension (minified name) = extension name := by
  obtain ⟨stem, ending, hsplit⟩ := exists_splitExtension?_eq h
  obtain ⟨-, hstem, hdot⟩ := Path.splitExtension?_eq_some_iff.mp hsplit
  have hmarked : splitExtension? (marked (split name.toList).2) = some (stem ++ ['.', 'm', 'i', 'n'], ending) := by
    rw [marked, hsplit]
    exact Path.splitExtension?_eq_some_iff.mpr ⟨rfl, List.append_ne_nil_of_left_ne_nil hstem _, hdot⟩
  rw [extension, extension, split_minified, hmarked, hsplit]

/-! ### Sources -/

/-- Whether a path leads to a source is told by its components. -/
theorem isSource_eq_of_same {path other : String} (h : same path other = true) : isSource path = isSource other := by
  have hname : fileName? path = fileName? other := by
    rw [fileName?, fileName?, same_iff.mp h]
  rw [isSource, isSource, Language.ofPath?, Language.ofPath?, extension?, extension?, hname]

/-- A name without slashes is the file name of the path that goes on with it behind a slash. -/
theorem fileName?_append {directory name : String} (hdirectory : directory = "" ∨ directory.toList.getLast? = some '/')
    (h : IsName name) : fileName? (directory ++ name) = some name := by
  have hcomponents : (components (directory ++ name)).getLast? = some (.normal name) := by
    rcases hdirectory with rfl | hslash
    · rw [String.empty_append, h.components_eq.1]
      rfl
    · obtain ⟨front, hfront⟩ := List.getLast?_eq_some_iff.mp hslash
      rw [← String.ofList_toList (s := directory ++ name), String.toList_append, hfront, List.append_assoc,
        List.singleton_append, components_concat_slash, h.components_eq.2, List.getLast?_concat]
  rw [fileName?, hcomponents]

/-- A copy beside its file is no source, whatever the file is called. -/
theorem isSource_minified (path : String) : isSource (minified path) = false := by
  obtain ⟨directory, name, rfl, hdirectory, hname⟩ : ∃ directory name, path = directory ++ name ∧
      (directory = "" ∨ directory.toList.getLast? = some '/') ∧ '/' ∉ name.toList := by
    refine ⟨String.ofList (path.toList.rdropWhile (· != '/')), String.ofList (path.toList.rtakeWhile (· != '/')),
      ?_, ?_, ?_⟩
    · rw [← String.ofList_append, List.rdropWhile_append_rtakeWhile, String.ofList_toList]
    · rw [← String.toList_eq_nil_iff, String.toList_ofList]
      refine or_iff_not_imp_left.mpr fun hne => ?_
      rw [List.getLast?_eq_some_getLast hne]
      simpa using List.rdropWhile_last_not (· != '/') path.toList hne
    · rw [String.toList_ofList]
      exact fun hmem => absurd (List.mem_rtakeWhile_imp hmem) (by decide)
  rw [minified_append hdirectory, isSource_eq (fileName?_append hdirectory (Files.isName_minified hname)),
    isSourceName_minified]

end FileName

namespace Files

/-! ### Runs without an output -/

/-- No two files have copies at one place, and no copy lies at the place of a file. -/
structure Separate (copy : String → String) (files : List String) : Prop where
  copies : (files.map copy).Pairwise fun path other => same path other = false
  files : ∀ file ∈ files, ∀ other ∈ files, same (copy file) other = false

/-- Where copies lie is told by the names that lead to the files. -/
theorem same_minified_pathTo {directory : String} {place other : Place} {name last : String}
    (hplace : ∀ part ∈ place ++ [name], IsName part) (hother : ∀ part ∈ other ++ [last], IsName part) :
    same (FileName.minified (pathTo directory (place ++ [name]))) (FileName.minified (pathTo directory (other ++ [last]))) =
      true ↔ place ++ [name] = other ++ [last] := by
  rw [List.forall_mem_append, List.forall_mem_singleton] at hplace hother
  have hcopy {place : Place} {name : String} (h : (∀ part ∈ place, IsName part) ∧ IsName name) :
      components (FileName.minified (pathTo directory (place ++ [name]))) =
        components directory ++ (place ++ [FileName.minified name]).map .normal := by
    rw [minified_pathTo directory place h.2, components_pathTo]
    exact List.forall_mem_append.mpr ⟨h.1, List.forall_mem_singleton.mpr (isName_minified h.2.1)⟩
  have hnormal : Function.Injective Component.normal := fun _ _ heq => Component.normal.inj heq
  rw [same_iff, hcopy hplace, hcopy hother, List.append_cancel_left_eq, (List.map_injective_iff.mpr hnormal).eq_iff]
  constructor
  · intro heq
    obtain ⟨rfl, hlast⟩ := List.append_inj' heq rfl
    rw [FileName.minified_inj (List.cons.inj hlast).1]
  · intro heq
    obtain ⟨rfl, hlast⟩ := List.append_inj' heq rfl
    rw [(List.cons.inj hlast).1]

/-- Among places below a directory that differ, the copies of the sources are apart, and apart from the sources. -/
theorem separate_sourcesAmong {root : String} {found : List (Place × FileStatus)}
    (hplaces : (found.map Prod.fst).Nodup)
    (hnames : ∀ entry ∈ found, entry.1 ≠ [] ∧ ∀ name ∈ entry.1, IsName name) (recursive : Bool) :
    Separate (fun file => outputPath file root false none) (sourcesAmong root recursive found) where
  copies := by
    rw [List.pairwise_map, sourcesAmong, List.pairwise_filterMap]
    refine (List.pairwise_map.mp hplaces).imp_of_mem ?_
    rintro ⟨place, status⟩ ⟨other, status'⟩ hentry hother hne path hpath path' hpath'
    simp only [Option.ite_none_right_eq_some, Option.some.injEq] at hpath hpath'
    obtain ⟨-, rfl⟩ := hpath
    obtain ⟨-, rfl⟩ := hpath'
    obtain ⟨hplace, hnamed⟩ := hnames _ hentry
    obtain ⟨hplace', hnamed'⟩ := hnames _ hother
    obtain ⟨front, name, rfl⟩ := List.eq_nil_or_concat' place |>.resolve_left hplace
    obtain ⟨front', name', rfl⟩ := List.eq_nil_or_concat' other |>.resolve_left hplace'
    rw [Bool.eq_false_iff]
    exact fun hsame => hne ((same_minified_pathTo hnamed hnamed').mp hsame)
  files file hfile other hother := by
    obtain ⟨⟨place, status⟩, -, hpath⟩ := List.mem_filterMap.mp hother
    simp only [Option.ite_none_right_eq_some, Option.some.injEq, Bool.and_eq_true] at hpath
    obtain ⟨⟨-, hsource⟩, rfl⟩ := hpath
    rw [Bool.eq_false_iff]
    intro hsame
    rw [← FileName.isSource_eq_of_same hsame, outputPath, FileName.isSource_minified] at hsource
    exact Bool.noConfusion hsource

/-- A run that takes in a directory finds files whose copies are apart, and apart from them all. -/
theorem separate_sourcesBelow {tree : FileTree} (hwell : tree.WellFormed) (root : String) (recursive : Bool) (top : Place) :
    Separate (fun file => outputPath file root false none) (sourcesBelow tree root recursive top) := by
  have hbelow {entry : Place × FileNode} {found : Place × FileStatus}
      (h : (top.below? entry.1).map (fun rest => (rest, entry.2.status)) = some found) :
      entry.1 = top ++ found.1 ∧ found.1 ≠ [] := by
    obtain ⟨rest, hrest, rfl⟩ := Option.map_eq_some_iff.mp h
    exact Place.below?_eq_some_iff.mp hrest
  refine separate_sourcesAmong ?_ ?_ recursive
  · rw [List.Nodup, List.pairwise_map, List.pairwise_filterMap]
    refine hwell.inOrder.imp fun {entry other} hbefore found hfound found' hfound' heq => ?_
    refine (Place.before_iff.mp hbefore).ne ?_
    rw [(hbelow hfound).1, (hbelow hfound').1, heq]
  · intro found hfound
    obtain ⟨entry, hentry, hmap⟩ := List.mem_filterMap.mp hfound
    refine ⟨(hbelow hmap).2, fun name hname => (hwell.named entry hentry).2 name ?_⟩
    rw [(hbelow hmap).1]
    exact List.mem_append_right _ hname

/-- The name of a copy tells its file, lies in the directory of the file, has its ending if there is one, and is none of
a source. So if a run takes in a directory and has no output, no two files that it finds have copies at one place, and
no copy lies at the place of a file; this is so for every list of different places below the directory, and for what
there is in a tree. -/
theorem minified_apart :
    Function.Injective FileName.minified ∧
    (∀ name, (FileName.split (FileName.minified name).toList).1 = (FileName.split name.toList).1) ∧
    (∀ name, '.' ∈ (FileName.split name.toList).2.tail →
      FileName.extension (FileName.minified name) = FileName.extension name) ∧
    (∀ path, FileName.isSource (FileName.minified path) = false) ∧
    (∀ root recursive found, (found.map Prod.fst).Nodup →
      (∀ entry ∈ found, entry.1 ≠ [] ∧ ∀ name ∈ entry.1, IsName name) →
      Separate (fun file => outputPath file root false none) (sourcesAmong root recursive found)) ∧
    ∀ (host : MemoryHost) root recursive top shop, host.files.WellFormed →
      host.files.find root = .ok (top, .directory) →
      ∃ files, perform (discover root recursive) shop host = ((.ok files, shop), host) ∧
        Separate (fun file => outputPath file root false none) files := by
  refine ⟨fun _ _ => FileName.minified_inj, fun name => ?_, fun _ => FileName.extension_minified,
    FileName.isSource_minified, fun _ recursive _ hplaces hnames => separate_sourcesAmong hplaces hnames recursive, ?_⟩
  · rw [FileName.split_minified]
  · intro host root recursive top shop hwell hroot
    exact ⟨_, perform_discover hroot recursive shop, separate_sourcesBelow hwell root recursive top⟩

/-- A file in two directories, and a copy. -/
def sideBySide : MemoryHost where
  files := ⟨[(["src"], .directory), (["src", "app.js"], .file (.text "a()")), (["src", "app.min.js"], .file (.text "a()")),
    (["src", "lib"], .directory), (["src", "lib", "app.js"], .file (.text "b()"))]⟩

theorem minified_apart_sideBySide :
    '.' ∈ (FileName.split "src\\.app.JS".toList).2.tail ∧
    FileName.extension (FileName.minified "src\\.app.JS") = FileName.extension "src\\.app.JS" ∧
    Separate (fun file => outputPath file "/srv/" false none)
      (sourcesAmong "/srv/" true [(["app.js"], .file 3), (["lib", "app.js"], .file 3)]) ∧
    sideBySide.files.WellFormed ∧ sideBySide.files.find "src" = .ok (["src"], .directory) ∧
    ∃ files, perform (discover "src" true) {} sideBySide = ((.ok files, {}), sideBySide) ∧
      Separate (fun file => outputPath file "src" false none) files := by
  have hdot : '.' ∈ (FileName.split "src\\.app.JS".toList).2.tail := by decide
  have hwell : sideBySide.files.WellFormed := ⟨by decide +kernel, by decide +kernel, by decide +kernel⟩
  have hroot : sideBySide.files.find "src" = .ok (["src"], .directory) := by decide +kernel
  obtain ⟨-, -, hextension, -, hfound, hrun⟩ := minified_apart
  refine ⟨hdot, hextension _ hdot, hfound _ true _ ?_ ?_, hwell, hroot, hrun _ _ true _ {} hwell hroot⟩
  all_goals decide +kernel

end Files

end Minifier
