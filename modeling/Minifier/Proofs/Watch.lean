import Minifier.Proofs.Files.Discovery
import Minifier.Watch

/-!
Which changes are followed. A change of a file is followed just if a run of its directory takes the file in, unless the
path marks it as temporary. This holds where the names of skipped directories stand in a path for such directories only:
a run looks at whole names below its root, while for a change the text of the whole path counts.
-/

namespace Minifier

open Minifier.Path MemoryHost FileTree

/-! ### Parts of paths -/

/-- A part without slashes occurs in a path from a directory just if it occurs in one of the two. -/
theorem Path.infix_join_iff {part : List Char} (hslash : '/' ∉ part) (hpart : part ≠ []) (directory : String) {name : String}
    (hname : IsName name) :
    part <:+: (join directory name).toList ↔ part <:+: directory.toList ∨ part <:+: name.toList := by
  rcases join_cases directory hname with ⟨rfl, hjoin⟩ | ⟨text, htext, hjoin⟩
  · simp [hjoin, hpart]
  · rw [hjoin, Text.infix_append_cons_iff hslash]
    rcases htext with ⟨htext, -⟩ | htext
    · rw [htext]
    · rw [htext, Text.infix_append_cons_iff hslash, List.infix_nil, or_iff_left hpart]

theorem Files.infix_pathTo_iff {part : List Char} (hslash : '/' ∉ part) (hpart : part ≠ []) (directory : String) {rest : Place}
    (hnames : ∀ name ∈ rest, IsName name) :
    part <:+: (pathTo directory rest).toList ↔ part <:+: directory.toList ∨ ∃ name ∈ rest, part <:+: name.toList := by
  induction rest using List.reverseRecOn with
  | nil => simp [pathTo]
  | append_singleton rest name ih =>
    simp only [List.forall_mem_append, List.forall_mem_singleton] at hnames
    rw [pathTo_concat, infix_join_iff hslash hpart _ hnames.2, ih hnames.1, or_assoc]
    simp [List.mem_append, or_and_right, exists_or]

/-- What a path from a directory ends in without slashes is the end of its name. -/
theorem Path.suffix_of_suffix_join {part : List Char} (hslash : '/' ∉ part) {directory name : String} (hname : IsName name)
    (h : part <:+ (join directory name).toList) : part <:+ name.toList := by
  rcases join_cases directory hname with ⟨-, hjoin⟩ | ⟨text, -, hjoin⟩
  · exact hjoin ▸ h
  · have hbehind : '/' :: name.toList <:+ (join directory name).toList := hjoin ▸ List.suffix_append text _
    rcases List.suffix_or_suffix_of_suffix h hbehind with hle | hle
    · refine (List.suffix_cons_iff.mp hle).resolve_left ?_
      rintro rfl
      exact hslash List.mem_cons_self
    · exact absurd (hle.mem List.mem_cons_self) hslash

/-! ### Changes -/

namespace Watch

variable {root path : String} {top rest : Place} {change : Change} {paths : List String}

theorem isIgnored_iff : isIgnored path = true ↔ (∃ part ∈ [".git", "node_modules", ".tmp"], part.toList <:+: path.toList) ∨
    ∃ ending ∈ ["~", ".swp"], ending.toList <:+ path.toList := by
  simp only [isIgnored, Bool.or_eq_true, Text.contains_iff, List.isSuffixOf_iff_suffix, List.mem_cons, List.not_mem_nil,
    or_false, exists_eq_or_imp, exists_eq_left]
  tauto

theorem mem_changedSources_iff (hchange : change.mayBringContent = true) :
    path ∈ changedSources change paths ↔ path ∈ paths ∧ isIgnored path = false ∧ FileName.isSource path = true := by
  rw [changedSources, if_pos hchange, List.mem_filter, Bool.and_eq_true, Bool.not_eq_true']

/-- A path to a file in which the names of skipped directories stand for such directories below the root and for
nothing else, and none of those that hold what was built. -/
structure Ordinary (root : String) (rest : Place) : Prop where
  unbuilt : ∀ name ∈ rest.dropLast, name ≠ "target" ∧ name ≠ "dist"
  above : ∀ part ∈ [".git", "node_modules"], ¬ part.toList <:+: root.toList
  whole : ∀ part ∈ [".git", "node_modules"], ∀ name ∈ rest.dropLast, part.toList <:+: name.toList → name = part
  last : ∀ part ∈ [".git", "node_modules"], ∀ name ∈ rest.getLast?, ¬ part.toList <:+: name.toList

theorem inReach_iff (h : Ordinary root rest) :
    Files.inReach true rest = true ↔ ∀ part ∈ [".git", "node_modules"], part ∉ rest.dropLast := by
  have hreach : Files.inReach true rest = true ↔ ∀ name ∈ rest.dropLast, name ∉ Files.skippedDirectories := by
    simp [Files.inReach]
  rw [hreach]
  constructor
  · have hskipped : ∀ part ∈ [".git", "node_modules"], part ∈ Files.skippedDirectories := by decide
    exact fun hall part hpart hmem => hall part hmem (hskipped part hpart)
  · intro hall name hname hskipped
    obtain ⟨htarget, hdist⟩ := h.unbuilt name hname
    simp only [Files.skippedDirectories, List.mem_cons, List.not_mem_nil, or_false, htarget, hdist] at hskipped
    exact hall name (by simpa using hskipped) hname

/-- In an ordinary path to a source only a directory that a run does not go into is reason to ignore it. -/
theorem isIgnored_pathTo_iff (h : Ordinary root rest) (hnames : ∀ name ∈ rest, IsName name)
    (htemporary : ¬ ".tmp".toList <:+: (Files.pathTo root rest).toList) {name : String} (hlast : rest.getLast? = some name)
    (hsource : FileName.isSourceName name = true) :
    isIgnored (Files.pathTo root rest) = true ↔ ∃ part ∈ [".git", "node_modules"], part ∈ rest.dropLast := by
  obtain ⟨front, rfl⟩ := List.getLast?_eq_some_iff.mp hlast
  have hname : IsName name := hnames name (by simp)
  have hending : ∀ ending ∈ ["~", ".swp"], ¬ ending.toList <:+ (Files.pathTo root (front ++ [name])).toList := by
    have hslash : ∀ ending ∈ ["~", ".swp"], '/' ∉ ending.toList := by decide
    intro ending hmem hsuffix
    rw [Files.pathTo_concat] at hsuffix
    have hsuffix := suffix_of_suffix_join (hslash ending hmem) hname hsuffix
    obtain ⟨htilde, hswap⟩ := FileName.not_isSuffix_of_isSourceName hsource
    rw [List.mem_cons, List.mem_singleton] at hmem
    rcases hmem with rfl | rfl
    · exact htilde hsuffix
    · exact hswap hsuffix
  have hpart : ∀ part ∈ [".git", "node_modules"], part.toList <:+: (Files.pathTo root (front ++ [name])).toList ↔
      part ∈ (front ++ [name]).dropLast := by
    have hplain : ∀ part ∈ [".git", "node_modules"], '/' ∉ part.toList ∧ part.toList ≠ [] := by decide
    intro part hmem
    obtain ⟨hslash, hempty⟩ := hplain part hmem
    rw [Files.infix_pathTo_iff hslash hempty root hnames, or_iff_right (h.above part hmem), List.dropLast_concat]
    constructor
    · rintro ⟨found, hfound, hinfix⟩
      rcases List.mem_append.mp hfound with hfront | hfound
      · exact h.whole part hmem found (by rwa [List.dropLast_concat]) hinfix ▸ hfront
      · rw [List.mem_singleton.mp hfound] at hinfix
        exact absurd hinfix (h.last part hmem name hlast)
    · exact fun hfront => ⟨part, List.mem_append_left _ hfront, List.infix_rfl⟩
  rw [isIgnored_iff, or_iff_left fun ⟨ending, hmem, hsuffix⟩ => hending ending hmem hsuffix]
  constructor
  · rintro ⟨part, hmem, hinfix⟩
    have hmem : part ∈ [".git", "node_modules"] := by
      simp only [List.mem_cons, List.not_mem_nil, or_false] at hmem ⊢
      rcases hmem with hgit | hmodules | rfl
      · exact .inl hgit
      · exact .inr hmodules
      · exact absurd hinfix htemporary
    exact ⟨part, hmem, (hpart part hmem).mp hinfix⟩
  · rintro ⟨part, hmem, hfront⟩
    refine ⟨part, ?_, (hpart part hmem).mpr hfront⟩
    simp only [List.mem_cons, List.not_mem_nil, or_false] at hmem ⊢
    tauto

/-- A change that may bring a content never calls for another run where the path marks the file as temporary.
Elsewhere, on an ordinary path, it does so just if a run of the root takes the file in. -/
theorem mem_changedSources_iff_discover {host : MemoryHost} (hwell : host.files.WellFormed)
    (hroot : host.files.find root = .ok (top, .directory)) {content : FileContent}
    (hfile : host.files.node? (top ++ rest) = some (.file content)) (hchange : change ∈ [.created, .modified, .renamed, .metadata])
    (hpath : Files.pathTo root rest ∈ paths) (shop : Workshop) :
    (".tmp".toList <:+: (Files.pathTo root rest).toList → Files.pathTo root rest ∉ changedSources change paths) ∧
    (¬ ".tmp".toList <:+: (Files.pathTo root rest).toList → Ordinary root rest →
      (Files.pathTo root rest ∈ changedSources change paths ↔
        ∃ found, (perform (Files.discover root true) shop host).1.1 = .ok found ∧ Files.pathTo root rest ∈ found)) := by
  have hbrings : change.mayBringContent = true := by
    simp only [List.mem_cons, List.not_mem_nil, or_false] at hchange
    rcases hchange with rfl | rfl | rfl | rfl <;> rfl
  have hrest := ne_nil_of_file hroot hfile
  have hnames := hwell.isName_below hfile
  rw [mem_changedSources_iff hbrings]
  constructor
  · rintro htemporary ⟨-, hseen, -⟩
    have hignored := isIgnored_iff.mpr (.inl ⟨".tmp", by decide, htemporary⟩)
    simp [hseen] at hignored
  · intro htemporary hordinary
    have hfound : (∃ found, (perform (Files.discover root true) shop host).1.1 = .ok found ∧ Files.pathTo root rest ∈ found) ↔
        Files.inReach true rest = true ∧ ∃ name, rest.getLast? = some name ∧ FileName.isSourceName name = true := by
      rw [Files.perform_discover hroot, ← Files.pathTo_mem_sourcesBelow_iff hwell hroot hfile]
      simp
    rw [hfound, Files.isSource_pathTo_iff root hnames hrest, inReach_iff hordinary, ← and_assoc]
    refine and_congr_left ?_
    rintro ⟨name, hlast, hsource⟩
    rw [and_iff_right hpath, ← Bool.not_eq_true, isIgnored_pathTo_iff hordinary hnames htemporary hlast hsource]
    simp

/-- A source below a directory, another one among the files of version control, and a temporary one. -/
def workTree : FileTree :=
  ⟨[(["src"], .directory), (["src", ".git"], .directory), (["src", ".git", "hook.js"], .file (.text "a")),
    (["src", "a.tmp.js"], .file (.text "a")), (["src", "lib"], .directory), (["src", "lib", "b.js"], .file (.text "b"))]⟩

theorem mem_changedSources_iff_discover_workTree :
    workTree.WellFormed ∧ workTree.find "src" = .ok (["src"], .directory) ∧
    workTree.node? (["src"] ++ [".git", "hook.js"]) = some (.file (.text "a")) ∧
    Change.modified ∈ [Change.created, .modified, .renamed, .metadata] ∧
    ¬ ".tmp".toList <:+: (Files.pathTo "src" [".git", "hook.js"]).toList ∧ Ordinary "src" [".git", "hook.js"] ∧
    (Files.pathTo "src" [".git", "hook.js"] ∈ changedSources .modified [Files.pathTo "src" [".git", "hook.js"]] ↔
      ∃ found, (perform (Files.discover "src" true) {} { files := workTree }).1.1 = .ok found ∧
        Files.pathTo "src" [".git", "hook.js"] ∈ found) := by
  have hwell : workTree.WellFormed := ⟨by decide +kernel, by decide +kernel, by decide +kernel⟩
  have hroot : workTree.find "src" = .ok (["src"], .directory) := by decide +kernel
  have hfile : workTree.node? (["src"] ++ [".git", "hook.js"]) = some (.file (.text "a")) := by decide +kernel
  have htemporary : ¬ ".tmp".toList <:+: (Files.pathTo "src" [".git", "hook.js"]).toList := by decide +kernel
  have hordinary : Ordinary "src" [".git", "hook.js"] :=
    ⟨by decide +kernel, by decide +kernel, by decide +kernel, by decide +kernel⟩
  exact ⟨hwell, hroot, hfile, by decide, htemporary, hordinary,
    (@mem_changedSources_iff_discover _ _ _ _ _ { files := workTree } hwell hroot _ hfile (by decide) List.mem_cons_self {}).2
      htemporary hordinary⟩

/-- A run takes a temporary file in whose changes are not followed. -/
theorem changedSources_temporary :
    (perform (Files.discover "src" true) {} { files := workTree }).1.1 = .ok ["src/a.tmp.js", "src/lib/b.js"] ∧
    changedSources .modified ["src/a.tmp.js", "src/lib/b.js"] = ["src/lib/b.js"] := by
  decide +kernel

end Watch

end Minifier
