import Minifier.Proofs.Batch.Together
import Minifier.Proofs.Files.Copies

/-!
Whether a run takes in what it has written. A copy is among the files that the next run takes in just if there is an
output directory and the copy lies within reach of the root: the marked names beside the files are no sources, but a
copy in the output directory has the name of its file. Where no copy lies within reach, the next run takes in the same
files, and what is written does not depend on the order of the files.
-/

namespace Minifier.Batch

open MemoryHost Minifier.Path FileTree

variable {root input name : String} {config : RunConfig} {recursive : Bool} {inputs others : List String}
  {top front rest : Place} {tree later : FileTree} {host : MemoryHost} {shop : Workshop}

/-- What a run takes in out of a directory of a tree. -/
def taken (root : String) (recursive : Bool) (tree : FileTree) : Except Error (List String) :=
  (perform (Files.discover root recursive) {} { files := tree }).1.1

/-- The files that a batch leaves. -/
def after (root : String) (config : RunConfig) (shop : Workshop) (host : MemoryHost) (inputs : List String) : FileTree :=
  (perform (minify inputs root config) shop host).2.files

/-- A place within reach of a directory. -/
def Reaches (recursive : Bool) (top place : Place) : Prop :=
  ∃ rest, place = top ++ rest ∧ Files.inReach recursive rest = true

theorem taken_eq (hroot : tree.find root = .ok (top, .directory)) (recursive : Bool) :
    taken root recursive tree = .ok (Files.sourcesBelow tree root recursive top) := by
  have hdiscover := @Files.perform_discover root top { files := tree } hroot recursive {}
  rw [taken, hdiscover]

/-! ### Copies -/

/-- The name of the copy of a file of a name. -/
def copyName (config : RunConfig) (name : String) : String :=
  match config.output with
  | none => FileName.minified name
  | some _ => name

theorem isName_copyName (h : IsName name) : IsName (copyName config name) := by
  rw [copyName]
  cases config.output with
  | none => exact Files.isName_minified h.1
  | some _ => exact h

theorem copyName_inj {other : String} (h : copyName config name = copyName config other) : name = other := by
  rw [copyName, copyName] at h
  cases houtput : config.output with
  | none => exact FileName.minified_inj (by simpa [houtput] using h)
  | some _ => simpa [houtput] using h

/-- Only in an output directory the copy of a source is a source by its name. -/
theorem isSourceName_copyName_iff (h : FileName.isSourceName name = true) :
    FileName.isSourceName (copyName config name) = true ↔ config.output ≠ none := by
  rw [copyName]
  cases config.output with
  | none => simp [FileName.isSourceName_minified]
  | some _ => simp [h]

/-- A directory whose sources a batch works on, and where its output goes. -/
structure Rooted (tree : FileTree) (root : String) (config : RunConfig) (top : Place) : Prop where
  wellFormed : tree.WellFormed
  root_eq : tree.find root = .ok (top, .directory)
  relative : ∀ target ∈ config.output, isAbsolute target = false

/-- A source of that directory. -/
structure Lies (tree : FileTree) (root : String) (config : RunConfig) (top front : Place) (name : String) : Prop
    extends Rooted tree root config top where
  file : ∃ content, tree.node? (top ++ (front ++ [name])) = some (.file content)
  source : FileName.isSourceName name = true

namespace Lies

theorem isName (h : Lies tree root config top front name) : (∀ name ∈ front, IsName name) ∧ IsName name := by
  obtain ⟨content, hfile⟩ := h.file
  simpa only [List.forall_mem_append, List.forall_mem_singleton] using h.wellFormed.isName_below hfile

theorem isName_copy (h : Lies tree root config top front name) : ∀ part ∈ front ++ [copyName config name], IsName part :=
  List.forall_mem_append.mpr ⟨h.isName.1, List.forall_mem_singleton.mpr (isName_copyName h.isName.2)⟩

theorem top_eq (h : Lies tree root config top front name) : Path.place root = top := by
  obtain ⟨-, hrelative, htop, -⟩ := find_eq_directory_iff.mp h.root_eq
  rw [Path.place, leads_components hrelative, htop]

theorem base_relative (h : Lies tree root config top front name) : isAbsolute (config.output.getD root) = false := by
  cases houtput : config.output with
  | none => exact (find_eq_directory_iff.mp h.root_eq).2.1
  | some target => exact h.relative target houtput

theorem leadsToFile_root (hroot : tree.find root = .ok (top, .directory)) : leadsToFile tree root = false := by
  simp [leadsToFile, FileTree.status, hroot, Except.map, FileNode.status, FileStatus.isFile]

/-- A copy lies in a directory as its file lies in the root. -/
theorem copyOf_eq (h : Lies tree root config top front name) :
    copyOf tree root config (Files.pathTo root (front ++ [name])) =
      Files.pathTo (config.output.getD root) (front ++ [copyName config name]) := by
  obtain ⟨hempty, hrelative, -⟩ := find_eq_directory_iff.mp h.root_eq
  rw [copyOf, leadsToFile_root h.root_eq, copyName]
  cases houtput : config.output with
  | none => exact Files.minified_pathTo root front h.isName.2
  | some target =>
    have hnames := List.forall_mem_append.mpr ⟨h.isName.1, List.forall_mem_singleton.mpr h.isName.2⟩
    exact Files.outputPath_pathTo hempty hrelative hnames (by simp) target

theorem exists_endsWith (h : Lies tree root config top front name) :
    ∃ before, IsName (copyName config name) ∧
      EndsWith (copyOf tree root config (Files.pathTo root (front ++ [name]))) before (copyName config name).toList := by
  rw [h.copyOf_eq]
  have hcopy : IsName (copyName config name) := isName_copyName h.isName.2
  obtain ⟨before, hends⟩ := Files.exists_endsWith_pathTo h.base_relative h.isName.1 hcopy
  exact ⟨before, hcopy, hends⟩

theorem place_eq (h : Lies tree root config top front name) :
    Path.place (copyOf tree root config (Files.pathTo root (front ++ [name]))) =
      Path.place (config.output.getD root) ++ (front ++ [copyName config name]) := by
  rw [h.copyOf_eq, Files.place_pathTo _ h.isName_copy]

theorem mem_way (h : Lies tree root config top front name) {stop : Place} :
    stop ∈ way (copyOf tree root config (Files.pathTo root (front ++ [name]))) ↔
      stop ∈ stops [] (components (config.output.getD root)) ∨
        ∃ above, above <+: front ∧ stop = Path.place (config.output.getD root) ++ above := by
  rw [h.copyOf_eq, Files.mem_way_pathTo _ h.isName.1 (isName_copyName h.isName.2)]

/-- Files of one root have copies at one place only if they are the same. -/
theorem eq_of_place_eq {front' : Place} {name' : String} (h : Lies tree root config top front name)
    (h' : Lies tree root config top front' name')
    (heq : Path.place (copyOf tree root config (Files.pathTo root (front ++ [name]))) =
      Path.place (copyOf tree root config (Files.pathTo root (front' ++ [name'])))) :
    front = front' ∧ name = name' := by
  rw [h.place_eq, h'.place_eq, List.append_cancel_left_eq] at heq
  obtain ⟨hfront, hname⟩ := List.append_inj' heq rfl
  exact ⟨hfront, copyName_inj (List.cons.inj hname).1⟩

/-- A path among what is taken in leads to a copy just if a file is there within reach and there is an output
directory. -/
theorem exists_source_iff (h : Lies tree root config top front name) (hlater : later.WellFormed)
    (hroot : later.find root = .ok (top, .directory)) (recursive : Bool) :
    (∃ path ∈ Files.sourcesBelow later root recursive top, ∃ node,
        later.find path = .ok (Path.place (copyOf tree root config (Files.pathTo root (front ++ [name]))), node)) ↔
      (∃ content, later.node? (Path.place (copyOf tree root config (Files.pathTo root (front ++ [name])))) =
        some (.file content)) ∧ config.output ≠ none ∧
      Reaches recursive top (Path.place (copyOf tree root config (Files.pathTo root (front ++ [name])))) := by
  have hplace := h.place_eq
  generalize Path.place (copyOf tree root config (Files.pathTo root (front ++ [name]))) = place at hplace ⊢
  -- A place below the root that is the copy's has the copy's name at its end.
  have hlast {rest : Place} (hrest : rest ≠ []) (heq : place = top ++ rest) : rest.getLast? = some (copyName config name) := by
    have hends := congrArg List.getLast? (hplace.symm.trans heq)
    rw [← List.append_assoc, List.getLast?_concat, List.getLast?_append_of_ne_nil _ hrest] at hends
    exact hends.symm
  constructor
  · rintro ⟨path, hpath, node, hfind⟩
    obtain ⟨rest, hsource, rfl⟩ := (Files.mem_sourcesBelow_iff hlater).mp hpath
    obtain ⟨content, hfile⟩ := hsource.file
    rw [find_pathTo hlater hroot hfile] at hfind
    obtain ⟨heq, -⟩ := Prod.mk.inj (Except.ok.inj hfind)
    obtain ⟨last, hrest, hnamed⟩ := hsource.named
    rw [hlast hsource.rest_ne heq.symm] at hrest
    rw [← Option.some.inj hrest] at hnamed
    exact ⟨⟨content, heq ▸ hfile⟩, (isSourceName_copyName_iff h.source).mp hnamed, rest, heq.symm, hsource.reach⟩
  · rintro ⟨⟨content, hfile⟩, houtput, rest, rfl, hreach⟩
    have hrest := ne_nil_of_file hroot hfile
    have hsource : Files.Source later recursive top rest :=
      ⟨⟨content, hfile⟩, hreach, _, hlast hrest rfl, (isSourceName_copyName_iff h.source).mpr houtput⟩
    exact ⟨_, (Files.mem_sourcesBelow_iff hlater).mpr ⟨rest, hsource, rfl⟩, _, find_pathTo hlater hroot hfile⟩

end Lies

/-! ### Batches -/

/-- No copy lies where a run would take it in. -/
def Clear (tree : FileTree) (root : String) (config : RunConfig) (recursive : Bool) (top : Place) (inputs : List String) : Prop :=
  ∀ input ∈ inputs, config.output = none ∨ ¬ Reaches recursive top (Path.place (copyOf tree root config input))

namespace Rooted

/-- What is taken in are files of the root. -/
theorem exists_lies (h : Rooted tree root config top) (hinput : input ∈ Files.sourcesBelow tree root recursive top) :
    ∃ front name, input = Files.pathTo root (front ++ [name]) ∧ Lies tree root config top front name ∧
      Files.inReach recursive (front ++ [name]) = true := by
  obtain ⟨rest, hsource, rfl⟩ := (Files.mem_sourcesBelow_iff h.wellFormed).mp hinput
  obtain ⟨name, hlast, hnamed⟩ := hsource.named
  obtain ⟨front, rfl⟩ := List.getLast?_eq_some_iff.mp hlast
  exact ⟨front, name, rfl, ⟨h, hsource.file, hnamed⟩, hsource.reach⟩

theorem apart (h : Rooted tree root config top)
    (hclear : Clear tree root config recursive top (Files.sourcesBelow tree root recursive top)) :
    Apart tree root config (Files.sourcesBelow tree root recursive top) where
  rooted := ⟨top, .directory, h.root_eq⟩
  named input hinput := by
    obtain ⟨front, name, rfl, hlies, -⟩ := h.exists_lies hinput
    obtain ⟨before, hends⟩ := hlies.exists_endsWith
    exact ⟨before, _, hends⟩
  kept input hinput := by
    obtain ⟨front, name, rfl, hlies, hreach⟩ := h.exists_lies hinput
    obtain ⟨content, hfile⟩ := hlies.file
    refine ⟨_, content, find_pathTo h.wellFormed h.root_eq hfile, fun other hother _ hplace => ?_⟩
    have hcopy := hclear other hother
    obtain ⟨front', name', rfl, hlies', -⟩ := h.exists_lies hother
    -- If the copy took the place of the file, it would be taken in as the file is.
    obtain ⟨-, houtput, hreaches⟩ := (hlies'.exists_source_iff h.wellFormed h.root_eq recursive).mp
      ⟨_, hinput, _, hplace ▸ find_pathTo h.wellFormed h.root_eq hfile⟩
    exact hcopy.elim houtput fun hnot => hnot hreaches
  clear input hinput other hother hwritable hway := by
    obtain ⟨front, name, rfl, hlies, -⟩ := h.exists_lies hinput
    obtain ⟨front', name', rfl, hlies', -⟩ := h.exists_lies hother
    rcases hlies'.mem_way.mp hway with hbase | ⟨above, habove, hplace⟩
    · exact hwritable.apart (hlies.mem_way.mpr (.inl hbase))
    · rw [hlies.place_eq, List.append_cancel_left_eq] at hplace
      obtain ⟨more, rfl⟩ := hplace ▸ habove
      obtain ⟨content', hfile'⟩ := hlies'.file
      rw [List.append_assoc, ← List.append_assoc top] at hfile'
      have hdirectory := h.wellFormed.directory_of_node? hfile' (by simp)
      cases houtput : config.output with
      | none =>
        refine hwritable.free ?_
        rw [hlies.place_eq, houtput, Option.getD_none, hlies.top_eq, hdirectory]
      | some target =>
        obtain ⟨content, hfile⟩ := hlies.file
        rw [copyName, houtput, hfile] at hdirectory
        exact FileNode.noConfusion (Option.some.inj hdirectory)

theorem agree (h : Rooted tree root config top) (text : String → Option String) :
    Steps.Agree tree (copyOf tree root config) text (Files.sourcesBelow tree root recursive top) := by
  rintro input hinput other hother stop content content' ⟨hplace, -, written, hwritten, rfl⟩ ⟨hplace', -, written', hwritten', rfl⟩
  obtain ⟨front, name, rfl, hlies, -⟩ := h.exists_lies hinput
  obtain ⟨front', name', rfl, hlies', -⟩ := h.exists_lies hother
  obtain ⟨rfl, rfl⟩ := hlies.eq_of_place_eq hlies' (hplace.symm.trans hplace')
  rw [Option.mem_unique hwritten hwritten']

end Rooted

theorem Apart.of_perm (h : Apart tree root config inputs) (hperm : others.Perm inputs) : Apart tree root config others where
  rooted := h.rooted
  named input hinput := h.named input (hperm.mem_iff.mp hinput)
  kept input hinput := by
    obtain ⟨place, content, hfind, hkept⟩ := h.kept input (hperm.mem_iff.mp hinput)
    exact ⟨place, content, hfind, fun other hother => hkept other (hperm.mem_iff.mp hother)⟩
  clear input hinput other hother := h.clear input (hperm.mem_iff.mp hinput) other (hperm.mem_iff.mp hother)

/-- A batch with a file that is refused leaves the files as they are. -/
theorem after_of_refused (h : ∃ input ∈ inputs, ∃ error, Refused host.files input error) :
    after root config shop host inputs = host.files := by
  obtain ⟨before, input, behind, error, rfl, hbefore, hinput⟩ := exists_first_refused h
  obtain ⟨entries, hperform⟩ := exists_perform_minify_of_refused hbefore hinput behind root config shop
  rw [after, hperform]

/-- Work on files of the root only adds directories and files to the tree, whatever the copies meet. -/
theorem exists_perform_mapM_grown (h : Rooted tree root config top)
    (hothers : ∀ input ∈ others, input ∈ Files.sourcesBelow tree root recursive top) (shop : Workshop) (host : MemoryHost)
    (hhost : tree.Grown (fun _ => True) (fun _ _ => True) host.files) :
    ∃ results shop' host', perform (others.mapM fun input => observing (minifyFile root config input)) shop host =
        ((.ok results, shop'), host') ∧ tree.Grown (fun _ => True) (fun _ _ => True) host'.files := by
  induction others generalizing shop host with
  | nil => exact ⟨[], shop, host, by simp [perform_pure], hhost⟩
  | cons input others ih =>
    rw [List.forall_mem_cons] at hothers
    obtain ⟨front, name, rfl, hlies, -⟩ := h.exists_lies hothers.1
    have hroot := hhost.find_eq_ok h.root_eq (hhost.directory_kept (node?_of_find h.root_eq))
    have hcopy : copyOf host.files root config (Files.pathTo root (front ++ [name])) =
        copyOf tree root config (Files.pathTo root (front ++ [name])) := by
      rw [copyOf, copyOf, Lies.leadsToFile_root hroot, Lies.leadsToFile_root h.root_eq]
    obtain ⟨before, hends⟩ := hlies.exists_endsWith
    obtain ⟨profiler, files, entries, result, hperform, hhandled⟩ :=
      perform_minifyFile (hhost.wellFormed h.wellFormed) ⟨before, _, hcopy ▸ hends⟩ shop
    obtain ⟨results, shop', host', hrest, hgrown⟩ := ih hothers.2 { shop with profiler }
      { host with files, logged := host.logged ++ entries }
      (hhost.trans (hhandled.grown.mono (fun _ _ => trivial) fun _ _ _ => trivial))
    refine ⟨result :: results, shop', host', ?_, hgrown⟩
    rw [List.mapM_cons, perform_bind, perform_observing, hperform]
    simp only
    rw [perform_bind, hrest]
    simp only [perform_pure]

/-- A batch on files of the root leaves a well-formed tree, in which the root is the directory that it was. -/
theorem grown_after (h : Rooted host.files root config top)
    (hothers : ∀ input ∈ others, input ∈ Files.sourcesBelow host.files root recursive top) (shop : Workshop) :
    host.files.Grown (fun _ => True) (fun _ _ => True) (after root config shop host others) := by
  by_cases hrefused : ∃ input ∈ others, ∃ error, Refused host.files input error
  · rw [after_of_refused hrefused]
    exact .refl
  · push Not at hrefused
    obtain ⟨starting, completed, hminify⟩ := exists_perform_minify_of_passed hrefused root config shop
    obtain ⟨results, shop', host', hperform, hgrown⟩ :=
      exists_perform_mapM_grown h hothers shop (host.withLog [starting]) .refl
    rw [after, hminify results shop' host' hperform]
    exact hgrown

/-- Where no copy would be taken in, a batch on all files of the root is a course of steps, unless it writes nothing. -/
theorem steps_after (h : Rooted host.files root config top)
    (hclear : Clear host.files root config recursive top (Files.sourcesBelow host.files root recursive top))
    (hperm : others.Perm (Files.sourcesBelow host.files root recursive top))
    (hpass : ∀ input ∈ others, ∀ error, ¬ Refused host.files input error) (shop : Workshop) :
    Steps host.files (copyOf host.files root config)
      (newText shop.backends (host.settings.lookup basicOnlySetting) config host.files) others host.files
      (after root config shop host others) := by
  obtain ⟨results, profiler, files, entries, hperform, hsteps, -⟩ :=
    exists_perform_minify_of_apart h.wellFormed ((h.apart hclear).of_perm hperm) hpass shop
  rw [after, hperform]
  exact hsteps

/-- A copy that lies out of reach, or is no source, adds nothing to what is taken in. -/
theorem Lies.sourceAt_eq_none (h : Lies tree root config top front name)
    (hclear : config.output = none ∨
      ¬ Reaches recursive top (Path.place (copyOf tree root config (Files.pathTo root (front ++ [name])))))
    (node : FileNode) :
    Files.sourceAt root recursive top (Path.place (copyOf tree root config (Files.pathTo root (front ++ [name]))), node) =
      none := by
  rw [Files.sourceAt, Option.bind_eq_none_iff]
  intro rest hrest
  obtain ⟨hplace, -⟩ := Place.below?_eq_some_iff.mp hrest
  refine if_neg fun hcondition => ?_
  simp only [Bool.and_eq_true] at hcondition
  obtain ⟨⟨-, hreach⟩, hsource⟩ := hcondition
  have houtput := hclear.resolve_right (not_not_intro ⟨rest, hplace, hreach⟩)
  rw [h.place_eq, houtput, Option.getD_none, h.top_eq, List.append_cancel_left_eq] at hplace
  rw [← hplace] at hsource
  obtain ⟨last, hlast, hnamed⟩ := (Files.isSource_pathTo_iff root h.isName_copy (by simp)).mp hsource
  rw [List.getLast?_concat] at hlast
  rw [← Option.some.inj hlast, isSourceName_copyName_iff h.source] at hnamed
  exact hnamed houtput

/-- Where no copy would be taken in, work on sources leaves what is taken in as it is. -/
theorem Rooted.sourcesBelow_eq_of_steps (h : Rooted tree root config top) {text : String → Option String}
    (hclear : Clear tree root config recursive top (Files.sourcesBelow tree root recursive top))
    (hothers : ∀ input ∈ others, input ∈ Files.sourcesBelow tree root recursive top)
    (hsteps : Steps tree (copyOf tree root config) text others tree later) :
    Files.sourcesBelow later root recursive top = Files.sourcesBelow tree root recursive top := by
  rw [Files.sourcesBelow_eq, Files.sourcesBelow_eq]
  refine hsteps.grown.filterMap_eq (fun place => ?_) ?_
  · cases hbelow : top.below? place <;> simp [Files.sourceAt, hbelow, FileNode.status, FileStatus.isFile]
  · rintro place content ⟨input, hinput, rfl, -⟩ node
    have hcopy := hclear input (hothers input hinput)
    obtain ⟨front, name, rfl, hlies, -⟩ := h.exists_lies (hothers input hinput)
    exact hlies.sourceAt_eq_none hcopy node

/-- Two sources of one name below a directory. -/
def nested : MemoryHost where
  files := ⟨[(["src"], .directory), (["src", "a.json"], .file (.text "\x7b \"a\" : 1 \x7d")), (["src", "sub"], .directory),
    (["src", "sub", "a.json"], .file (.text "[ 2 ]"))]⟩

end Minifier.Batch
