import Minifier.Proofs.Batch.Working
import Minifier.Proofs.Files.Steps

/-!
Work on all files of a batch. If no copy takes the place of a file of the batch or stands where the way to a copy leads,
what can be read and written stays the same for each file until its turn. So the work is a course of steps, and each
turn ends as it would have at the beginning.
-/

namespace Minifier.Batch

open MemoryHost Minifier.Path FileTree

variable {root input : String} {config : RunConfig} {backends : Backends} {setting : Option String}
  {tree current later : FileTree} {inputs : List String}

/-! ### Files that do not meet -/

/-- A batch keeps out of its own way: no copy that can be written takes the place of a file that is read, nor does it
stand where the way to a copy leads. -/
structure Apart (tree : FileTree) (root : String) (config : RunConfig) (inputs : List String) : Prop where
  rooted : ∃ place node, tree.find root = .ok (place, node)
  named : ∀ input ∈ inputs, ∃ front name, IsName name ∧ EndsWith (copyOf tree root config input) front name.toList
  kept : ∀ input ∈ inputs, ∃ place content, tree.find input = .ok (place, .file content) ∧
    ∀ other ∈ inputs, tree.Writable (copyOf tree root config other) → Path.place (copyOf tree root config other) ≠ place
  clear : ∀ input ∈ inputs, ∀ other ∈ inputs, tree.Writable (copyOf tree root config input) →
    Path.place (copyOf tree root config input) ∉ way (copyOf tree root config other)

/-- What a batch may do to a tree. -/
def Advanced (backends : Backends) (setting : Option String) (root : String) (config : RunConfig) (inputs : List String)
    (tree current : FileTree) : Prop :=
  tree.Grown (fun stop => ∃ input ∈ inputs, stop ∈ way (copyOf tree root config input))
    (fun stop content => ∃ input ∈ inputs,
      Leaves tree (copyOf tree root config) (newText backends setting config tree) input stop content) current

theorem textOf_eq_of_find {place : Place} {node : FileNode} (h : tree.find input = .ok (place, node))
    (hcurrent : current.find input = .ok (place, node)) : textOf current input = textOf tree input := by
  rw [textOf, textOf, FileTree.read, FileTree.read, h, hcurrent]

namespace Apart

theorem leadsToFile_eq (h : Apart tree root config inputs)
    (hcurrent : Advanced backends setting root config inputs tree current) :
    leadsToFile current root = leadsToFile tree root := by
  obtain ⟨place, node, hfind⟩ := h.rooted
  have hnode := node?_of_find hfind
  cases node with
  | directory => simp [leadsToFile, FileTree.status, hfind, hcurrent.find_eq_ok hfind (hcurrent.directory_kept hnode)]
  | file content =>
    obtain ⟨content', hfile⟩ := hcurrent.file_kept hnode
    simp [leadsToFile, FileTree.status, hfind, hcurrent.find_eq_ok hfind hfile, Except.map, FileNode.status,
      FileStatus.isFile]

theorem copyOf_eq (h : Apart tree root config inputs)
    (hcurrent : Advanced backends setting root config inputs tree current) (input : String) :
    copyOf current root config input = copyOf tree root config input := by
  rw [copyOf, copyOf, h.leadsToFile_eq hcurrent]

/-- The files that are read stay as they are. -/
theorem textOf_eq (h : Apart tree root config inputs)
    (hcurrent : Advanced backends setting root config inputs tree current) (hinput : input ∈ inputs) :
    textOf current input = textOf tree input := by
  obtain ⟨place, content, hfind, hkept⟩ := h.kept input hinput
  have hnode := node?_of_find hfind
  refine textOf_eq_of_find hfind (hcurrent.find_eq_ok hfind ?_)
  rw [hcurrent.node?_eq (by simp [hnode]), hnode]
  rintro content ⟨other, hother, hplace, hwritable, -⟩
  exact hkept other hother hwritable hplace.symm

theorem writable_iff (h : Apart tree root config inputs)
    (hcurrent : Advanced backends setting root config inputs tree current) (hinput : input ∈ inputs) :
    current.Writable (copyOf tree root config input) ↔ tree.Writable (copyOf tree root config input) := by
  refine hcurrent.writable_iff (fun _ stop hstop content hleaves => ?_) fun hwritable hmade => ?_
  · obtain ⟨other, hother, rfl, hwritable, -⟩ := hleaves
    exact h.clear other hother input hinput hwritable hstop
  · obtain ⟨other, hother, hstop⟩ := hmade
    exact h.clear input hinput other hother hwritable hstop

end Apart

/-- How the turn of a file ends, if its copy can be written wherever there is one. -/
def Answered (backends : Backends) (setting : Option String) (root : String) (config : RunConfig) (tree : FileTree)
    (input : String) (result : Except Error FileReport) : Prop :=
  (∀ fault, textOf tree input = .error fault → result = .error (.io fault.message)) ∧
    ∀ content, textOf tree input = .ok content → tree.Writable (copyOf tree root config input) →
      result = .ok (reportOf backends setting config input content)

/-- The turn of a file is a step from any tree that a batch may come to, and ends as it would have at the beginning. -/
theorem Handled.step (hapart : Apart tree root config inputs)
    (hcurrent : Advanced backends setting root config inputs tree current) (hinput : input ∈ inputs)
    {result : Except Error FileReport} (h : Handled backends setting root config current input later result) :
    Step tree (copyOf tree root config) (newText backends setting config tree) input current later ∧
      Answered backends setting root config tree input result := by
  have htext := hapart.textOf_eq hcurrent hinput
  have hstill (hnone : newText backends setting config tree input = none) :
      Step tree (copyOf tree root config) (newText backends setting config tree) input current current := by
    refine ⟨.refl, ?_⟩
    rintro stop content ⟨-, -, written, hwritten, -⟩
    simp [hnone] at hwritten
  cases h with
  | unread h =>
    rw [htext] at h
    exact ⟨hstill (by simp [newText, h]), by simp [Answered, h]⟩
  | refused h herrors =>
    rw [htext] at h
    exact ⟨hstill (by simp [newText, h, herrors]), by simp [Answered, h]⟩
  | @minified content _ stored h herrors hstored =>
    rw [htext] at h
    rw [hapart.copyOf_eq hcurrent] at hstored
    have hnew : newText backends setting config tree input =
        some (outcomeOf backends setting config input content).minified := by simp [newText, h, herrors]
    rcases hstored with ⟨hwritable, rfl, hgrown, hway, hplace⟩ | ⟨hbarred, ⟨problem, rfl⟩, hgrown⟩
    · rw [hapart.writable_iff hcurrent hinput] at hwritable
      refine ⟨⟨hgrown.mono (fun stop hstop => ⟨hstop, by simp [hnew]⟩) ?_, ?_⟩, by simp [Answered, h, Except.map]⟩
      · rintro stop written ⟨rfl, rfl⟩
        exact ⟨rfl, hwritable, _, hnew, rfl⟩
      · rintro stop written ⟨rfl, -, text, htext, rfl⟩
        obtain rfl := Option.some.inj (hnew.symm.trans htext)
        exact ⟨hplace, hway⟩
    · rw [hapart.writable_iff hcurrent hinput] at hbarred
      refine ⟨⟨hgrown.mono (fun stop hstop => ⟨hstop, by simp [hnew]⟩) fun _ _ => False.elim, ?_⟩, ?_⟩
      · rintro stop written ⟨-, hwritable, -⟩
        exact absurd hwritable hbarred
      · exact ⟨fun fault hfault => by simp [h] at hfault, fun _ _ hwritable => absurd hwritable hbarred⟩

/-- Work on files one after the other is a course of steps, and each file's turn ends as it would have alone. -/
theorem exists_perform_mapM (htree : tree.WellFormed) (hapart : Apart tree root config inputs) {tasks : List String}
    (htasks : ∀ task ∈ tasks, task ∈ inputs) (shop : Workshop) (host : MemoryHost)
    (hhost : Advanced shop.backends (host.settings.lookup basicOnlySetting) root config inputs tree host.files) :
    ∃ results profiler files entries,
      perform (tasks.mapM fun input => observing (minifyFile root config input)) shop host =
        ((.ok results, { shop with profiler }), { host with files, logged := host.logged ++ entries }) ∧
      Steps tree (copyOf tree root config)
        (newText shop.backends (host.settings.lookup basicOnlySetting) config tree) tasks host.files files ∧
      List.Forall₂ (Answered shop.backends (host.settings.lookup basicOnlySetting) root config tree) tasks results := by
  induction tasks generalizing shop host with
  | nil => exact ⟨[], shop.profiler, host.files, [], by simp [perform_pure], .nil _, .nil⟩
  | cons task tasks ih =>
    rw [List.forall_mem_cons] at htasks
    have hcopy := hapart.named task htasks.1
    rw [← hapart.copyOf_eq hhost] at hcopy
    obtain ⟨profiler, files, entries, result, hperform, hhandled⟩ :=
      perform_minifyFile (hhost.wellFormed htree) hcopy shop
    obtain ⟨hstep, hanswered⟩ := hhandled.step hapart hhost htasks.1
    obtain ⟨results, profiler', files', entries', hrest, hsteps, hanswers⟩ :=
      ih htasks.2 { shop with profiler } { host with files, logged := host.logged ++ entries } <| by
        refine hhost.trans (hstep.grown.mono (fun stop hstop => ⟨task, htasks.1, hstop.1⟩) fun stop content hleaves => ?_)
        exact ⟨task, htasks.1, hleaves⟩
    refine ⟨result :: results, profiler', files', entries ++ entries', ?_, .cons hstep hsteps, .cons hanswered hanswers⟩
    rw [List.mapM_cons, perform_bind, perform_observing, hperform]
    simp only
    rw [perform_bind, hrest]
    simp only [perform_pure, List.append_assoc]

/-! ### The report -/

/-- How a batch ends whose files ended so. -/
def collected (results : List (Except Error FileReport)) : Except Error RunReport :=
  (results.mapM id).map RunReport.mk

theorem perform_mapM_ofExcept (results : List (Except Error FileReport)) (shop : Workshop) (host : MemoryHost) :
    perform (results.mapM MonadExcept.ofExcept) shop host = ((results.mapM id, shop), host) := by
  induction results with
  | nil =>
    rw [List.mapM_nil, List.mapM_nil, perform_pure]
    rfl
  | cons result results ih =>
    rw [List.mapM_cons, List.mapM_cons, perform_bind, perform_ofExcept]
    cases result with
    | error error => rfl
    | ok report =>
      simp only
      rw [perform_bind, ih]
      cases results.mapM id <;> rfl

theorem collected_map_ok (reports : List FileReport) : collected (reports.map .ok) = .ok ⟨reports⟩ := by
  have h : (reports.map Except.ok).mapM id = (.ok reports : Except Error (List FileReport)) := by
    induction reports with
    | nil => rfl
    | cons report reports ih => rw [List.map_cons, List.mapM_cons, ih]; rfl
  rw [collected, h]
  rfl

/-- Where every result is a report, the reports stand in the order of the files. -/
theorem exists_map_ok {answers : String → Except Error FileReport → Prop} {results : List (Except Error FileReport)}
    (h : List.Forall₂ answers inputs results) (tells : String → FileReport → Prop)
    (hreport : ∀ input ∈ inputs, ∀ result, answers input result → ∃ report, result = .ok report ∧ tells input report) :
    ∃ reports, results = reports.map .ok ∧ List.Forall₂ tells inputs reports := by
  induction h with
  | nil => exact ⟨[], rfl, .nil⟩
  | cons hresult _ ih =>
    rw [List.forall_mem_cons] at hreport
    obtain ⟨report, rfl, hreport'⟩ := hreport.1 _ hresult
    obtain ⟨reports, rfl, hreports⟩ := ih hreport.2
    exact ⟨report :: reports, rfl, .cons hreport' hreports⟩

/-- One error decides, if all errors are the same. -/
theorem collected_of_error {answers : String → Except Error FileReport → Prop} {results : List (Except Error FileReport)}
    {error : Error} (h : List.Forall₂ answers inputs results)
    (hsome : ∃ input ∈ inputs, ∀ result, answers input result → result = .error error)
    (hsame : ∀ input ∈ inputs, ∀ other, answers input (.error other) → other = error) :
    collected results = .error error := by
  have hcollected : results.mapM id = .error error := by
    induction h with
    | nil => simp at hsome
    | @cons input result inputs results hresult hrest ih =>
      rw [List.forall_mem_cons] at hsame
      rw [List.mapM_cons]
      cases result with
      | error other =>
        obtain rfl := hsame.1 other hresult
        rfl
      | ok report =>
        have hlater : ∃ input ∈ inputs, ∀ result, answers input result → result = .error error := by
          obtain ⟨found, hfound, herror⟩ := hsome
          rcases List.mem_cons.mp hfound with rfl | hfound
          · exact absurd (herror _ hresult) nofun
          · exact ⟨found, hfound, herror⟩
        rw [ih hlater hsame.2]
        rfl
  rw [collected, hcollected]
  rfl

/-- Once its files have passed the check, a batch ends as the work on them does. -/
theorem exists_perform_minify_of_passed {host : MemoryHost}
    (hpass : ∀ input ∈ inputs, ∀ error, ¬ Refused host.files input error) (root : String) (config : RunConfig) (shop : Workshop) :
    ∃ starting completed, ∀ results shop' host',
      perform (inputs.mapM fun input => observing (minifyFile root config input)) shop (host.withLog [starting]) =
          ((.ok results, shop'), host') →
        perform (minify inputs root config) shop host = ((collected results, shop'), host'.withLog [completed]) := by
  obtain ⟨starting, completed, hminify⟩ := exists_perform_minify inputs root config shop host
  refine ⟨starting, completed, fun results shop' host' hperform => ?_⟩
  have hwork : perform (do checkAll inputs; workOff inputs root config) shop (host.withLog [starting]) =
      ((collected results, shop'), host') := by
    have hcheck := @perform_checkAll _ (host.withLog [starting]) hpass shop
    rw [perform_bind, hcheck]
    simp only
    rw [workOff, perform_bind, hperform]
    simp only
    rw [perform_bind, perform_mapM_ofExcept, collected]
    cases results.mapM id <;> rfl
  rw [hminify, hwork]

/-- A batch whose files all pass the check is a course of steps, and each file's turn ends as it would have alone. -/
theorem exists_perform_minify_of_apart {host : MemoryHost} (hwell : host.files.WellFormed)
    (hapart : Apart host.files root config inputs) (hpass : ∀ input ∈ inputs, ∀ error, ¬ Refused host.files input error)
    (shop : Workshop) :
    ∃ results profiler files entries, perform (minify inputs root config) shop host =
        ((collected results, { shop with profiler }), { host with files, logged := host.logged ++ entries }) ∧
      Steps host.files (copyOf host.files root config)
        (newText shop.backends (host.settings.lookup basicOnlySetting) config host.files) inputs host.files files ∧
      List.Forall₂ (Answered shop.backends (host.settings.lookup basicOnlySetting) root config host.files) inputs results := by
  obtain ⟨starting, completed, hminify⟩ := exists_perform_minify_of_passed hpass root config shop
  obtain ⟨results, profiler, files, entries, hperform, hsteps, hanswers⟩ :=
    exists_perform_mapM hwell hapart (fun _ => id) shop (host.withLog [starting]) .refl
  refine ⟨results, profiler, files, [starting] ++ entries ++ [completed], ?_, hsteps, hanswers⟩
  rw [hminify results _ _ hperform]
  simp only [withLog, List.append_assoc]

end Minifier.Batch
