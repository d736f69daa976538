import Minifier.Batch
import Minifier.Host.Memory
import Minifier.Proofs.Files.Putting

/-!
Work on a host in memory, step by step: what it gives, and what it leaves of the workshop and the host. Only files and
directories that are made or written change the tree, and a text is written just if its path is free for it.
-/

namespace Minifier.MemoryHost

variable {ε α β : Type}

/-- Does some work: its result, and the workshop and the host that it leaves. -/
def perform (work : ExceptT ε (StateT Workshop InMemory) α) (shop : Workshop) (host : MemoryHost) :
    (Except ε α × Workshop) × MemoryHost :=
  (work.run.run shop).run host

theorem perform_pure (value : α) (shop : Workshop) (host : MemoryHost) :
    perform (ε := ε) (pure value) shop host = ((.ok value, shop), host) := rfl

theorem perform_throw (error : ε) (shop : Workshop) (host : MemoryHost) :
    perform (α := α) (throw error) shop host = ((.error error, shop), host) := rfl

theorem perform_bind (work : ExceptT ε (StateT Workshop InMemory) α)
    (next : α → ExceptT ε (StateT Workshop InMemory) β) (shop : Workshop) (host : MemoryHost) :
    perform (work >>= next) shop host =
      match perform work shop host with
      | ((.ok value, shop), host) => perform (next value) shop host
      | ((.error error, shop), host) => ((.error error, shop), host) := by
  simp only [perform, ExceptT.run_bind, StateT.run_bind]
  change (match (work.run.run shop).run host with | (value, host) => _ ) = _
  rcases (work.run.run shop).run host with ⟨⟨_ | _, _⟩, _⟩ <;> rfl

/-- A host that has logged more. -/
def withLog (host : MemoryHost) (entries : List LogEntry) : MemoryHost :=
  { host with logged := host.logged ++ entries }

theorem perform_ofExcept (result : Except ε α) (shop : Workshop) (host : MemoryHost) :
    perform (MonadExcept.ofExcept result) shop host = ((result, shop), host) := by
  cases result <;> rfl

theorem perform_debug (message : String) (shop : Workshop) (host : MemoryHost) :
    perform (ε := ε) (Host.debug message) shop host = ((.ok (), shop), host.withLog [⟨.debug, message⟩]) := rfl

theorem perform_clock (shop : Workshop) (host : MemoryHost) :
    perform (ε := ε) Host.clock shop host = ((.ok 0, shop), host) := rfl

theorem perform_orFail (operation : StateT Workshop InMemory (Except FileFault α)) (shop : Workshop)
    (host : MemoryHost) :
    perform (Files.orFail operation) shop host =
      let ((result, shop), host) := (operation.run shop).run host
      ((result.mapError fun fault => .io fault.message, shop), host) := rfl

theorem perform_status (path : String) (shop : Workshop) (host : MemoryHost) :
    perform (Files.orFail (Host.status path)) shop host =
      (((host.files.status path).mapError fun fault => .io fault.message, shop), host) := rfl

theorem perform_makeDirectory (path : String) (shop : Workshop) (host : MemoryHost) :
    perform (ε := ε) (Host.makeDirectory path) shop host =
      match host.files.makeDirectory path with
      | .ok files => ((.ok (.ok ()), shop), { host with files })
      | .error fault => ((.ok (.error fault), shop), host) := by
  change (let r := (change fun files => files.makeDirectory path).run host; ((Except.ok r.1, shop), r.2)) = _
  cases h : host.files.makeDirectory path <;> simp [change, h] <;> exact ⟨rfl, rfl⟩

theorem perform_isDirectory (path : String) (shop : Workshop) (host : MemoryHost) :
    perform (ε := ε) (Files.isDirectory path) shop host =
      ((.ok (decide (host.files.status path = .ok .directory)), shop), host) := by
  change perform (Host.status path >>= _) shop host = _
  rw [perform_bind]
  have h : perform (ε := ε) (Host.status path) shop host = ((.ok (host.files.status path), shop), host) := rfl
  rw [h]
  rcases host.files.status path with fault | _ | size <;> rfl

/-! ### Directories -/

open Minifier.Path Files

variable {path : String} {front : List (List Char)} {last : List Char} {shop : Workshop} {host : MemoryHost}

/-- What is left to do once the directories above are there. -/
def finishDirectory (path : String) : ExceptT FileFault (StateT Workshop InMemory) Unit := do
  match ← Host.makeDirectory path with
  | .ok () => return ()
  | .error fault => unless ← isDirectory path do throw fault

theorem status_eq_directory_iff {files : FileTree} :
    files.status path = .ok .directory ↔ path ≠ "" ∧ isAbsolute path = false ∧ files.IsOpen [] (below path.toList) := by
  have hfind : files.status path = .ok .directory ↔ ∃ place, files.find path = .ok (place, .directory) := by
    rw [FileTree.status]
    rcases files.find path with fault | ⟨place, _ | content⟩ <;> simp [Except.map, FileNode.status]
  simp only [hfind, FileTree.find_eq_directory_iff]
  grind

/-- What becomes of directories that are made on the way to a place: they are all there, or a file is in the way. -/
def Cleared (tree later : FileTree) (all : List Component) (result : Except FileFault Unit) : Prop :=
  tree.Grown (· ∈ stops [] all) (fun _ _ => False) later ∧
    (result = .ok () ∧ later.IsOpen [] all ∨ (∃ fault, result = .error fault) ∧ tree.Barred [] all)

namespace Cleared

variable {tree later last : FileTree} {all others : List Component} {result : Except FileFault Unit} {fault : FileFault}

theorem trans (h : Cleared tree later all (.ok ())) (hstops : ∀ stop, stop ∈ stops [] all → stop ∈ stops [] others)
    (h' : Cleared later last others result) : Cleared tree last others result := by
  have hgrown : tree.Grown (· ∈ stops [] others) (fun _ _ => False) later := h.1.mono hstops fun _ _ => id
  refine ⟨hgrown.trans h'.1, h'.2.imp_right fun ⟨hfault, stop, hstop, content, hfile⟩ => ⟨hfault, stop, hstop, content, ?_⟩⟩
  rcases hgrown.node?_cases stop with hsame | ⟨-, -, hdirectory⟩ | ⟨-, hnot, -⟩
  · rw [← hsame, hfile]
  · simp [hfile] at hdirectory
  · exact hnot.elim

theorem of_error (h : Cleared tree later all (.error fault)) (hstops : ∀ stop, stop ∈ stops [] all → stop ∈ stops [] others) :
    Cleared tree later others (.error fault) := by
  refine ⟨h.1.mono hstops fun _ _ => id, .inr ⟨⟨fault, rfl⟩, ?_⟩⟩
  obtain ⟨stop, hstop, hfile⟩ := (h.2.resolve_left nofun).2
  exact ⟨stop, hstops stop hstop, hfile⟩

end Cleared

theorem perform_finishDirectory (hwell : host.files.WellFormed) (h : EndsWith path front last)
    (hopen : host.files.IsOpen [] (front.filterMap (componentOf false))) (shop : Workshop) :
    ∃ result files, perform (finishDirectory path) shop host = ((result, shop), { host with files }) ∧
      Cleared host.files files (below path.toList) result := by
  rw [finishDirectory, perform_bind, perform_makeDirectory]
  rcases FileTree.makeDirectory_cases hwell h with ⟨fault, hblocked, hmake⟩ | ⟨hmake, -, hthere⟩ |
    ⟨place, name, hmake, -, hname, hplace, hfree, hleads⟩
  · exact absurd hopen (FileTree.not_isOpen_of_blocked hblocked)
  · rw [hmake]
    simp only
    rw [perform_bind, perform_isDirectory]
    by_cases hstatus : host.files.status path = .ok .directory
    · refine ⟨.ok (), host.files, by simp [hstatus, perform_pure], .refl, .inl ⟨rfl, ?_⟩⟩
      exact (status_eq_directory_iff.mp hstatus).2.2
    · refine ⟨.error .alreadyThere, host.files, by simp [hstatus, perform_throw], .refl, .inr ⟨⟨_, rfl⟩, ?_⟩⟩
      refine ⟨_, leads_mem_stops _ _, ?_⟩
      cases hnode : host.files.node? (leads [] (below path.toList)) with
      | none => exact absurd hnode hthere
      | some node =>
        cases node with
        | file content => exact ⟨content, rfl⟩
        | directory =>
          refine absurd (status_eq_directory_iff.mpr ⟨h.ne_empty, h.relative, ?_⟩) hstatus
          rw [h.below_eq] at hnode ⊢
          exact (FileTree.isOpen_append_toList _).mpr ⟨hopen, hnode⟩
  · rw [hmake]
    have hgrown : host.files.Grown (· ∈ stops [] (below path.toList)) (fun _ _ => False)
        (host.files.put (place ++ [name]) .directory) :=
      .directory .refl hname hplace hfree (hleads ▸ leads_mem_stops _ _)
    refine ⟨.ok (), _, rfl, hgrown, .inl ⟨rfl, ?_⟩⟩
    rw [h.below_eq] at hleads ⊢
    refine (FileTree.isOpen_append_toList _).mpr ⟨fun stop hstop => hgrown.directory_kept (hopen stop hstop), ?_⟩
    rw [hleads, FileTree.node?_put (List.concat_ne_nil _ _), if_pos rfl]

theorem perform_makeDirectoriesWithin {steps : Nat} (hwell : host.files.WellFormed)
    (hpath : path = "" ∨ ∃ front last, EndsWith path front last) (hsteps : (components path).length < steps)
    (shop : Workshop) :
    ∃ result files, perform (makeDirectoriesWithin steps path) shop host = ((result, shop), { host with files }) ∧
      Cleared host.files files (below path.toList) result := by
  induction steps generalizing path host with
  | zero => exact absurd hsteps (Nat.not_lt_zero _)
  | succ steps ih =>
    rcases hpath with rfl | ⟨front, last, h⟩
    · refine ⟨.ok (), host.files, rfl, .refl, .inl ⟨rfl, fun stop hstop => ?_⟩⟩
      rw [List.mem_singleton.mp hstop]
      rfl
    have hempty : path.isEmpty = false := by simpa using h.ne_empty
    -- Where the way to the last piece is open, the directory is made as if nothing had to be made above.
    have hfinish (hopen : host.files.IsOpen [] (front.filterMap (componentOf false))) :
        perform (makeDirectoriesWithin (steps + 1) path) shop host = perform (finishDirectory path) shop host := by
      rw [makeDirectoriesWithin, hempty, if_neg Bool.false_ne_true, finishDirectory, perform_bind, perform_bind,
        perform_makeDirectory]
      rcases FileTree.makeDirectory_cases hwell h with ⟨fault, hblocked, -⟩ | ⟨hmake, -⟩ | ⟨place, name, hmake, -⟩
      · exact absurd hopen (FileTree.not_isOpen_of_blocked hblocked)
      · rw [hmake]
      · rw [hmake]
    rcases FileTree.makeDirectory_cases hwell h with ⟨fault, ⟨stop, hstop, hfault⟩, hmake⟩ | ⟨-, hopen, -⟩ |
      ⟨place, name, -, hopen, -⟩
    · rw [makeDirectoriesWithin, hempty, if_neg Bool.false_ne_true, perform_bind, perform_makeDirectory, hmake]
      rcases hfault with ⟨-, rfl⟩ | ⟨hfile, rfl⟩
      · obtain ⟨above, habove, hbelow, hends, hlength⟩ := h.exists_parent
        obtain ⟨result, files, hperform, hcleared⟩ := ih hwell hends (by omega)
        rw [hbelow] at hcleared
        simp only [habove]
        rw [perform_bind, hperform]
        rcases hcleared.2 with ⟨rfl, hopen⟩ | ⟨⟨fault, rfl⟩, -⟩
        · obtain ⟨result, last, hperform, hfinished⟩ :=
            @perform_finishDirectory _ _ _ { host with files } (hcleared.1.wellFormed hwell) h hopen shop
          exact ⟨result, last, hperform, hcleared.trans (fun _ => h.mem_stops_below) hfinished⟩
        · exact ⟨.error fault, files, rfl, hcleared.of_error (fun _ => h.mem_stops_below)⟩
      · have hbarred : host.files.Barred [] (below path.toList) := ⟨stop, h.mem_stops_below hstop, hfile⟩
        simp only
        rw [perform_bind, perform_isDirectory]
        have hstatus : host.files.status path ≠ .ok .directory := fun hstatus =>
          FileTree.not_isOpen_of_barred hbarred (status_eq_directory_iff.mp hstatus).2.2
        exact ⟨.error .notDirectory, host.files, by simp [hstatus, perform_throw], .refl, .inr ⟨⟨_, rfl⟩, hbarred⟩⟩
    · exact hfinish hopen ▸ perform_finishDirectory hwell h hopen shop
    · exact hfinish hopen ▸ perform_finishDirectory hwell h hopen shop

/-! ### Files -/

theorem perform_makeDirectories (hwell : host.files.WellFormed) (h : EndsWith path front last) (shop : Workshop) :
    ∃ result files, perform (makeDirectories path) shop host =
        ((result.mapError fun fault => .io fault.message, shop), { host with files }) ∧
      Cleared host.files files (below path.toList) result := by
  obtain ⟨result, files, hperform, hcleared⟩ :=
    perform_makeDirectoriesWithin hwell (.inr ⟨front, last, h⟩) (Nat.lt_succ_self _) shop
  refine ⟨result, files, ?_, hcleared⟩
  rw [makeDirectories, perform_orFail]
  rw [perform] at hperform
  rw [hperform]

theorem perform_write (path text : String) (shop : Workshop) (host : MemoryHost) :
    perform (orFail (Host.write path text)) shop host =
      match host.files.write path (.text text) with
      | .ok files => ((.ok (), shop), { host with files })
      | .error fault => ((.error (.io fault.message), shop), host) := by
  rw [perform_orFail]
  change (let r := (change fun files => files.write path (.text text)).run host
    ((r.1.mapError fun fault => Error.io fault.message, shop), r.2)) = _
  cases h : host.files.write path (.text text) <;> simp [change, h] <;> exact ⟨rfl, rfl⟩

/-- Once the directories on the way are there, a text is written just if it could be written before. -/
theorem perform_write_of_cleared {tree : FileTree} {name : String} (hname : IsName name) (h : EndsWith path front name.toList)
    (hcleared : Cleared tree host.files (front.filterMap (componentOf false)) (.ok ())) (text : String) (shop : Workshop) :
    ∃ result files, perform (orFail (Host.write path text)) shop host = ((result, shop), { host with files }) ∧
      tree.Stored files path text result := by
  obtain ⟨hgrown, hresult⟩ := hcleared
  obtain ⟨-, hopen⟩ := hresult.resolve_right nofun
  have hgrown : tree.Grown (· ∈ way path) (fun _ _ => False) host.files :=
    hgrown.mono (fun _ => (h.mem_way hname).mpr) fun _ _ => id
  have hplace : leads [] (below path.toList) = place path := (leads_components h.relative []).symm
  have hway : ∀ stop ∈ way path, host.files.node? stop = some .directory := fun stop hstop =>
    hopen stop ((h.mem_way hname).mp hstop)
  rw [perform_write]
  rcases FileTree.write_cases hname h (.text text) with ⟨fault, hwrite, hfault⟩ | ⟨directory, hwrite, -, hrooted, hfree, hleads⟩
  · refine ⟨_, host.files, by rw [hwrite], .inr ⟨fun hwritable => ?_, ⟨_, rfl⟩, hgrown⟩⟩
    have hdirectory := hfault.resolve_left (not_not_intro hopen)
    rw [hplace] at hdirectory
    rcases hgrown.node?_cases (place path) with hsame | ⟨hmake, -⟩ | ⟨-, hnot, -⟩
    · exact hwritable.free (hsame ▸ hdirectory)
    · exact hwritable.apart hmake
    · exact hnot
  · rw [hplace] at hleads
    rw [← hleads] at hfree
    refine ⟨.ok (), _, by rw [hwrite], .inl ⟨⟨fun stop hstop content hfile => ?_, ?_, ?_⟩, rfl, ?_, fun stop hstop => ?_, ?_⟩⟩
    · rcases hgrown.node?_cases stop with hsame | ⟨-, hnone, -⟩ | ⟨-, hnot, -⟩
      · simp [← hsame, hway stop hstop] at hfile
      · simp [hnone] at hfile
      · exact hnot
    · exact fun hdirectory => hfree (hgrown.directory_kept hdirectory)
    · exact fun hstop => hfree (hway _ hstop)
    · refine (hgrown.mono (fun _ => id) fun _ _ => False.elim).file hname hrooted ?_ ⟨hleads.symm, rfl⟩
      rwa [← hleads]
    · rw [FileTree.node?_put (List.concat_ne_nil _ _), if_neg, hway stop hstop]
      rintro rfl
      exact hfree (hleads ▸ hway _ hstop)
    · rw [hleads, FileTree.node?_put (List.concat_ne_nil _ _), if_pos rfl]

theorem perform_writeText {name : String} (hwell : host.files.WellFormed) (hname : IsName name)
    (h : EndsWith path front name.toList) (text : String) (shop : Workshop) :
    ∃ result files, perform (writeText path text) shop host = ((result, shop), { host with files }) ∧
      host.files.Stored files path text result := by
  obtain ⟨above, habove, hbelow, hends, -⟩ := h.exists_parent
  rw [writeText, habove]
  simp only
  rcases hends with rfl | ⟨outer, last, hends⟩
  · have hcleared : Cleared host.files host.files (front.filterMap (componentOf false)) (.ok ()) := by
      rw [← hbelow]
      exact ⟨.refl, .inl ⟨rfl, fun stop hstop => by rw [List.mem_singleton.mp hstop]; rfl⟩⟩
    exact perform_write_of_cleared hname h hcleared text shop
  · have hempty : above.isEmpty = false := by simpa using hends.ne_empty
    obtain ⟨result, files, hperform, hcleared⟩ := perform_makeDirectories hwell hends shop
    rw [hbelow] at hcleared
    rw [hempty, if_neg Bool.false_ne_true, perform_bind, hperform]
    rcases hcleared.2 with ⟨rfl, -⟩ | ⟨⟨fault, rfl⟩, hbarred⟩
    · exact @perform_write_of_cleared _ _ { host with files } _ _ hname h hcleared text shop
    · refine ⟨_, files, rfl, .inr ⟨fun hwritable => ?_, ⟨_, rfl⟩, hcleared.1.mono (fun _ => (h.mem_way hname).mpr) fun _ _ => id⟩⟩
      obtain ⟨stop, hstop, content, hfile⟩ := hbarred
      exact hwritable.open_ stop ((h.mem_way hname).mpr hstop) content hfile

/-- A path at which a text was written ends in a name and could be written at. -/
theorem writable_of_perform_writeText (hwell : host.files.WellFormed) {text : String}
    (h : (perform (writeText path text) shop host).1.1 = .ok ()) :
    (∃ front name, IsName name ∧ EndsWith path front name.toList) ∧ host.files.Writable path := by
  have hwritten (shop : Workshop) (host : MemoryHost)
      (hwrite : (perform (orFail (Host.write path text)) shop host).1.1 = .ok ()) :
      ∃ front name, IsName name ∧ EndsWith path front name.toList := by
    rw [perform_write] at hwrite
    cases hfiles : host.files.write path (.text text) with
    | error fault => simp [hfiles] at hwrite
    | ok files => exact FileTree.exists_endsWith_of_write hfiles
  have hends : ∃ front name, IsName name ∧ EndsWith path front name.toList := by
    rw [writeText] at h
    split at h
    case h_1 above _ =>
      split_ifs at h
      · exact hwritten _ _ h
      · rw [perform_bind] at h
        split at h
        · exact hwritten _ _ h
        · exact absurd h nofun
    case h_2 => exact hwritten _ _ h
  refine ⟨hends, ?_⟩
  obtain ⟨front, name, hname, hends⟩ := hends
  obtain ⟨result, files, hperform, hstored⟩ := perform_writeText hwell hname hends text shop
  rcases hstored with ⟨hwritable, -⟩ | ⟨-, ⟨problem, rfl⟩, -⟩
  · exact hwritable
  · simp [hperform] at h

end Minifier.MemoryHost
