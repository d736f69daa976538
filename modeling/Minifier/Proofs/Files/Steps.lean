import Minifier.Proofs.Files.Putting

/-!
Texts written one after the other, each at a path of its own. A tree that grows step by step holds in the end what each
step alone would have written, and everything else as it was, whatever the order of the steps.
-/

namespace Minifier.FileTree

open Minifier.Path

/-! ### What growing leaves -/

namespace Grown

variable {mayMake : Place → Prop} {mayWrite : Place → FileContent → Prop} {tree later : FileTree}

theorem file_kept (h : Grown mayMake mayWrite tree later) {place : Place} {content : FileContent}
    (hplace : tree.node? place = some (.file content)) : ∃ content', later.node? place = some (.file content') := by
  rcases h.node?_cases place with hsame | ⟨-, hnone, -⟩ | ⟨content', -, -, hfile⟩
  · exact ⟨content, hsame.trans hplace⟩
  · simp [hplace] at hnone
  · exact ⟨content', hfile⟩

/-- A path that leads somewhere still leads there. -/
theorem follow_eq_ok (h : Grown mayMake mayWrite tree later) {place found : Place} {all : List String}
    (hfollow : tree.follow place all = .ok found) : later.follow place all = .ok found := by
  induction all generalizing place with
  | nil => exact hfollow
  | cons piece all ih =>
    rw [follow] at hfollow ⊢
    cases hnode : tree.node? place with
    | none => simp [hnode] at hfollow
    | some node =>
      cases node with
      | file content => simp [hnode] at hfollow
      | directory =>
        rw [h.directory_kept hnode]
        simp only [hnode] at hfollow ⊢
        split_ifs at hfollow ⊢ <;> exact ih hfollow

theorem find_eq_ok (h : Grown mayMake mayWrite tree later) {path : String} {place : Place} {node node' : FileNode}
    (hfind : tree.find path = .ok (place, node)) (hnode : later.node? place = some node') :
    later.find path = .ok (place, node') := by
  have hempty : path ≠ "" := by
    rintro rfl
    simp [find] at hfind
  have habsolute : isAbsolute path = false := by
    cases habsolute : isAbsolute path with
    | false => rfl
    | true => simp [find, habsolute] at hfind
  rw [find_eq hempty habsolute] at hfind ⊢
  cases hfollow : tree.follow [] (FileTree.pieces path) with
  | error fault => simp [hfollow, Except.bind] at hfind
  | ok found =>
    rw [h.follow_eq_ok hfollow]
    simp only [hfollow, Except.bind] at hfind ⊢
    split at hfind
    · obtain ⟨rfl, -⟩ := Prod.mk.inj (Except.ok.inj hfind)
      rw [hnode]
    · cases hfind

end Grown

/-- Whether a path can be written at is the same after a step that neither writes on the way to it nor makes a
directory of its place. -/
theorem Grown.writable_iff {mayMake : Place → Prop} {mayWrite : Place → FileContent → Prop} {tree later : FileTree}
    (h : Grown mayMake mayWrite tree later) {path : String}
    (hway : tree.Writable path → ∀ stop ∈ way path, ∀ content, ¬ mayWrite stop content)
    (hplace : tree.Writable path → ¬ mayMake (place path)) : later.Writable path ↔ tree.Writable path := by
  constructor
  · intro hlater
    refine ⟨fun stop hstop content hfile => ?_, fun hdirectory => hlater.free (h.directory_kept hdirectory), hlater.apart⟩
    obtain ⟨content', hfile'⟩ := h.file_kept hfile
    exact hlater.open_ stop hstop content' hfile'
  · intro htree
    refine ⟨fun stop hstop content hfile => ?_, fun hdirectory => ?_, htree.apart⟩
    · rcases h.node?_cases stop with hsame | ⟨-, -, hdirectory⟩ | ⟨content', hmay, -⟩
      · exact htree.open_ stop hstop content (hsame ▸ hfile)
      · simp [hfile] at hdirectory
      · exact hway htree stop hstop content' hmay
    · rcases h.node?_cases (place path) with hsame | ⟨hmay, -⟩ | ⟨content', -, -, hfile⟩
      · exact htree.free (hsame ▸ hdirectory)
      · exact hplace htree hmay
      · simp [hdirectory] at hfile

/-! ### Steps -/

variable {Task : Type}

variable {tree : FileTree} {path : Task → String} {text : Task → Option String}

/-- A task leaves a content at a place: it has a text for it, and its path, which leads there, can be written at. -/
def Leaves (tree : FileTree) (path : Task → String) (text : Task → Option String) (task : Task) (stop : Place)
    (content : FileContent) : Prop :=
  stop = place (path task) ∧ tree.Writable (path task) ∧ ∃ written ∈ text task, content = .text written

/-- A step for a task: if it has a text, directories may be made on the way to its path, and what it leaves stands
there. -/
structure Step (tree : FileTree) (path : Task → String) (text : Task → Option String) (task : Task)
    (before after : FileTree) : Prop where
  grown : before.Grown (fun stop => stop ∈ way (path task) ∧ text task ≠ none) (Leaves tree path text task) after
  made : ∀ stop content, Leaves tree path text task stop content → after.node? stop = some (.file content) ∧
    ∀ other ∈ way (path task), after.node? other = some .directory

/-- Steps for tasks in their order. -/
inductive Steps (tree : FileTree) (path : Task → String) (text : Task → Option String) :
    List Task → FileTree → FileTree → Prop
  | nil (current : FileTree) : Steps tree path text [] current current
  | cons {task : Task} {tasks : List Task} {current middle last : FileTree}
      (step : Step tree path text task current middle) (rest : Steps tree path text tasks middle last) :
      Steps tree path text (task :: tasks) current last

theorem Step.node?_eq_file_iff {task : Task} {before after : FileTree} (h : Step tree path text task before after)
    (stop : Place) (content : FileContent) :
    after.node? stop = some (.file content) ↔ Leaves tree path text task stop content ∨
      before.node? stop = some (.file content) ∧ ∀ other, ¬ Leaves tree path text task stop other := by
  constructor
  · intro hafter
    by_cases hleaves : ∃ other, Leaves tree path text task stop other
    · obtain ⟨other, hother⟩ := hleaves
      obtain rfl : content = other := by simpa [hafter] using (h.made stop other hother).1
      exact .inl hother
    · refine .inr ⟨?_, not_exists.mp hleaves⟩
      rcases h.grown.node?_cases stop with hsame | ⟨-, -, hdirectory⟩ | ⟨other, hother, -⟩
      · exact hsame ▸ hafter
      · simp [hafter] at hdirectory
      · exact absurd ⟨other, hother⟩ hleaves
  · rintro (hleaves | ⟨hbefore, hnot⟩)
    · exact (h.made stop content hleaves).1
    · rcases h.grown.node?_cases stop with hsame | ⟨-, hnone, -⟩ | ⟨other, hother, -⟩
      · exact hsame.trans hbefore
      · simp [hbefore] at hnone
      · exact absurd hother (hnot other)

theorem Step.node?_eq_directory_iff {task : Task} {before after : FileTree} (h : Step tree path text task before after)
    (hwritable : text task ≠ none → tree.Writable (path task)) (stop : Place) :
    after.node? stop = some .directory ↔
      before.node? stop = some .directory ∨ stop ∈ way (path task) ∧ text task ≠ none := by
  constructor
  · intro hafter
    rcases h.grown.node?_cases stop with hsame | ⟨hmay, -⟩ | ⟨content, -, -, hfile⟩
    · exact .inl (hsame ▸ hafter)
    · exact .inr hmay
    · simp [hafter] at hfile
  · rintro (hbefore | ⟨hstop, htext⟩)
    · exact h.grown.directory_kept hbefore
    · obtain ⟨written, hwritten⟩ := Option.ne_none_iff_exists'.mp htext
      exact (h.made _ _ ⟨rfl, hwritable htext, written, hwritten, rfl⟩).2 stop hstop

namespace Steps

variable {tasks others : List Task} {current last last' : FileTree}

/-- Tasks that leave something at one place leave the same there. -/
def Agree (tree : FileTree) (path : Task → String) (text : Task → Option String) (tasks : List Task) : Prop :=
  ∀ task ∈ tasks, ∀ other ∈ tasks, ∀ stop content content', Leaves tree path text task stop content →
    Leaves tree path text other stop content' → content = content'

theorem step {task : Task} (h : Steps tree path text [task] current last) : Step tree path text task current last := by
  cases h with
  | cons step rest =>
    cases rest
    exact step

/-- A task without a text leaves everything as it is. -/
theorem eq_of_none {task : Task} (h : Steps tree path text [task] current last) (htext : text task = none) :
    last = current := by
  refine h.step.grown.eq (fun stop hstop => hstop.2 htext) ?_
  rintro stop content ⟨-, -, written, hwritten, -⟩
  simp [htext] at hwritten

theorem grown (h : Steps tree path text tasks current last) :
    current.Grown (fun stop => ∃ task ∈ tasks, stop ∈ way (path task))
      (fun stop content => ∃ task ∈ tasks, Leaves tree path text task stop content) last := by
  induction h with
  | nil => exact .refl
  | cons step rest ih =>
    refine (step.grown.mono (fun stop hstop => ?_) fun stop content hleaves => ?_).trans (ih.mono ?_ ?_)
    · exact ⟨_, List.mem_cons_self, hstop.1⟩
    · exact ⟨_, List.mem_cons_self, hleaves⟩
    · exact fun stop ⟨task, htask, hstop⟩ => ⟨task, List.mem_cons_of_mem _ htask, hstop⟩
    · exact fun stop content ⟨task, htask, hleaves⟩ => ⟨task, List.mem_cons_of_mem _ htask, hleaves⟩

/-- In the end every file is what some task left, or as it was if none left anything at its place. -/
theorem node?_eq_file_iff (h : Steps tree path text tasks current last) (hagree : Agree tree path text tasks)
    (stop : Place) (content : FileContent) :
    last.node? stop = some (.file content) ↔ (∃ task ∈ tasks, Leaves tree path text task stop content) ∨
      current.node? stop = some (.file content) ∧ ∀ task ∈ tasks, ∀ other, ¬ Leaves tree path text task stop other := by
  induction h with
  | nil current => simp
  | @cons task tasks current middle last step rest ih =>
    have hrest : Agree tree path text tasks := fun task htask other hother =>
      hagree task (List.mem_cons_of_mem _ htask) other (List.mem_cons_of_mem _ hother)
    rw [ih hrest, step.node?_eq_file_iff]
    simp only [List.mem_cons, exists_eq_or_imp, forall_eq_or_imp]
    constructor
    · rintro (hleaves | ⟨hleaves | ⟨hcurrent, hnot⟩, hnone⟩)
      · exact .inl (.inr hleaves)
      · exact .inl (.inl hleaves)
      · exact .inr ⟨hcurrent, hnot, hnone⟩
    · rintro ((hleaves | hleaves) | ⟨hcurrent, hnot, hnone⟩)
      · by_cases hlater : ∃ other ∈ tasks, ∃ content', Leaves tree path text other stop content'
        · obtain ⟨other, hother, content', hcontent⟩ := hlater
          obtain rfl := hagree task List.mem_cons_self other (List.mem_cons_of_mem _ hother) stop content content' hleaves hcontent
          exact .inl ⟨other, hother, hcontent⟩
        · exact .inr ⟨.inl hleaves, fun other hother content' hcontent => hlater ⟨other, hother, content', hcontent⟩⟩
      · exact .inl hleaves
      · exact .inr ⟨.inr ⟨hcurrent, hnot⟩, hnone⟩

/-- In the end directories are where they were, and on the way to what was written. -/
theorem node?_eq_directory_iff (h : Steps tree path text tasks current last)
    (hwritable : ∀ task ∈ tasks, text task ≠ none → tree.Writable (path task)) (stop : Place) :
    last.node? stop = some .directory ↔
      current.node? stop = some .directory ∨ ∃ task ∈ tasks, stop ∈ way (path task) ∧ text task ≠ none := by
  induction h with
  | nil current => simp
  | cons step rest ih =>
    rw [List.forall_mem_cons] at hwritable
    rw [ih hwritable.2, step.node?_eq_directory_iff hwritable.1]
    simp only [List.mem_cons, exists_eq_or_imp, or_assoc]

/-- The files in the end do not depend on the order of the tasks. -/
theorem file_iff_of_perm (h : Steps tree path text tasks current last) (h' : Steps tree path text others current last')
    (hperm : tasks.Perm others) (hagree : Agree tree path text tasks) (stop : Place) (content : FileContent) :
    last.node? stop = some (.file content) ↔ last'.node? stop = some (.file content) := by
  have hagree' : Agree tree path text others := fun task htask other hother =>
    hagree task (hperm.mem_iff.mpr htask) other (hperm.mem_iff.mpr hother)
  rw [h.node?_eq_file_iff hagree, h'.node?_eq_file_iff hagree']
  simp only [hperm.mem_iff]

end Steps

/-- What stands at a place is known from which file it is and whether it is a directory. -/
theorem node?_eq_iff {tree later : FileTree} {stop : Place} :
    later.node? stop = tree.node? stop ↔
      (∀ content, later.node? stop = some (.file content) ↔ tree.node? stop = some (.file content)) ∧
        (later.node? stop = some .directory ↔ tree.node? stop = some .directory) := by
  refine ⟨fun h => by simp [h], fun ⟨hfile, hdirectory⟩ => Option.ext fun node => ?_⟩
  cases node with
  | file content => exact hfile content
  | directory => exact hdirectory

/-- A course of steps changes what each task alone would change, to what it would be then, and nothing else. -/
theorem Steps.node?_of_alone {tasks : List Task} {last : FileTree} {alone : Task → FileTree}
    (h : Steps tree path text tasks tree last) (halone : ∀ task ∈ tasks, Steps tree path text [task] tree (alone task))
    (hagree : Steps.Agree tree path text tasks) (hwritable : ∀ task ∈ tasks, text task ≠ none → tree.Writable (path task))
    (stop : Place) :
    (∀ task ∈ tasks, (alone task).node? stop ≠ tree.node? stop → last.node? stop = (alone task).node? stop) ∧
      ((∀ task ∈ tasks, (alone task).node? stop = tree.node? stop) → last.node? stop = tree.node? stop) := by
  have hfile {task : Task} (htask : task ∈ tasks) {content : FileContent} (hleaves : Leaves tree path text task stop content) :
      (alone task).node? stop = some (.file content) := by
    have hsingle : Steps.Agree tree path text [task] := fun first hfirst second hsecond =>
      hagree first (List.mem_singleton.mp hfirst ▸ htask) second (List.mem_singleton.mp hsecond ▸ htask)
    exact ((halone task htask).node?_eq_file_iff hsingle stop content).mpr (.inl ⟨task, List.mem_cons_self, hleaves⟩)
  have hdirectory {task : Task} (htask : task ∈ tasks) := (halone task htask).node?_eq_directory_iff
    (fun other hother => hwritable other (List.mem_singleton.mp hother ▸ htask)) stop
  constructor
  · intro task htask hne
    by_cases hleaves : ∃ content, Leaves tree path text task stop content
    · obtain ⟨content, hleaves⟩ := hleaves
      rw [hfile htask hleaves]
      exact (h.node?_eq_file_iff hagree stop content).mpr (.inl ⟨task, htask, hleaves⟩)
    · have hmade : stop ∈ way (path task) ∧ text task ≠ none := by
        rcases (halone task htask).grown.node?_cases stop with hsame | ⟨-, -, hmade⟩ | ⟨content, ⟨other, hother, hleft⟩, -⟩
        · exact absurd hsame hne
        · obtain hold | ⟨other, hother, hnew⟩ := (hdirectory htask).mp hmade
          · exact absurd (hmade.trans hold.symm) hne
          · exact List.mem_singleton.mp hother ▸ hnew
        · exact absurd ⟨content, List.mem_singleton.mp hother ▸ hleft⟩ hleaves
      rw [(hdirectory htask).mpr (.inr ⟨task, List.mem_cons_self, hmade⟩)]
      exact (h.node?_eq_directory_iff hwritable stop).mpr (.inr ⟨task, htask, hmade⟩)
  · intro hsame
    rw [node?_eq_iff]
    constructor
    · intro content
      rw [h.node?_eq_file_iff hagree]
      constructor
      · rintro (⟨task, htask, hleaves⟩ | ⟨htree, -⟩)
        · exact hsame task htask ▸ hfile htask hleaves
        · exact htree
      · intro htree
        by_cases hleaves : ∃ task ∈ tasks, ∃ other, Leaves tree path text task stop other
        · obtain ⟨task, htask, other, hleaves⟩ := hleaves
          have hother := hfile htask hleaves
          rw [hsame task htask, htree] at hother
          obtain rfl : content = other := by simpa using hother
          exact .inl ⟨task, htask, hleaves⟩
        · exact .inr ⟨htree, fun task htask other hleft => hleaves ⟨task, htask, other, hleft⟩⟩
    · rw [h.node?_eq_directory_iff hwritable]
      refine ⟨?_, .inl⟩
      rintro (htree | ⟨task, htask, hmade⟩)
      · exact htree
      · exact hsame task htask ▸ (hdirectory htask).mpr (.inr ⟨task, List.mem_cons_self, hmade⟩)

end Minifier.FileTree
