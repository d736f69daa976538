import Minifier.Proofs.Batch.Together

/-!
What a batch says and writes of each file. If all files are text, each one is reported in its place and written as if
it had been the only one. A file that is not text leaves nothing behind, but its error is all that the batch says, even
though the other files are written.
-/

namespace Minifier.Batch

open MemoryHost Minifier.Path FileTree

/-- A batch can be worked on: its files are there with one byte to ten mebibytes, and where their copies go a text can
be written. -/
structure Workable (host : MemoryHost) (root : String) (config : RunConfig) (inputs : List String) : Prop where
  rooted : ∃ place node, host.files.find root = .ok (place, node)
  sized : ∀ input ∈ inputs, ∃ size, host.files.status input = .ok (.file size) ∧ 0 < size ∧ size ≤ 10 * 1024 * 1024
  writes : ∀ input ∈ inputs, ∃ text shop,
    (perform (Files.writeText (copyOf host.files root config input) text) shop host).1.1 = .ok ()

/-- The copies of a batch do not meet: none takes the place of a file of the batch or of another copy, and none stands
where the way to a copy leads. -/
structure Separate (tree : FileTree) (root : String) (config : RunConfig) (inputs : List String) : Prop where
  kept : ∀ input ∈ inputs, ∀ other ∈ inputs, ∀ node,
    tree.find input ≠ .ok (Path.place (copyOf tree root config other), node)
  distinct : ∀ input ∈ inputs, ∀ other ∈ inputs,
    Path.place (copyOf tree root config input) = Path.place (copyOf tree root config other) → input = other
  clear : ∀ input ∈ inputs, ∀ other ∈ inputs,
    Path.place (copyOf tree root config input) ∉ way (copyOf tree root config other)

variable {root input : String} {config : RunConfig} {inputs : List String} {host : MemoryHost} {tree : FileTree}
  {backends : Backends} {setting : Option String}

theorem exists_find_of_status {size : Nat} (h : tree.status input = .ok (.file size)) :
    ∃ place content, tree.find input = .ok (place, .file content) ∧ content.size = size := by
  rw [FileTree.status] at h
  rcases hfind : tree.find input with fault | ⟨place, _ | content⟩
  · simp [hfind, Except.map] at h
  · simp [hfind, Except.map, FileNode.status] at h
  · exact ⟨place, content, rfl, by simpa [hfind, Except.map, FileNode.status] using h⟩

namespace Workable

theorem not_refused (h : Workable host root config inputs) (hinput : input ∈ inputs) (error : Error) :
    ¬ Refused host.files input error := by
  obtain ⟨size, hstatus, hpositive, hlimit⟩ := h.sized input hinput
  rintro (⟨hmissing⟩ | ⟨hempty, hsize⟩ | ⟨hlarge, hsize⟩)
  · simp [hstatus] at hmissing
  · obtain rfl := Except.ok.inj (hstatus.symm.trans hempty)
    exact hpositive.ne' hsize
  · obtain rfl := Except.ok.inj (hstatus.symm.trans hlarge)
    exact hlimit.not_gt hsize

/-- A file is text, or its bytes are not. -/
theorem textOf_cases (h : Workable host root config inputs) (hinput : input ∈ inputs) :
    (∃ content, textOf host.files input = .ok content) ∨ textOf host.files input = .error .notText := by
  obtain ⟨size, hstatus, -⟩ := h.sized input hinput
  obtain ⟨place, content, hfind, -⟩ := exists_find_of_status hstatus
  cases content with
  | text value => exact .inl ⟨value, by simp [textOf, FileTree.read, hfind, bind, Except.bind, Files.textOf]⟩
  | binary bytes => exact .inr (by simp [textOf, FileTree.read, hfind, bind, Except.bind, Files.textOf])

theorem writable (h : Workable host root config inputs) (hwell : host.files.WellFormed) (hinput : input ∈ inputs) :
    host.files.Writable (copyOf host.files root config input) := by
  obtain ⟨text, shop, hwrite⟩ := h.writes input hinput
  exact (writable_of_perform_writeText hwell hwrite).2

theorem apart (h : Workable host root config inputs) (hwell : host.files.WellFormed)
    (hdisjoint : Separate host.files root config inputs) : Apart host.files root config inputs where
  rooted := h.rooted
  named input hinput := by
    obtain ⟨text, shop, hwrite⟩ := h.writes input hinput
    exact (writable_of_perform_writeText hwell hwrite).1
  kept input hinput := by
    obtain ⟨size, hstatus, -⟩ := h.sized input hinput
    obtain ⟨place, content, hfind, -⟩ := exists_find_of_status hstatus
    refine ⟨place, content, hfind, fun other hother _ hplace => ?_⟩
    exact hdisjoint.kept input hinput other hother (.file content) (hplace ▸ hfind)
  clear input hinput other hother _ := hdisjoint.clear input hinput other hother

theorem mono (h : Workable host root config inputs) {fewer : List String} (hfewer : ∀ input ∈ fewer, input ∈ inputs) :
    Workable host root config fewer :=
  ⟨h.rooted, fun input hinput => h.sized input (hfewer input hinput), fun input hinput => h.writes input (hfewer input hinput)⟩

end Workable

theorem Separate.mono (h : Separate tree root config inputs) {fewer : List String}
    (hfewer : ∀ input ∈ fewer, input ∈ inputs) : Separate tree root config fewer where
  kept input hinput other hother := h.kept input (hfewer input hinput) other (hfewer other hother)
  distinct input hinput other hother := h.distinct input (hfewer input hinput) other (hfewer other hother)
  clear input hinput other hother := h.clear input (hfewer input hinput) other (hfewer other hother)

theorem Separate.agree (h : Separate tree root config inputs) :
    Steps.Agree tree (copyOf tree root config) (newText backends setting config tree) inputs := by
  rintro input hinput other hother stop content content' ⟨hplace, -, text, htext, rfl⟩ ⟨hplace', -, text', htext', rfl⟩
  obtain rfl := h.distinct input hinput other hother (hplace.symm.trans hplace')
  rw [Option.mem_unique htext htext']

/-- What becomes of a batch that can be worked on. -/
theorem exists_perform_minify_of_workable (hwell : host.files.WellFormed) (h : Workable host root config inputs)
    (hdisjoint : Separate host.files root config inputs) (shop : Workshop) :
    ∃ results, (perform (minify inputs root config) shop host).1.1 = collected results ∧
      Steps host.files (copyOf host.files root config)
        (newText shop.backends (host.settings.lookup basicOnlySetting) config host.files) inputs host.files
        (perform (minify inputs root config) shop host).2.files ∧
      List.Forall₂ (Answered shop.backends (host.settings.lookup basicOnlySetting) root config host.files) inputs results := by
  obtain ⟨results, profiler, files, entries, hperform, hsteps, hanswers⟩ :=
    exists_perform_minify_of_apart hwell (h.apart hwell hdisjoint) (fun _ hinput => h.not_refused hinput) shop
  exact ⟨results, by rw [hperform], by rw [hperform]; exact hsteps, hanswers⟩

/-! ### One file alone -/

/-- A batch of one file. -/
def alone (root : String) (config : RunConfig) (shop : Workshop) (host : MemoryHost) (input : String) :
    (Except Error RunReport × Workshop) × MemoryHost :=
  perform (minify [input] root config) shop host

theorem exists_alone (hwell : host.files.WellFormed) (h : Workable host root config inputs)
    (hseparate : Separate host.files root config inputs) (hinput : input ∈ inputs) (shop : Workshop) :
    ∃ result, (alone root config shop host input).1.1 = collected [result] ∧
      Steps host.files (copyOf host.files root config)
        (newText shop.backends (host.settings.lookup basicOnlySetting) config host.files) [input] host.files
        (alone root config shop host input).2.files ∧
      Answered shop.backends (host.settings.lookup basicOnlySetting) root config host.files input result := by
  have hfewer : ∀ other ∈ [input], other ∈ inputs := fun other hother => List.mem_singleton.mp hother ▸ hinput
  obtain ⟨results, hresult, hsteps, hanswers⟩ :=
    exists_perform_minify_of_workable hwell (h.mono hfewer) (hseparate.mono hfewer) shop
  cases hanswers with
  | cons hanswered hrest =>
    cases hrest
    exact ⟨_, hresult, hsteps, hanswered⟩

/-- A file that is not text stops its batch and leaves nothing behind. -/
theorem alone_of_notText (hwell : host.files.WellFormed) (h : Workable host root config inputs)
    (hseparate : Separate host.files root config inputs) (hinput : input ∈ inputs)
    (htext : textOf host.files input = .error .notText) (shop : Workshop) :
    (alone root config shop host input).1.1 = .error (.io FileFault.notText.message) ∧
      (alone root config shop host input).2.files = host.files := by
  obtain ⟨result, hresult, hsteps, hanswered⟩ := exists_alone hwell h hseparate hinput shop
  refine ⟨?_, hsteps.eq_of_none (by simp [newText, htext])⟩
  rw [hresult, hanswered.1 _ htext]
  rfl

/-- A text is reported, and written where its copy goes if it is minified without an error. -/
theorem alone_of_text (hwell : host.files.WellFormed) (h : Workable host root config inputs)
    (hseparate : Separate host.files root config inputs) (hinput : input ∈ inputs) {content : String}
    (htext : textOf host.files input = .ok content) (shop : Workshop) :
    (alone root config shop host input).1.1 =
        .ok ⟨[reportOf shop.backends (host.settings.lookup basicOnlySetting) config input content]⟩ ∧
      ((reportOf shop.backends (host.settings.lookup basicOnlySetting) config input content).error = none →
        (alone root config shop host input).2.files.node? (Path.place (copyOf host.files root config input)) =
          some (.file (.text (outcomeOf shop.backends (host.settings.lookup basicOnlySetting) config input content).minified))) ∧
      ((reportOf shop.backends (host.settings.lookup basicOnlySetting) config input content).error ≠ none →
        (alone root config shop host input).2.files = host.files) := by
  obtain ⟨result, hresult, hsteps, hanswered⟩ := exists_alone hwell h hseparate hinput shop
  have hwritable := h.writable hwell hinput
  refine ⟨?_, fun herror => ?_, fun herror => ?_⟩
  · rw [hresult, hanswered.2 _ htext hwritable]
    rfl
  · have hnew : newText shop.backends (host.settings.lookup basicOnlySetting) config host.files input =
        some (outcomeOf shop.backends (host.settings.lookup basicOnlySetting) config input content).minified := by
      simpa [newText, htext, reportOf] using herror
    exact (hsteps.step.made _ _ ⟨rfl, hwritable, _, hnew, rfl⟩).1
  · refine hsteps.eq_of_none ?_
    simpa [newText, htext, reportOf] using herror

/-! ### All files together -/

/-- In a batch whose files are all text each file is reported in its place as it would be alone. -/
theorem exists_reports (hwell : host.files.WellFormed) (h : Workable host root config inputs)
    (hseparate : Separate host.files root config inputs)
    (htext : ∀ input ∈ inputs, ∃ content, textOf host.files input = .ok content) (shop : Workshop) :
    ∃ reports, (perform (minify inputs root config) shop host).1.1 = .ok ⟨reports⟩ ∧
      List.Forall₂ (fun input report => (alone root config shop host input).1.1 = .ok ⟨[report]⟩) inputs reports := by
  obtain ⟨results, hresults, -, hanswers⟩ := exists_perform_minify_of_workable hwell h hseparate shop
  obtain ⟨reports, rfl, hreports⟩ := exists_map_ok hanswers
      (fun input report => (alone root config shop host input).1.1 = .ok ⟨[report]⟩) <| by
    intro input hinput result hanswered
    obtain ⟨content, hcontent⟩ := htext input hinput
    have hresult := hanswered.2 content hcontent (h.writable hwell hinput)
    exact ⟨_, hresult, (alone_of_text hwell h hseparate hinput hcontent shop).1⟩
  exact ⟨reports, by rw [hresults, collected_map_ok], hreports⟩

/-- A file that is not text decides how its batch ends. -/
theorem minify_of_notText (hwell : host.files.WellFormed) (h : Workable host root config inputs)
    (hseparate : Separate host.files root config inputs) (hinput : input ∈ inputs)
    (htext : textOf host.files input = .error .notText) (shop : Workshop) :
    (perform (minify inputs root config) shop host).1.1 = .error (.io FileFault.notText.message) := by
  obtain ⟨results, hresults, -, hanswers⟩ := exists_perform_minify_of_workable hwell h hseparate shop
  rw [hresults]
  refine collected_of_error hanswers ⟨input, hinput, fun result hanswered => hanswered.1 _ htext⟩ ?_
  intro file hfile other hanswered
  rcases h.textOf_cases hfile with ⟨content, hcontent⟩ | hfault
  · exact absurd (hanswered.2 content hcontent (h.writable hwell hfile)) nofun
  · exact Except.error.inj (hanswered.1 _ hfault)

/-- What a batch of one file does: of a file that is not text it says so and does nothing else; a text is reported, and
its copy is written just if it was minified without an error. -/
inductive Fate (root : String) (config : RunConfig) (shop : Workshop) (host : MemoryHost) (input : String) : Prop
  | notText (text : textOf host.files input = .error .notText)
      (result : (alone root config shop host input).1.1 = .error (.io FileFault.notText.message))
      (files : (alone root config shop host input).2.files = host.files)
  | refused {content : String} {report : FileReport} {error : String} (text : textOf host.files input = .ok content)
      (result : (alone root config shop host input).1.1 = .ok ⟨[report]⟩) (name : report.name = input)
      (failed : (outcomeOf shop.backends (host.settings.lookup basicOnlySetting) config input content).errors.head? =
        some error)
      (told : report.error = some error) (files : (alone root config shop host input).2.files = host.files)
  | minified {content : String} {report : FileReport} (text : textOf host.files input = .ok content)
      (result : (alone root config shop host input).1.1 = .ok ⟨[report]⟩) (name : report.name = input)
      (succeeded : (outcomeOf shop.backends (host.settings.lookup basicOnlySetting) config input content).errors = [])
      (told : report.error = none)
      (copy : (alone root config shop host input).2.files.node? (Path.place (copyOf host.files root config input)) =
        some (.file (.text (outcomeOf shop.backends (host.settings.lookup basicOnlySetting) config input content).minified)))

theorem fate (hwell : host.files.WellFormed) (h : Workable host root config inputs)
    (hseparate : Separate host.files root config inputs) (hinput : input ∈ inputs) (shop : Workshop) :
    Fate root config shop host input := by
  rcases h.textOf_cases hinput with ⟨content, htext⟩ | htext
  · obtain ⟨hresult, hcopy, hfiles⟩ := alone_of_text hwell h hseparate hinput htext shop
    cases herrors : (outcomeOf shop.backends (host.settings.lookup basicOnlySetting) config input content).errors with
    | nil =>
      have htold : (reportOf shop.backends (host.settings.lookup basicOnlySetting) config input content).error = none := by
        simp [reportOf, herrors]
      exact .minified htext hresult rfl herrors htold (hcopy htold)
    | cons error errors =>
      have htold : (reportOf shop.backends (host.settings.lookup basicOnlySetting) config input content).error =
          some error := by simp [reportOf, herrors]
      exact .refused htext hresult rfl (by rw [herrors]; rfl) htold (hfiles (by simp [htold]))
  · obtain ⟨hresult, hfiles⟩ := alone_of_notText hwell h hseparate hinput htext shop
    exact .notText htext hresult hfiles

/-- Two files, of which the second one is not text. -/
def mixed : MemoryHost where
  files := ⟨[(["p"], .directory), (["p", "a.json"], .file (.text "\x7b \"a\" : 1 \x7d")),
    (["p", "b.json"], .file (.binary ⟨#[255]⟩))]⟩

theorem wellFormed_mixed : mixed.files.WellFormed := ⟨by decide +kernel, by decide +kernel, by decide +kernel⟩

theorem workable_mixed : Workable mixed "p" {} ["p/a.json", "p/b.json"] where
  rooted := ⟨["p"], .directory, by decide +kernel⟩
  sized := by
    simp only [List.forall_mem_cons, List.not_mem_nil, false_imp_iff, implies_true, and_true]
    exact ⟨⟨11, by decide +kernel⟩, ⟨1, by decide +kernel⟩⟩
  writes := by
    simp only [List.forall_mem_cons, List.not_mem_nil, false_imp_iff, implies_true, and_true]
    exact ⟨⟨"", {}, by decide +kernel⟩, ⟨"", {}, by decide +kernel⟩⟩

theorem separate_mixed : Separate mixed.files "p" {} ["p/a.json", "p/b.json"] where
  kept := by
    have hkept : ∀ input ∈ ["p/a.json", "p/b.json"], ∀ other ∈ ["p/a.json", "p/b.json"],
        (mixed.files.find input).map Prod.fst ≠ .ok (Path.place (copyOf mixed.files "p" {} other)) := by decide +kernel
    intro input hinput other hother node hfind
    exact hkept input hinput other hother (by rw [hfind]; rfl)
  distinct := by decide +kernel
  clear := by decide +kernel

end Minifier.Batch
