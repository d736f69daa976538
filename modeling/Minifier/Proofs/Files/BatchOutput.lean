import Minifier.Files.Discovery
import Minifier.Proofs.Files.Name
import Minifier.Proofs.Files.Path
import Minifier.Target.Shell

/-!
Where copies of the files of a directory go. A run lays them out in the output directory as the files lie in the
root, so it never writes two files to one place. A batch script takes the base names alone: its paths are those
of the run for files that lie in the root itself, and files of one base name go to one place.
-/

open Minifier.Path

namespace Minifier

/-- The base name by which a batch script knows a file. -/
def FileName.base (name : String) : String := String.ofList (split name.toList).2

/-- A path leads into a directory and goes on there with these components. -/
structure Path.Inside (path root : String) (rest : List Component) : Prop where
  root_ne : root ≠ ""
  goes : components path = components root ++ rest
  rest_ne : rest ≠ []

namespace Path.Inside

variable {path root : String} {rest : List Component}

/-- Behind a directory stand names and double dots. -/
theorem of_mem (h : Inside path root rest) {component : Component} (hmem : component ∈ rest) :
    component = .parent ∨ ∃ name, component = .normal name := by
  obtain ⟨c, left, -, -, -, rfl⟩ := exists_stripPrefix?_eq h.root_ne h.goes h.rest_ne
  exact mem_below hmem

/-- Where a text without slashes is all that stands behind a directory, it is a name or two dots. -/
theorem eq_components_iff (h : Inside path root rest) {name : List Char} (hname : '/' ∉ name) :
    rest = components (String.ofList name) ↔ rest = below name := by
  cases hcomponent : componentOf false name with
  | some component => rw [components_eq_below (pieces_of_not_mem hname) hcomponent]
  | none =>
    have hbelow : rest ≠ below name := by
      rw [below_of_not_mem hname, hcomponent]
      exact h.rest_ne
    refine iff_of_false ?_ hbelow
    rintro rfl
    simp only [componentOf, Bool.false_eq_true, if_false] at hcomponent
    split_ifs at hcomponent with hempty hdot
    · subst hempty
      exact h.rest_ne rfl
    · subst hdot
      have hcurrent : Component.current ∈ components (String.ofList ['.']) := List.mem_cons_self
      rcases h.of_mem hcurrent with hparent | ⟨name, hnormal⟩
      · exact Component.noConfusion hparent
      · exact Component.noConfusion hnormal

end Path.Inside

theorem Path.same_iff {path other : String} : same path other = true ↔ components path = components other :=
  beq_iff_eq

/-! ### In a run -/

/-- A run lays a copy out in the output directory as the file lies in the root. -/
theorem Files.components_outputPath {file root : String} {rest : List Component} (h : Inside file root rest)
    (target : String) :
    components (Files.outputPath file root false (some target)) = components target ++ rest := by
  have hsame : same file root = false := by
    rw [Bool.eq_false_iff, ne_eq, same_iff, h.goes]
    intro heq
    exact h.rest_ne (List.append_right_eq_self.mp heq)
  obtain ⟨c, left, hstrip, hc, halone, hbelow⟩ := exists_stripPrefix?_eq h.root_ne h.goes h.rest_ne
  rw [Files.outputPath, hsame]
  simp only [Bool.or_self, Bool.false_eq_true, if_false, hstrip, Option.getD_some]
  rw [components_join target hc halone, hbelow]

/-! ### In a batch script -/

namespace FileName

/-- A base name holds no separator. -/
theorem not_isSeparator_of_mem_base {name : List Char} {c : Char} (h : c ∈ (split name).2) :
    isSeparator c = false := by
  rw [split_eq] at h
  simpa using List.mem_rtakeWhile_imp h

theorem slash_not_mem_base (name : List Char) : '/' ∉ (split name).2 :=
  fun h => absurd (not_isSeparator_of_mem_base h) (by decide)

theorem backslash_not_mem_base (name : List Char) : '\\' ∉ (split name).2 :=
  fun h => absurd (not_isSeparator_of_mem_base h) (by decide)

/-- A batch script puts the base name behind what the output directory is without the separators at its end. -/
theorem components_inBatch (file target : String) :
    components (inBatch file (some target)) =
      components (String.ofList (Text.dropTail isSeparator target.toList ++ ['/'])) ++
        below (split file.toList).2 := by
  rw [inBatch, components_concat_slash]

/-- Slashes at the end of a directory may go. -/
theorem components_dropTail {target : String} (htarget : target ≠ "")
    (hslashes : '\\' ∉ target.toList.rtakeWhile isSeparator) :
    components (String.ofList (Text.dropTail isSeparator target.toList ++ ['/'])) = components target := by
  have htext := List.rdropWhile_append_rtakeWhile (p := isSeparator) (l := target.toList)
  have hall : ∀ c ∈ target.toList.rtakeWhile isSeparator, c = '/' := by
    intro c hc
    have hseparator := List.mem_rtakeWhile_imp hc
    simp only [isSeparator, Bool.or_eq_true, beq_iff_eq] at hseparator
    rcases hseparator with hslash | rfl
    · exact hslash
    · exact absurd hc hslashes
  rw [Text.dropTail_eq_rdropWhile, ← String.ofList_toList (s := target), String.toList_ofList]
  nth_rewrite 2 [← htext]
  cases hend : target.toList.rtakeWhile isSeparator with
  | nil =>
    rw [hend, List.append_nil] at htext
    rw [htext, List.append_nil, components_append_slash (mt String.toList_eq_nil_iff.mp htarget),
      below_of_forall_eq (List.forall_mem_nil _), List.append_nil]
  | cons c more =>
    rw [hend, List.forall_mem_cons] at hall
    rw [hall.1, components_concat_slash _ more, below_of_forall_eq hall.2, List.append_nil]

end FileName

namespace Files

/-- Only slashes may go from the end of a directory, and only if some of it is left. -/
theorem slashes_of_components_eq {file root target : String} {rest : List Component} (h : Inside file root rest)
    (heq : components (FileName.inBatch file (some target)) = components target ++ rest) :
    target ≠ "" ∧ '\\' ∉ target.toList.rtakeWhile FileName.isSeparator := by
  constructor
  · rintro rfl
    have hroot : Component.root ∈ rest := by
      have hempty : components "" = [] := rfl
      rw [FileName.components_inBatch, hempty, List.nil_append] at heq
      rw [← heq]
      exact List.mem_append_left _ List.mem_cons_self
    rcases h.of_mem hroot with hparent | ⟨name, hnormal⟩
    · exact Component.noConfusion hparent
    · exact Component.noConfusion hnormal
  · intro hmem
    have htarget : (target.toList.rdropWhile FileName.isSeparator).count '\\' +
        (target.toList.rtakeWhile FileName.isSeparator).count '\\' = target.toList.count '\\' := by
      rw [← List.count_append, List.rdropWhile_append_rtakeWhile]
    have hpositive := List.count_pos_iff.mpr hmem
    have hcount := congrArg (fun all => (all.map Component.backslashes).sum) heq
    simp only [List.map_append, List.sum_append, backslashes_components, FileName.inBatch] at hcount
    rw [Text.dropTail_eq_rdropWhile, String.toList_ofList, List.count_append, List.count_cons_of_ne (by decide),
      List.count_eq_zero_of_not_mem (FileName.backslash_not_mem_base _)] at hcount
    omega

/-- A batch script and a run put a copy of a file in one place just if the file lies in the root itself and of
the output directory only slashes are cut off. Two files of a batch script go to one place just if they have the
same base name, while a run never puts two files in one place. -/
theorem same_inBatch_iff {file other root : String} {rest otherRest : List Component} (hfile : Inside file root rest)
    (hother : Inside other root otherRest) (target : String) :
    (same (FileName.inBatch file (some target)) (outputPath file root false (some target)) = true ↔
      target ≠ "" ∧ '\\' ∉ target.toList.rtakeWhile FileName.isSeparator ∧
        rest = components (FileName.base file)) ∧
    (same (FileName.inBatch file (some target)) (FileName.inBatch other (some target)) = true ↔
      same ("/" ++ FileName.base file) ("/" ++ FileName.base other) = true) ∧
    (same (outputPath file root false (some target)) (outputPath other root false (some target)) = true ↔
      same file other = true) := by
  simp only [same_iff]
  refine ⟨?_, ?_, ?_⟩
  · rw [components_outputPath hfile, FileName.base, hfile.eq_components_iff (FileName.slash_not_mem_base _)]
    constructor
    · intro heq
      obtain ⟨htarget, hslashes⟩ := slashes_of_components_eq hfile heq
      rw [FileName.components_inBatch, FileName.components_dropTail htarget hslashes] at heq
      exact ⟨htarget, hslashes, (List.append_cancel_left heq).symm⟩
    · rintro ⟨htarget, hslashes, rfl⟩
      rw [FileName.components_inBatch, FileName.components_dropTail htarget hslashes]
  · rw [FileName.components_inBatch, FileName.components_inBatch, FileName.base, FileName.base,
      slash_append_ofList, slash_append_ofList, components_slash, components_slash, List.append_cancel_left_eq,
      List.cons_inj_right]
  · rw [components_outputPath hfile, components_outputPath hother, List.append_cancel_left_eq, hfile.goes,
      hother.goes, List.append_cancel_left_eq]

/-- Two directories of the root hold a file of one name each. -/
theorem same_inBatch_iff_twoDirectories :
    Inside "src/a/x.css" "src" [.normal "a", .normal "x.css"] ∧
    Inside "src/b/x.css" "src" [.normal "b", .normal "x.css"] ∧
    (same (FileName.inBatch "src/a/x.css" (some "dist")) (outputPath "src/a/x.css" "src" false (some "dist")) = true ↔
      "dist" ≠ "" ∧ '\\' ∉ "dist".toList.rtakeWhile FileName.isSeparator ∧
        [Component.normal "a", .normal "x.css"] = components (FileName.base "src/a/x.css")) ∧
    (same (FileName.inBatch "src/a/x.css" (some "dist")) (FileName.inBatch "src/b/x.css" (some "dist")) = true ↔
      same ("/" ++ FileName.base "src/a/x.css") ("/" ++ FileName.base "src/b/x.css") = true) ∧
    (same (outputPath "src/a/x.css" "src" false (some "dist")) (outputPath "src/b/x.css" "src" false (some "dist")) =
        true ↔ same "src/a/x.css" "src/b/x.css" = true) := by
  have hfirst : Inside "src/a/x.css" "src" [.normal "a", .normal "x.css"] := ⟨by decide, by decide +kernel, by decide⟩
  have hsecond : Inside "src/b/x.css" "src" [.normal "b", .normal "x.css"] := ⟨by decide, by decide +kernel, by decide⟩
  exact ⟨hfirst, hsecond, same_inBatch_iff hfirst hsecond "dist"⟩

/-- The second command of the script overwrites what the first one wrote; the run keeps the two apart. -/
theorem batchScript_twoDirectories :
    Target.batchScript ["src/a/x.css", "src/b/x.css"]
        { input := "src", output := some "dist", recursive := true } =
      "#!/bin/sh\n# Generated by codeshrink\nset -e\n\n" ++
      "codeshrink --input \"src/a/x.css\" --output \"dist/x.css\"\n" ++
      "codeshrink --input \"src/b/x.css\" --output \"dist/x.css\"\n" ∧
    outputPath "src/a/x.css" "src" false (some "dist") = "dist/a/x.css" ∧
    outputPath "src/b/x.css" "src" false (some "dist") = "dist/b/x.css" ∧
    same (FileName.inBatch "src/a/x.css" (some "dist")) (outputPath "src/a/x.css" "src" false (some "dist")) = false ∧
    FileName.inBatch "src/a/x.css" (some "dist") = FileName.inBatch "src/b/x.css" (some "dist") := by
  decide +kernel

end Files

end Minifier
