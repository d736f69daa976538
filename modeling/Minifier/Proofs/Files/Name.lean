import Minifier.Files.Name
import Minifier.Proofs.Text.Basic

/-!
File names taken apart. A name is a directory and a base name, a base name with an ending is a stem, a dot and
that ending. The name of a copy is made of the characters of the name and of those that mark it.
-/

namespace Minifier

/-- An ending is what stands behind the last dot, unless that comes first. -/
theorem Path.splitExtension?_eq_some_iff {name stem ending : List Char} :
    splitExtension? name = some (stem, ending) ↔ name = stem ++ '.' :: ending ∧ stem ≠ [] ∧ '.' ∉ ending := by
  have hname := List.takeWhile_append_dropWhile (p := (· != '.')) (l := name.reverse)
  have hdrop : (name.reverse.takeWhile (· != '.') ++ name.reverse.dropWhile (· != '.')).drop
      (name.reverse.takeWhile (· != '.')).length = name.reverse.dropWhile (· != '.') := List.drop_left
  rw [hname] at hdrop
  simp only [splitExtension?, hdrop]
  constructor
  · intro h
    split at h
    case h_1 front hfront =>
      split_ifs at h with hempty
      obtain ⟨rfl, rfl⟩ := Prod.mk.inj (Option.some.inj h)
      rw [hfront] at hname
      refine ⟨by simpa using (congrArg List.reverse hname).symm, by simpa using hempty, fun hdot => ?_⟩
      simpa using List.mem_takeWhile_imp (List.mem_reverse.mp hdot)
    case h_2 => exact absurd h nofun
  · rintro ⟨rfl, hstem, hending⟩
    have hall : ∀ c ∈ ending.reverse, (c != '.') = true := by
      intro c hc
      rw [bne_iff_ne]
      rintro rfl
      exact hending (List.mem_reverse.mp hc)
    rw [List.reverse_append, List.reverse_cons, List.append_assoc, List.dropWhile_append_of_pos hall,
      List.takeWhile_append_of_pos hall]
    simp [hstem]

/-- An ending is what stands behind the last dot. -/
theorem Path.eq_of_splitExtension? {name stem ending : List Char}
    (h : splitExtension? name = some (stem, ending)) : name = stem ++ '.' :: ending :=
  (splitExtension?_eq_some_iff.mp h).1

namespace FileName

/-- A directory ends at the last separator. -/
theorem split_eq (name : List Char) :
    split name = (name.rdropWhile fun c => !isSeparator c, name.rtakeWhile fun c => !isSeparator c) := by
  have hname := List.rdropWhile_append_rtakeWhile (p := fun c => !isSeparator c) (l := name)
  have hlength := congrArg List.length hname
  rw [List.length_append] at hlength
  refine Prod.ext ?_ rfl
  change name.take (name.length - (name.rtakeWhile fun c => !isSeparator c).length) = _
  rw [← Nat.eq_sub_of_add_eq hlength]
  nth_rewrite 2 [← hname]
  exact List.take_left

theorem split_append (name : List Char) : (split name).1 ++ (split name).2 = name := by
  rw [split_eq, List.rdropWhile_append_rtakeWhile]

theorem mem_of_mem_base {name : List Char} {c : Char} (h : c ∈ (split name).2) : c ∈ name := by
  rw [← split_append name]
  exact List.mem_append_right _ h

/-- A copy is named by the characters of the name and of its mark. -/
theorem mem_minified {name : String} {c : Char} (h : c ∈ (minified name).toList) :
    c ∈ name.toList ∨ c ∈ ['.', 'm', 'i', 'n'] := by
  have hname := split_append name.toList
  simp only [minified] at h
  split at h
  case h_1 stem ending hsplit =>
    rw [Path.eq_of_splitExtension? hsplit] at hname
    rw [String.toList_ofList] at h
    rw [← hname]
    simp only [List.mem_append, List.mem_cons, List.not_mem_nil, or_false] at h ⊢
    grind
  case h_2 =>
    have hmark : c ∈ name.toList ∨ c = '.' ∨ c = 'm' ∨ c = 'i' ∨ c = 'n' := by simpa using h
    grind

/-- In a directory a copy is named by the characters of that directory, of the name, and a slash. -/
theorem mem_inBatch {name : String} {directory : Option String} {c : Char}
    (h : c ∈ (inBatch name directory).toList) :
    c ∈ name.toList ∨ c ∈ ['.', 'm', 'i', 'n', '/'] ∨ ∃ text ∈ directory, c ∈ text.toList := by
  cases directory with
  | none =>
    rcases mem_minified h with hname | hmark
    · exact .inl hname
    · exact .inr (.inl (List.mem_append_left ['/'] hmark))
  | some text =>
    rw [inBatch, String.toList_ofList, List.mem_append, List.mem_cons] at h
    rcases h with hdirectory | rfl | hbase
    · exact .inr (.inr ⟨text, rfl, (List.rdropWhile_prefix _ _).subset hdirectory⟩)
    · exact .inr (.inl (by decide))
    · exact .inl (mem_of_mem_base hbase)

/-! ### Sources -/

/-- Whether files of a name are minified. -/
def isSourceName (name : String) : Bool :=
  !Text.contains ['.', 'm', 'i', 'n', '.'] name.toList &&
    ((Path.splitExtension? name.toList).bind fun split => Language.ofExtension? (String.ofList split.2)).isSome

theorem isSource_eq {path name : String} (h : Path.fileName? path = some name) : isSource path = isSourceName name := by
  rw [isSource, isSourceName, h, Language.ofPath?, Path.extension?, h]
  cases hsplit : Path.splitExtension? name.toList <;> simp [hsplit]

theorem isSourceName_iff {name : String} :
    isSourceName name = true ↔ ¬ ['.', 'm', 'i', 'n', '.'] <:+: name.toList ∧
      ∃ stem ending language, name.toList = stem ++ '.' :: ending ∧ stem ≠ [] ∧ '.' ∉ ending ∧
        Language.ofExtension? (String.ofList ending) = some language := by
  rw [isSourceName, Bool.and_eq_true, Bool.not_eq_true', ← Bool.not_eq_true, Text.contains_iff, Option.isSome_iff_exists]
  refine and_congr_right fun _ => ?_
  simp only [Option.bind_eq_some_iff, Prod.exists, Path.splitExtension?_eq_some_iff]
  grind

/-- No language has an ending with a tilde. -/
theorem ofExtension?_of_mem {ending : String} (h : '~' ∈ ending.toList) : Language.ofExtension? ending = none := by
  have hlower (before text : List Char) (htext : '~' ∈ text) : '~' ∈ Text.lowerAfter before text := by
    induction text generalizing before with
    | nil => exact absurd htext List.not_mem_nil
    | cons c text ih =>
      rw [Text.lowerAfter]
      rcases List.mem_cons.mp htext with rfl | htext
      · have himage : Text.lowerChar '~' = '~' := by decide +kernel
        exact List.mem_append_left _ (by simp [himage])
      · exact List.mem_append_right _ (ih _ htext)
  have hdrop : '~' ∈ ending.toList.dropWhile (· == '.') := by
    rw [← List.takeWhile_append_dropWhile (p := (· == '.')) (l := ending.toList), List.mem_append] at h
    exact h.resolve_left fun hdots => absurd (List.mem_takeWhile_imp hdots) (by decide)
  have hall : ∀ language ∈ Language.all, ∀ extension ∈ language.extensions, '~' ∉ extension.toList := by decide +kernel
  simp only [Language.ofExtension?, List.find?_eq_none, List.contains_eq_mem, decide_eq_true_eq]
  intro language hlanguage hextension
  refine hall language hlanguage _ hextension ?_
  rw [Text.toLower, String.toList_ofList, String.toList_ofList]
  exact hlower [] _ hdrop

/-- What an editor sets aside under a name of its own is no source. -/
theorem not_isSuffix_of_isSourceName {name : String} (h : isSourceName name = true) :
    ¬ ['~'] <:+ name.toList ∧ ¬ ['.', 's', 'w', 'p'] <:+ name.toList := by
  obtain ⟨-, stem, ending, language, hname, -, hdot, hlanguage⟩ := isSourceName_iff.mp h
  constructor
  · rintro ⟨front, hfront⟩
    have hlast := congrArg List.getLast? (hfront.trans hname)
    rw [List.getLast?_concat, List.getLast?_append_of_ne_nil _ (List.cons_ne_nil _ _)] at hlast
    have hmem := (List.mem_cons.mp (List.mem_of_getLast? hlast.symm)).resolve_left (by decide)
    have htilde : '~' ∈ (String.ofList ending).toList := by rwa [String.toList_ofList]
    simp [ofExtension?_of_mem htilde] at hlanguage
  · intro hswap
    have hending : '.' :: ending = ['.', 's', 'w', 'p'] := by
      rcases List.suffix_or_suffix_of_suffix hswap (hname ▸ List.suffix_append stem ('.' :: ending)) with hle | hle
      · exact ((List.suffix_cons_iff.mp hle).resolve_right fun hin => hdot (hin.mem List.mem_cons_self)).symm
      · refine (List.suffix_cons_iff.mp hle).resolve_right fun hin => ?_
        exact absurd (hin.mem List.mem_cons_self) (by decide)
    obtain rfl := (List.cons.inj hending).2
    have hnone : Language.ofExtension? (String.ofList ['s', 'w', 'p']) = none := by decide +kernel
    simp [hnone] at hlanguage

/-! ### Names of copies -/

/-- A copy is named by a mark in front of what stands behind the last dot. -/
theorem exists_minified_eq (name : String) :
    ∃ stem behind, name.toList = stem ++ behind ∧ (minified name).toList = stem ++ ['.', 'm', 'i', 'n'] ++ behind ∧
      (behind = [] ∨ ∃ ending, behind = '.' :: ending ∧ '.' ∉ ending) := by
  have hname := split_append name.toList
  simp only [minified]
  split
  case h_1 stem ending hsplit =>
    obtain ⟨hbase, -, hdot⟩ := Path.splitExtension?_eq_some_iff.mp hsplit
    refine ⟨(split name.toList).1 ++ stem, '.' :: ending, ?_, ?_, .inr ⟨ending, rfl, hdot⟩⟩
    · rw [List.append_assoc, ← hbase, hname]
    · rw [String.toList_ofList]
      simp
  case h_2 => exact ⟨name.toList, [], by simp, by simp, .inl rfl⟩

/-- Texts with one last dot agree before and behind it. -/
theorem eq_of_append_dot {stem stem' ending ending' : List Char} (hending : '.' ∉ ending) (hending' : '.' ∉ ending')
    (h : stem ++ '.' :: ending = stem' ++ '.' :: ending') : stem = stem' ∧ ending = ending' := by
  rcases List.append_eq_append_iff.mp h with ⟨more, rfl, hmore⟩ | ⟨more, rfl, hmore⟩
  · cases more with
    | nil => exact ⟨(List.append_nil _).symm, (List.cons.inj hmore).2⟩
    | cons c more =>
      exact absurd ((List.cons.inj hmore).2 ▸ List.mem_append_right more List.mem_cons_self) hending
  · cases more with
    | nil => exact ⟨List.append_nil _, (List.cons.inj hmore).2.symm⟩
    | cons c more =>
      exact absurd ((List.cons.inj hmore).2 ▸ List.mem_append_right more List.mem_cons_self) hending'

/-- Files of different names have copies of different names. -/
theorem minified_inj {name other : String} (h : minified name = minified other) : name = other := by
  obtain ⟨stem, behind, hname, hcopy, hbehind⟩ := exists_minified_eq name
  obtain ⟨stem', behind', hother, hcopy', hbehind'⟩ := exists_minified_eq other
  rw [h, hcopy'] at hcopy
  rw [← String.toList_inj, hname, hother]
  -- A copy with nothing behind its mark has the mark itself behind its last dot.
  have hbare {first second ending : List Char} (hdot : '.' ∉ ending)
      (heq : first ++ ['.', 'm', 'i', 'n'] ++ [] = second ++ ['.', 'm', 'i', 'n'] ++ '.' :: ending) :
      first ++ [] = second ++ '.' :: ending := by
    rw [List.append_nil] at heq ⊢
    obtain ⟨rfl, rfl⟩ := eq_of_append_dot (by decide) hdot heq
    rfl
  rcases hbehind with rfl | ⟨ending, rfl, hdot⟩
  · rcases hbehind' with rfl | ⟨ending', rfl, hdot'⟩
    · simpa using hcopy.symm
    · exact hbare hdot' hcopy.symm
  · rcases hbehind' with rfl | ⟨ending', rfl, hdot'⟩
    · exact (hbare hdot hcopy).symm
    · obtain ⟨hstem, rfl⟩ := eq_of_append_dot hdot' hdot hcopy
      rw [List.append_cancel_right hstem]

/-- A copy beside its file is no source. -/
theorem isSourceName_minified (name : String) : isSourceName (minified name) = false := by
  rw [← Bool.not_eq_true, isSourceName_iff]
  rintro ⟨hmark, found, ending, language, hcopy, -, hdot, hlanguage⟩
  obtain ⟨stem, behind, -, hminified, rfl | ⟨ending', rfl, -⟩⟩ := exists_minified_eq name
  · rw [List.append_nil] at hminified
    obtain ⟨-, rfl⟩ := eq_of_append_dot hdot (by decide) (hcopy.symm.trans hminified)
    have hnone : Language.ofExtension? (String.ofList ['m', 'i', 'n']) = none := by decide +kernel
    simp [hnone] at hlanguage
  · refine hmark ⟨stem, ending', ?_⟩
    rw [hminified]
    simp

/-- Of a name behind a separator only what stands behind that separator is taken apart. -/
theorem split_append_of_separator {directory : List Char} (hdirectory : ∀ c ∈ directory.getLast?, isSeparator c = true)
    (name : List Char) : split (directory ++ name) = (directory ++ (split name).1, (split name).2) := by
  simp only [split_eq]
  have hends : ∀ c ∈ directory.getLast?, ¬ (fun c => !isSeparator c) c = true := by simpa using hdirectory
  generalize (fun c => !isSeparator c) = counts at hends ⊢
  induction name using List.reverseRecOn with
  | nil =>
    rcases List.eq_nil_or_concat' directory with rfl | ⟨front, last, rfl⟩
    · rfl
    · have hlast := hends last List.getLast?_concat
      rw [List.append_nil, List.rdropWhile_concat_neg _ _ _ hlast, List.rtakeWhile_concat_neg _ _ _ hlast]
      simp
  | append_singleton name c ih =>
    rw [← List.append_assoc]
    by_cases hc : counts c = true
    · rw [List.rdropWhile_concat_pos _ _ _ hc, List.rdropWhile_concat_pos _ _ _ hc, List.rtakeWhile_concat_pos _ _ _ hc,
        List.rtakeWhile_concat_pos _ _ _ hc, (Prod.mk.inj ih).1, (Prod.mk.inj ih).2]
    · rw [List.rdropWhile_concat_neg _ _ _ hc, List.rdropWhile_concat_neg _ _ _ hc, List.rtakeWhile_concat_neg _ _ _ hc,
        List.rtakeWhile_concat_neg _ _ _ hc, List.append_assoc]

/-- The copy of a file in a directory lies in that directory. -/
theorem minified_append {directory : String} (hdirectory : directory = "" ∨ directory.toList.getLast? = some '/')
    (name : String) : minified (directory ++ name) = directory ++ minified name := by
  have hsplit : split (directory ++ name).toList = (directory.toList ++ (split name.toList).1, (split name.toList).2) := by
    rw [String.toList_append]
    refine split_append_of_separator (fun c hc => ?_) name.toList
    rcases hdirectory with rfl | hslash
    · exact absurd hc nofun
    · obtain rfl := Option.some.inj (hslash.symm.trans hc)
      rfl
  rw [← String.toList_inj]
  simp only [minified, hsplit]
  cases Path.splitExtension? (split name.toList).2 <;> simp

end FileName

end Minifier
