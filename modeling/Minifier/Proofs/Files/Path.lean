import Minifier.Files.Path
import Minifier.Proofs.Text.Words
import Mathlib.Algebra.GroupWithZero.Nat
import Mathlib.Tactic.SplitIfs

/-!
Paths taken apart. The pieces of a text between its slashes are components where they count, so a path that is
put together with a slash has the components of its two sides. What is left of a path behind another one has the
components that are left.
-/

namespace Minifier.Path

/-! ### Pieces -/

/-- The pieces of a text between its slashes. -/
def pieces (text : List Char) : List (List Char) := Text.cutAt (· == '/') text

theorem pieces_eq_splitOn (text : List Char) : pieces text = text.splitOn '/' :=
  Text.cutAt_eq_splitOnP _ text

theorem pieces_append_slash (text rest : List Char) : pieces (text ++ '/' :: rest) = pieces text ++ pieces rest := by
  simp only [pieces_eq_splitOn, List.splitOn_append_cons_self]

theorem pieces_of_not_mem {text : List Char} (h : '/' ∉ text) : pieces text = [text] := by
  rw [pieces_eq_splitOn, List.splitOn_eq_singleton h]

theorem intercalate_pieces (text : List Char) : ['/'].intercalate (pieces text) = text := by
  rw [pieces_eq_splitOn, List.intercalate_splitOn]

theorem pieces_ne_nil (text : List Char) : pieces text ≠ [] := by
  rw [pieces_eq_splitOn]
  exact List.splitOn_ne_nil _ _

theorem not_mem_of_mem_pieces {text piece : List Char} (h : piece ∈ pieces text) : '/' ∉ piece := by
  induction text generalizing piece with
  | nil =>
    obtain rfl : piece = [] := List.mem_singleton.mp h
    exact List.not_mem_nil
  | cons c text ih =>
    obtain ⟨head, others, hpieces⟩ := List.exists_cons_of_ne_nil (pieces_ne_nil text)
    rw [pieces_eq_splitOn, List.splitOn_cons_eq_if_modifyHead, ← pieces_eq_splitOn, hpieces] at h
    rw [hpieces] at ih
    split_ifs at h with hc
    · rcases List.mem_cons.mp h with rfl | hmem
      · exact List.not_mem_nil
      · exact ih hmem
    · rcases List.mem_cons.mp h with rfl | hmem
      · rw [List.mem_cons, not_or]
        exact ⟨fun heq => hc (beq_iff_eq.mpr heq.symm), ih List.mem_cons_self⟩
      · exact ih (List.mem_cons_of_mem _ hmem)

theorem pieces_intercalate {parts : List (List Char)} (h : ∀ piece ∈ parts, '/' ∉ piece) (hparts : parts ≠ []) :
    pieces (['/'].intercalate parts) = parts := by
  rw [pieces_eq_splitOn, List.splitOn_intercalate '/' h hparts]

/-! ### Components -/

/-- The components of a text that stands behind a slash. -/
def below (text : List Char) : List Component := (pieces text).filterMap (componentOf false)

theorem below_append_slash (text rest : List Char) : below (text ++ '/' :: rest) = below text ++ below rest := by
  rw [below, pieces_append_slash, List.filterMap_append]
  rfl

theorem below_of_not_mem {text : List Char} (h : '/' ∉ text) : below text = (componentOf false text).toList := by
  rw [below, pieces_of_not_mem h]
  cases hpiece : componentOf false text with
  | none => rw [List.filterMap_cons_none hpiece]; rfl
  | some component => rw [List.filterMap_cons_some hpiece]; rfl

/-- Slashes alone name nothing. -/
theorem below_of_forall_eq {text : List Char} (h : ∀ c ∈ text, c = '/') : below text = [] := by
  induction text with
  | nil => rfl
  | cons c text ih =>
    rw [List.forall_mem_cons] at h
    rw [h.1, ← List.nil_append ('/' :: text), below_append_slash, ih h.2]
    rfl

theorem map_component_partsOf (start : Nat) (parts : List (List Char)) :
    (partsOf false start parts).map Part.component = parts.filterMap (componentOf false) := by
  induction parts generalizing start with
  | nil => rfl
  | cons piece parts ih =>
    rw [partsOf]
    cases hpiece : componentOf false piece with
    | none => rw [List.filterMap_cons_none hpiece, ← ih]
    | some component => rw [List.filterMap_cons_some hpiece, List.map_cons, ih]

/-- Only of the first piece it counts that it is the first. -/
theorem map_component_partsOf_cons (first : Bool) (start : Nat) (piece : List Char) (parts : List (List Char)) :
    (partsOf first start (piece :: parts)).map Part.component =
      (componentOf first piece).toList ++ parts.filterMap (componentOf false) := by
  rw [partsOf]
  cases hpiece : componentOf first piece with
  | none => exact map_component_partsOf _ parts
  | some component => exact congrArg (component :: ·) (map_component_partsOf _ parts)

theorem parts_slash (text : List Char) :
    parts (String.ofList ('/' :: text)) = ⟨.root, 0, 1⟩ :: partsOf false 0 (pieces ('/' :: text)) := by
  simp only [parts, String.toList_ofList]
  rfl

theorem parts_of_head_ne {text : List Char} (h : ∀ rest, text ≠ '/' :: rest) :
    parts (String.ofList text) = partsOf true 0 (pieces text) := by
  simp only [parts, String.toList_ofList]
  rfl

theorem components_slash (text : List Char) : components (String.ofList ('/' :: text)) = .root :: below text := by
  rw [components, parts_slash, ← List.nil_append ('/' :: text), pieces_append_slash, List.map_cons]
  exact congrArg (Component.root :: ·) (map_component_partsOf_cons false 0 [] (pieces text))

theorem components_append_slash {text : List Char} (h : text ≠ []) (rest : List Char) :
    components (String.ofList (text ++ '/' :: rest)) = components (String.ofList text) ++ below rest := by
  obtain ⟨c, more, rfl⟩ := List.exists_cons_of_ne_nil h
  by_cases hc : c = '/'
  · subst hc
    rw [List.cons_append, components_slash, components_slash, below_append_slash, List.cons_append]
  · have hhead : ∀ tail rest, c :: tail ≠ '/' :: rest := fun _ _ heq => hc (List.cons.inj heq).1
    obtain ⟨piece, others, hpieces⟩ := List.exists_cons_of_ne_nil (pieces_ne_nil (c :: more))
    rw [components, components, parts_of_head_ne (hhead more), List.cons_append, parts_of_head_ne (hhead _),
      ← List.cons_append, pieces_append_slash, hpieces, List.cons_append, map_component_partsOf_cons,
      map_component_partsOf_cons, List.filterMap_append, List.append_assoc]
    rfl

/-- Behind a slash, what counts is two dots or a name. -/
theorem componentOf_false_eq_some {piece : List Char} {component : Component}
    (h : componentOf false piece = some component) :
    piece ≠ [] ∧ (component = .parent ∨ component = .normal (String.ofList piece)) := by
  simp only [componentOf, Bool.false_eq_true, if_false] at h
  split_ifs at h with hempty hdot hdots
  · exact ⟨hempty, .inl (Option.some.inj h).symm⟩
  · exact ⟨hempty, .inr (Option.some.inj h).symm⟩

theorem mem_below {text : List Char} {component : Component} (h : component ∈ below text) :
    component = .parent ∨ ∃ name, component = .normal name := by
  obtain ⟨piece, -, hpiece⟩ := List.mem_filterMap.mp h
  exact (componentOf_false_eq_some hpiece).2.imp_right fun hname => ⟨_, hname⟩

theorem componentOf_true_ne_none {piece : List Char} (h : piece ≠ []) : componentOf true piece ≠ none := by
  simp only [componentOf, if_neg h, if_true]
  split_ifs <;> nofun

/-- Every path but the empty one has a component. -/
theorem components_ne_nil {path : String} (h : path ≠ "") : components path ≠ [] := by
  obtain ⟨c, more, hpath⟩ := List.exists_cons_of_ne_nil (mt String.toList_eq_nil_iff.mp h)
  rw [← String.ofList_toList (s := path), hpath]
  by_cases hc : c = '/'
  · subst hc
    rw [components_slash]
    exact List.cons_ne_nil _ _
  · obtain ⟨piece, others, hpieces⟩ := List.exists_cons_of_ne_nil (pieces_ne_nil (c :: more))
    have hpiece : piece ≠ [] := by
      rintro rfl
      have htext := intercalate_pieces (c :: more)
      rw [hpieces] at htext
      cases others with
      | nil => simp at htext
      | cons next others =>
        rw [List.intercalate_cons_cons] at htext
        exact hc (List.cons.inj htext).1.symm
    rw [components, parts_of_head_ne fun _ heq => hc (List.cons.inj heq).1, hpieces, map_component_partsOf_cons]
    obtain ⟨component, hcomponent⟩ := Option.ne_none_iff_exists'.mp (componentOf_true_ne_none hpiece)
    rw [hcomponent]
    exact List.cons_ne_nil _ _

/-- A text whose first piece counts behind a slash has the same components there and alone. -/
theorem components_eq_below {text piece : List Char} {others : List (List Char)} {component : Component}
    (hpieces : pieces text = piece :: others) (hpiece : componentOf false piece = some component) :
    components (String.ofList text) = below text := by
  have hfirst : componentOf true piece = some component := by
    have hempty := (componentOf_false_eq_some hpiece).1
    have hdot : piece ≠ ['.'] := by
      rintro rfl
      exact absurd hpiece nofun
    rw [componentOf, if_neg hempty, if_neg hdot] at hpiece ⊢
    exact hpiece
  have hhead : ∀ rest, text ≠ '/' :: rest := by
    rintro rest rfl
    rw [← List.nil_append ('/' :: rest), pieces_append_slash] at hpieces
    exact (componentOf_false_eq_some hpiece).1 (List.cons.inj hpieces).1.symm
  rw [components, parts_of_head_ne hhead, below, hpieces, map_component_partsOf_cons, hfirst,
    List.filterMap_cons_some hpiece]
  rfl

/-! ### Backslashes -/

/-- How many backslashes a component has. -/
def Component.backslashes : Component → Nat
  | normal name => name.toList.count '\\'
  | _ => 0

theorem backslashes_componentOf (first : Bool) (piece : List Char) :
    ((componentOf first piece).toList.map Component.backslashes).sum = piece.count '\\' := by
  rw [componentOf]
  split_ifs with hempty hdot hfirst hdots
  · rw [hempty]; rfl
  · rw [hdot]; rfl
  · rw [hdot]; rfl
  · rw [hdots]; rfl
  · simp [Component.backslashes]

theorem backslashes_filterMap (parts : List (List Char)) :
    ((parts.filterMap (componentOf false)).map Component.backslashes).sum =
      (parts.map fun piece => piece.count '\\').sum := by
  induction parts with
  | nil => rfl
  | cons piece parts ih =>
    have hpiece := backslashes_componentOf false piece
    rw [List.map_cons, List.sum_cons, ← ih, ← hpiece]
    cases hcomponent : componentOf false piece with
    | none => simp [hcomponent]
    | some component => simp [hcomponent]

theorem count_intercalate (parts : List (List Char)) :
    (['/'].intercalate parts).count '\\' = (parts.map fun piece => piece.count '\\').sum := by
  induction parts with
  | nil => rfl
  | cons piece parts ih =>
    cases parts with
    | nil => simp
    | cons next parts =>
      rw [List.intercalate_cons_cons, List.append_assoc, List.count_append, List.singleton_append,
        List.count_cons_of_ne (by decide), ih]
      rfl

theorem sum_count_pieces (text : List Char) :
    ((pieces text).map fun piece => piece.count '\\').sum = text.count '\\' := by
  rw [← count_intercalate, intercalate_pieces]

/-- The backslashes of a path are those of its components. -/
theorem backslashes_components (path : String) :
    ((components path).map Component.backslashes).sum = path.toList.count '\\' := by
  obtain ⟨text, rfl⟩ : ∃ text, path = String.ofList text := ⟨path.toList, String.ofList_toList.symm⟩
  rw [String.toList_ofList]
  by_cases hslash : ∃ rest, text = '/' :: rest
  · obtain ⟨rest, rfl⟩ := hslash
    rw [components_slash, List.map_cons, List.sum_cons, below, backslashes_filterMap, sum_count_pieces,
      List.count_cons_of_ne (by decide)]
    exact Nat.zero_add _
  · obtain ⟨piece, others, hpieces⟩ := List.exists_cons_of_ne_nil (pieces_ne_nil text)
    rw [components, parts_of_head_ne fun rest heq => hslash ⟨rest, heq⟩, hpieces, map_component_partsOf_cons,
      List.map_append, List.sum_append, backslashes_componentOf, backslashes_filterMap, ← sum_count_pieces text, hpieces]
    rfl

/-! ### What is left of a path -/

/-- How much of a text pieces in front take up, with a slash behind each. -/
def width (front : List (List Char)) : Nat := (front.map fun piece => piece.length + 1).sum

theorem width_cons (piece : List Char) (front : List (List Char)) :
    width (piece :: front) = piece.length + 1 + width front := by
  rw [width, width, List.map_cons, List.sum_cons]

theorem drop_intercalate (front : List (List Char)) {back : List (List Char)} (h : back ≠ []) :
    (['/'].intercalate (front ++ back)).drop (width front) = ['/'].intercalate back := by
  induction front with
  | nil => rfl
  | cons piece front ih =>
    have hlength : piece.length + 1 = (piece ++ ['/']).length := by simp
    rw [List.cons_append, List.intercalate_cons_of_ne_nil (List.append_ne_nil_of_right_ne_nil _ h), width_cons,
      hlength, List.drop_length_add_append, ih]

theorem take_intercalate (front : List (List Char)) (piece : List Char) (back : List (List Char)) :
    (['/'].intercalate (front ++ piece :: back)).take (width front + piece.length) =
      ['/'].intercalate (front ++ [piece]) := by
  induction front with
  | nil =>
    cases back with
    | nil => simp [width]
    | cons next back => simp [width, List.intercalate_cons_cons]
  | cons other front ih =>
    have hlength : other.length + 1 = (other ++ ['/']).length := by simp
    rw [List.cons_append, List.cons_append, List.intercalate_cons_of_ne_nil (by simp),
      List.intercalate_cons_of_ne_nil (by simp), ← ih, width_cons, hlength, Nat.add_assoc,
      List.take_length_add_append]

/-- A part is a piece that counts, and the parts before and behind it are those of the pieces there. -/
theorem exists_of_partsOf_eq {first : Bool} {start : Nat} {all : List (List Char)} {before after : List Part}
    {part : Part} (h : partsOf first start all = before ++ part :: after) :
    ∃ front piece back component, all = front ++ piece :: back ∧ before = partsOf first start front ∧
      componentOf (first && front.isEmpty) piece = some component ∧
      part = ⟨component, start + width front, start + width front + piece.length⟩ ∧
      after = partsOf false (start + width front + piece.length + 1) back := by
  induction all generalizing first start before with
  | nil => simp [partsOf] at h
  | cons piece all ih =>
    have hwidth (front : List (List Char)) :
        start + width (piece :: front) = start + piece.length + 1 + width front := by
      rw [width_cons]
      omega
    rw [partsOf] at h
    cases hpiece : componentOf first piece with
    | none =>
      rw [hpiece] at h
      obtain ⟨front, found, back, component, rfl, rfl, hfound, rfl, rfl⟩ := ih h
      refine ⟨piece :: front, found, back, component, rfl, ?_, ?_, ?_, ?_⟩
      · rw [partsOf, hpiece]
      · simpa using hfound
      · rw [hwidth]
      · rw [hwidth]
    | some component =>
      rw [hpiece] at h
      cases before with
      | nil =>
        obtain ⟨rfl, rfl⟩ := List.cons.inj h
        exact ⟨[], piece, all, component, rfl, rfl, by simpa using hpiece, rfl, rfl⟩
      | cons previous before =>
        obtain ⟨rfl, hrest⟩ := List.cons.inj h
        obtain ⟨front, found, back, component, rfl, rfl, hfound, rfl, rfl⟩ := ih hrest
        refine ⟨piece :: front, found, back, component, rfl, ?_, ?_, ?_, ?_⟩
        · rw [partsOf, hpiece]
        · simpa using hfound
        · rw [hwidth]
        · rw [hwidth]

/-- Every part of a path but the first is a piece of its text. -/
theorem exists_of_parts_eq {path : String} {before after : List Part} {part : Part}
    (h : parts path = before ++ part :: after) (hbefore : before ≠ []) :
    ∃ front piece back component, pieces path.toList = front ++ piece :: back ∧
      componentOf false piece = some component ∧ part = ⟨component, width front, width front + piece.length⟩ ∧
      after = partsOf false (width front + piece.length + 1) back := by
  obtain ⟨text, rfl⟩ : ∃ text, path = String.ofList text := ⟨path.toList, String.ofList_toList.symm⟩
  rw [String.toList_ofList]
  by_cases hslash : ∃ rest, text = '/' :: rest
  · obtain ⟨rest, rfl⟩ := hslash
    obtain ⟨previous, before, rfl⟩ := List.exists_cons_of_ne_nil hbefore
    rw [parts_slash] at h
    obtain ⟨front, piece, back, component, hpieces, -, hpiece, hpart, hafter⟩ :=
      exists_of_partsOf_eq (List.cons.inj h).2
    rw [Nat.zero_add] at hpart hafter
    exact ⟨front, piece, back, component, hpieces, hpiece, hpart, hafter⟩
  · rw [parts_of_head_ne fun rest heq => hslash ⟨rest, heq⟩] at h
    obtain ⟨front, piece, back, component, hpieces, hfront, hpiece, hpart, hafter⟩ := exists_of_partsOf_eq h
    have hne : front.isEmpty = false := by
      rw [List.isEmpty_eq_false_iff]
      rintro rfl
      exact hbefore hfront
    rw [hne, Bool.and_false] at hpiece
    rw [Nat.zero_add] at hpart hafter
    exact ⟨front, piece, back, component, hpieces, hpiece, hpart, hafter⟩

/-- The text of pieces in the middle of a path, from where the first one begins to where the last one ends. -/
theorem slice_eq {path : String} {front inner back : List (List Char)} {piece : List Char}
    (h : pieces path.toList = front ++ (inner ++ piece :: back)) :
    slice path (width front) (width front + width inner + piece.length) =
      String.ofList (['/'].intercalate (inner ++ [piece])) := by
  have hlength : width front + width inner + piece.length - width front = width inner + piece.length := by omega
  rw [slice, hlength, ← intercalate_pieces path.toList, h, drop_intercalate front (by simp), take_intercalate]

/-- A piece that counts, with all that follows up to the last part, is text that begins with a name. -/
theorem exists_slice_eq {path : String} {front back : List (List Char)} {piece : List Char} {component : Component}
    (hpieces : pieces path.toList = front ++ piece :: back) (hpiece : componentOf false piece = some component) :
    ∃ last c left, (partsOf false (width front) (piece :: back)).getLast? = some last ∧
      slice path (width front) last.stop = String.ofList (c :: left) ∧ c ≠ '/' ∧
      components (String.ofList (c :: left)) = below (c :: left) ∧
      below (c :: left) = (piece :: back).filterMap (componentOf false) := by
  obtain ⟨middle, last, hlast⟩ : ∃ middle last, partsOf false (width front) (piece :: back) = middle ++ [last] := by
    rw [partsOf, hpiece]
    exact ⟨_, _, (List.dropLast_concat_getLast (List.cons_ne_nil _ _)).symm⟩
  have hcomponents := map_component_partsOf (width front) (piece :: back)
  -- The last part ends in one of the pieces from here on.
  obtain ⟨inner, final, after, lastComponent, hsplit, rfl, hfinal, rfl, -⟩ := exists_of_partsOf_eq hlast
  rw [Bool.false_and] at hfinal
  have hslash : ∀ found ∈ inner ++ [final], '/' ∉ found := by
    intro found hfound
    have hmem : found ∈ pieces path.toList := by
      rw [hpieces, hsplit, List.append_cons inner final after]
      exact List.mem_append_right _ (List.mem_append_left _ hfound)
    exact not_mem_of_mem_pieces hmem
  have hbelow : below (['/'].intercalate (inner ++ [final])) = (piece :: back).filterMap (componentOf false) := by
    rw [below, pieces_intercalate hslash (by simp), ← hcomponents, hlast, List.filterMap_append, List.map_append,
      map_component_partsOf, List.filterMap_cons_some hfinal]
    rfl
  obtain ⟨tail, htail⟩ : ∃ tail, inner ++ [final] = piece :: tail := by
    cases inner with
    | nil => exact ⟨[], congrArg (fun found => [found]) (List.cons.inj hsplit).1.symm⟩
    | cons next inner => exact ⟨inner ++ [final], congrArg (· :: (inner ++ [final])) (List.cons.inj hsplit).1.symm⟩
  obtain ⟨c, piece, rfl⟩ := List.exists_cons_of_ne_nil (componentOf_false_eq_some hpiece).1
  obtain ⟨left, hleft⟩ : ∃ left, ['/'].intercalate (inner ++ [final]) = c :: left := by
    rw [htail]
    cases tail with
    | nil => exact ⟨piece, List.intercalate_singleton⟩
    | cons next tail => exact ⟨_, List.intercalate_cons_cons⟩
  refine ⟨_, c, left, (congrArg List.getLast? hlast).trans List.getLast?_concat, ?_, ?_, ?_, ?_⟩
  · rw [slice_eq (hpieces.trans (congrArg (front ++ ·) hsplit)), hleft]
  · rintro rfl
    exact hslash _ (htail ▸ List.mem_cons_self) List.mem_cons_self
  · have hpiecesLeft := pieces_intercalate hslash (by simp)
    rw [hleft, htail] at hpiecesLeft
    exact components_eq_below hpiecesLeft hpiece
  · rw [← hleft, hbelow]

/-- What is left of a path behind another has the components that are left, and begins with a name. -/
theorem exists_stripPrefix?_eq {path base : String} {rest : List Component} (hbase : base ≠ "")
    (h : components path = components base ++ rest) (hrest : rest ≠ []) :
    ∃ c left, stripPrefix? path base = some (String.ofList (c :: left)) ∧ c ≠ '/' ∧
      components (String.ofList (c :: left)) = below (c :: left) ∧ below (c :: left) = rest := by
  obtain ⟨before, behind, hparts, hbefore, rfl⟩ := List.map_eq_append_iff.mp h
  have hbeforeNe : before ≠ [] := by
    rintro rfl
    exact components_ne_nil hbase hbefore.symm
  obtain ⟨first, later, rfl⟩ :=
    List.exists_cons_of_ne_nil (fun hnil : behind = [] => hrest (List.map_eq_nil_iff.mpr hnil))
  obtain ⟨front, piece, back, component, hpieces, hpiece, rfl, rfl⟩ := exists_of_parts_eq hparts hbeforeNe
  have hfirst : partsOf false (width front) (piece :: back) =
      ⟨component, width front, width front + piece.length⟩ ::
        partsOf false (width front + piece.length + 1) back := by
    rw [partsOf, hpiece]
  obtain ⟨last, c, left, hlast, hslice, hc, halone, hbelow⟩ := exists_slice_eq hpieces hpiece
  have hcount : (components base).length = before.length := by rw [← hbefore, List.length_map]
  have hend : (parts path).getLast? = some last := by
    rw [hparts, ← hfirst, List.getLast?_append, hlast]
    rfl
  refine ⟨c, left, ?_, hc, halone, ?_⟩
  · rw [stripPrefix?, hcount]
    simp only [hend]
    rw [hparts, List.take_left, List.drop_left, if_pos hbefore]
    simp only [hslice]
  · rw [hbelow, ← map_component_partsOf (width front), hfirst]

theorem slash_append_ofList (text : List Char) : "/" ++ String.ofList text = String.ofList ('/' :: text) := by
  rw [← String.toList_inj]
  simp

/-- A slash at the end of a path does not count, nor does what is taken from the path see it. -/
theorem components_concat_slash (text rest : List Char) :
    components (String.ofList (text ++ '/' :: rest)) = components (String.ofList (text ++ ['/'])) ++ below rest := by
  cases text with
  | nil =>
    rw [List.nil_append, List.nil_append, components_slash, components_slash]
    rfl
  | cons c text =>
    rw [components_append_slash (List.cons_ne_nil _ _), components_append_slash (List.cons_ne_nil _ _),
      below_of_forall_eq (List.forall_mem_nil _), List.append_nil]

/-- A path from a directory has the components of the directory and its own. -/
theorem components_join (directory : String) {c : Char} {left : List Char} (hc : c ≠ '/')
    (halone : components (String.ofList (c :: left)) = below (c :: left)) :
    components (join directory (String.ofList (c :: left))) = components directory ++ below (c :: left) := by
  obtain ⟨text, rfl⟩ : ∃ text, directory = String.ofList text := ⟨directory.toList, String.ofList_toList.symm⟩
  have habsolute : isAbsolute (String.ofList (c :: left)) = false := by
    simp [isAbsolute, hc]
  rw [join, habsolute, if_neg Bool.false_ne_true, ← String.ofList_append]
  by_cases htext : text = []
  · subst htext
    exact halone
  have hempty : (String.ofList text).isEmpty = false := by
    rw [Bool.eq_false_iff, ne_eq, String.isEmpty_iff, ← String.toList_eq_nil_iff, String.toList_ofList]
    exact htext
  rw [hempty, Bool.false_or, String.toList_ofList]
  split_ifs with hend
  · obtain ⟨front, rfl⟩ := List.getLast?_eq_some_iff.mp (eq_of_beq hend)
    rw [List.append_assoc, List.singleton_append, components_concat_slash]
  · rw [String.append_assoc, slash_append_ofList, ← String.ofList_append, components_append_slash htext]

end Minifier.Path
