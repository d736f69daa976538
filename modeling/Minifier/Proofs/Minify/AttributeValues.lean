import Minifier.Proofs.Minify.Attributes

/-!
Documents minified at the aggressive level. Behind the rules the masked text falls into opening tags and what stands
between them. A tag gets its values back and loses what looks redundant in it, and all else is filled in. So a value is
lost only from its own tag, if its attribute looks redundant or if the value mentions an attribute that may be.

The pattern for attributes without a value looks at the end of a name only, and both patterns look into values. So
values are also lost from attributes with names like those listed, and text within values is edited.
-/

namespace Minifier

open Pattern Template

namespace Markup

/-- A piece of the masked text behind the rules: an opening tag or what stands outside of these. -/
inductive Part where
  | plain (template : Template) : Part
  | tag (template : Template) : Part

namespace Part

def template : Part → Template
  | plain template | tag template => template

/-- A part with what stands in its slots. -/
def restored (value : Nat → List Char) (part : Part) : List Char := part.template.fill value

/-- What becomes of a part. -/
def left (value : Nat → List Char) : Part → List Char
  | plain template => template.fill value
  | tag template => redundantAttributes.apply (template.fill value)

/-- A part behind the edit of the tags, in which no slots are left. -/
def edited (value : Nat → List Char) : Part → Template
  | plain template => template
  | tag template => ofCode (redundantAttributes.apply (template.fill value))

theorem fill_edited (value : Nat → List Char) (part : Part) : (part.edited value).fill value = part.left value := by
  cases part with
  | plain template => rfl
  | tag template => exact fill_ofCode

/-- Whether a tag is one that the pattern for opening tags takes. -/
def IsTag : Part → Prop
  | plain _ => True
  | tag template => ∃ prev behind parts, openingTag.Takes prev template.render behind parts

end Part

/-- A masked text from its parts. -/
def wholeOf (parts : List Part) : Template := parts.flatMap Part.template

/-- The masked text behind the edit of the tags. -/
def editedOf (value : Nat → List Char) (parts : List Part) : Template := parts.flatMap (Part.edited value)

variable {scanned masked : MaskedText} {text : List Char} {inner : Nat → Template} {source code template : Template}

theorem fill_editedOf (value : Nat → List Char) (parts : List Part) :
    (editedOf value parts).fill value = parts.flatMap (Part.left value) := by
  induction parts with
  | nil => rfl
  | cons part parts ih =>
    rw [editedOf, List.flatMap_cons, fill_append, Part.fill_edited, List.flatMap_cons, ← ih]
    rfl

theorem slots_editedOf_sublist (value : Nat → List Char) (parts : List Part) :
    (editedOf value parts).slots.Sublist (wholeOf parts).slots := by
  induction parts with
  | nil => exact .refl _
  | cons part parts ih =>
    rw [editedOf, wholeOf, List.flatMap_cons, List.flatMap_cons, slots_append, slots_append]
    refine List.Sublist.append ?_ ih
    cases part with
    | plain template => exact .refl _
    | tag template =>
      rw [Part.edited, slots_ofCode]
      exact List.nil_sublist _

/-- A tag that is given its values back holds no characters that mark placeholders. -/
theorem unmask_tag (h : Layout scanned masked text inner source code) (htext : Unreserved text)
    (hclean : template.Clean) (hslots : template.slots.Sublist code.slots) :
    masked.unmask template.render = template.fill (Layout.values scanned inner) ∧
      Unreserved (template.fill (Layout.values scanned inner)) := by
  have hkeeps : KeepsSlots True template code := ⟨hslots, fun hnot => absurd trivial hnot⟩
  refine ⟨(h.unmask_render htext hclean hkeeps).trans fill_expand, ?_⟩
  exact hclean.unreserved_fill fun index => (h.inner_clean index).unreserved_fill (h.unreserved_literalAt htext)

/-- The brackets of a tag are code, so a tag in a masked text is a template. -/
theorem exists_tag_split {kept taken rest behind : List Char} {prev : Option Char} {parts : Parts}
    (hrender : template.render = kept ++ (taken ++ rest)) (htakes : openingTag.Takes prev taken behind parts) :
    ∃ first tag last, template = first ++ (tag ++ last) ∧ first.render = kept ∧ tag.render = taken ∧
      last.render = rest := by
  obtain ⟨middle, rfl⟩ := exists_of_takes_openingTag htakes
  have hopen : template.render = kept ++ (['<'] ++ (middle ++ (['>'] ++ rest))) := by simp [hrender]
  obtain ⟨first, held, rfl, hfirst, hheld⟩ := exists_split hopen ⟨by decide, '<', by simp, rfl⟩
  obtain ⟨inside, last, rfl, hinside, hlast⟩ := exists_split hheld ⟨by decide, '>', by simp, rfl⟩
  exact ⟨first, ofCode ['<'] ++ (inside ++ ofCode ['>']), last, by simp, hfirst, by simp [hinside], hlast⟩

/-- An edit of the tags falls into parts. -/
theorem exists_parts_of_edits (h : Layout scanned masked text inner source code) (htext : Unreserved text)
    {edited out : List Char} {state final : Unit} (hedits : Edits (fun (_ : Unit) old new rest _ =>
        ∃ index prev found, openingTag.matchAt index prev (old ++ rest) = some found ∧ found.text = old ∧
          redundantAttributes.apply (masked.unmask found.text) = new) state edited out final)
    (hrender : template.render = edited) (hclean : template.Clean) (hslots : template.slots.Sublist code.slots) :
    ∃ parts : List Part, wholeOf parts = template ∧ (∀ part ∈ parts, part.IsTag) ∧
      (editedOf (Layout.values scanned inner) parts).Clean ∧
      (editedOf (Layout.values scanned inner) parts).render = out := by
  induction hedits generalizing template with
  | keep kept =>
    refine ⟨[.plain template], by simp [wholeOf, Part.template], by simp [Part.IsTag], ?_, ?_⟩
    · simpa [editedOf, Part.edited] using hclean
    · simpa [editedOf, Part.edited] using hrender
  | @swap _ _ _ kept old new rest out hswap _ ih =>
    obtain ⟨index, prev, found, hfound, rfl, rfl⟩ := hswap
    obtain ⟨_, _, -, htakes, -⟩ := Match.exists_takes hfound
    obtain ⟨first, tag, last, rfl, rfl, htag, hlast⟩ := exists_tag_split hrender htakes
    rw [← htag] at htakes ⊢
    obtain ⟨hfirst, hclean⟩ := clean_append.mp hclean
    obtain ⟨htagClean, hlastClean⟩ := clean_append.mp hclean
    rw [slots_append, slots_append] at hslots
    have htagSlots : tag.slots.Sublist code.slots :=
      ((List.sublist_append_left _ _).trans (List.sublist_append_right _ _)).trans hslots
    have hlastSlots : last.slots.Sublist code.slots :=
      ((List.sublist_append_right _ _).trans (List.sublist_append_right _ _)).trans hslots
    obtain ⟨parts, rfl, htags, hparts, rfl⟩ := ih hlast hlastClean hlastSlots
    obtain ⟨hunmask, hvalues⟩ := unmask_tag h htext htagClean htagSlots
    refine ⟨.plain first :: .tag tag :: parts, rfl, ?_, ?_, ?_⟩
    · exact List.forall_mem_cons.mpr ⟨trivial, List.forall_mem_cons.mpr ⟨⟨_, _, _, htakes⟩, htags⟩⟩
    · refine clean_append.mpr ⟨hfirst, clean_append.mpr ⟨clean_ofCode.mpr ?_, hparts⟩⟩
      exact hvalues.of_subset (redundantAttributes_sublist _).subset
    · rw [hunmask]
      simp [editedOf, Part.edited]

/-- What becomes of a masked text at the aggressive level. -/
theorem exists_parts (h : Layout scanned masked text inner source code) (htext : Unreserved text)
    (hclean : template.Clean) (hslots : template.slots.Sublist code.slots) :
    ∃ parts : List Part, wholeOf parts = template ∧ (∀ part ∈ parts, part.IsTag) ∧
      masked.unmask (dropRedundantAttributes masked template.render) =
        parts.flatMap (Part.left (Layout.values scanned inner)) := by
  obtain ⟨parts, hparts, htags, hpartsClean, hout⟩ :=
    exists_parts_of_edits h htext (edits_replaceAll openingTag _ template.render) rfl hclean hslots
  refine ⟨parts, hparts, htags, ?_⟩
  have hkeeps : KeepsSlots True (editedOf (Layout.values scanned inner) parts) code :=
    ⟨(slots_editedOf_sublist _ parts).trans (hparts ▸ hslots), fun hnot => absurd trivial hnot⟩
  have hedited : dropRedundantAttributes masked template.render =
      (editedOf (Layout.values scanned inner) parts).render := hout.symm
  rw [hedited, h.unmask_render htext hpartsClean hkeeps, fill_expand]
  exact fill_editedOf _ parts

/-- What stands in a part stands in the text. -/
theorem infix_flatMap_left {value : Nat → List Char} {parts : List Part} {part : Part} (h : part ∈ parts) :
    part.left value <:+: parts.flatMap (Part.left value) := by
  obtain ⟨first, last, rfl⟩ := List.append_of_mem h
  rw [List.flatMap_append, List.flatMap_cons]
  exact ⟨_, _, by rw [List.append_assoc]⟩

/-- An attribute of a part stays in it. -/
theorem infix_left_of_attribute {value : Nat → List Char} {part : Part} {a : Attribute} {c : Char}
    {before behind : List Char} (hpart : part.restored value = before ++ (c :: a.text ++ behind))
    (hc : Text.isBlank c = true) (ha : a.IsWellFormed) (hkept : ¬ a.LooksRedundant) (hvalue : ¬ a.Mentions) :
    c :: a.text <:+: part.left value := by
  cases part with
  | plain template => exact ⟨before, behind, by rw [List.append_assoc]; exact hpart.symm⟩
  | tag template =>
    obtain ⟨before', behind', happly⟩ := exists_apply_redundantAttributes ha hkept hvalue hc before behind
    have hleft : (Part.tag template).left value = before' ++ (c :: a.text ++ behind') := by
      rw [← happly, ← hpart]
      rfl
    exact ⟨before', behind', by rw [hleft, List.append_assoc]⟩

/-- How a document is minified at the aggressive level. Its masked text behind the rules, with the slots of all literals
in their order, falls into parts. The minified text has the literals back in these, and in a tag it lacks what the rule
for redundant attributes drops. -/
structure FallsInto (content : String) (options : Options) (scanned : MaskedText) (inner : Nat → Template)
    (source code : Template) (parts : List Part) : Prop where
  scan : Stages.scan .html options content.toList = .ok scanned
  layout : Layout scanned (Stages.prepare .html scanned) content.toList inner source code
  slots : (wholeOf parts).slots = code.slots
  render : (wholeOf parts).render = (pipeline options).run (Stages.prepare .html scanned).text
  tags : ∀ part ∈ parts, part.IsTag
  minified : (minify content .html options).minified.toList = parts.flatMap (Part.left (Layout.values scanned inner))

theorem exists_fallsInto {content : String} {options : Options} (haggressive : options.isAggressive = true)
    (herrors : (minify content .html options).errors = []) :
    ∃ scanned inner source code parts, FallsInto content options scanned inner source code parts := by
  rcases Stages.minified_cases (by decide) herrors with ⟨rfl, hminified⟩ | ⟨scanned, hscan, hminified⟩
  · have hscan := Stages.scan_nil .html options
    obtain ⟨inner, source, code, hlayout⟩ := Stages.exists_layout hscan
    have htext := Stages.prepare_nil .html
    obtain rfl : code = [] := eq_nil_of_render (hlayout.masked_text.symm.trans htext)
    refine ⟨_, inner, source, [], [], hscan, hlayout, rfl, ?_, List.forall_mem_nil _, by rw [hminified]; rfl⟩
    rw [htext, (each_shrinks options).run_eq_nil]
    rfl
  · obtain ⟨inner, source, code, hlayout⟩ := Stages.exists_layout hscan
    have htext : Unreserved content.toList :=
      MaskedText.unreserved_of_mask (Stages.mask_of_scan hscan)
    obtain ⟨result, hclean, hrender, hslots⟩ := Pipeline.carries_run keeping_eq (each_carries keeping_eq options)
      (Stages.prepare .html scanned).text code hlayout.clean hlayout.masked_text.symm
    obtain ⟨parts, rfl, htags, hunmask⟩ := exists_parts hlayout htext hclean (hslots ▸ .refl _)
    refine ⟨scanned, inner, source, code, parts, hscan, hlayout, hslots, hrender, htags, ?_⟩
    have hedit : Stages.edit .html options (Stages.prepare .html scanned) =
        dropRedundantAttributes (Stages.prepare .html scanned) (wholeOf parts).render := by
      rw [hrender]
      exact if_pos haggressive
    rw [hminified, hedit, hunmask]

/-- Where minifying a document at the aggressive level reports no error, an attribute with a value in quotes stands in
the minified text as it was, unless it looks redundant or its value mentions one of the listed names before an equals
sign. -/
theorem attributes_kept (content : String) (options : Options) (haggressive : options.isAggressive = true)
    (herrors : (minify content .html options).errors = []) :
    ∃ scanned inner source code parts, FallsInto content options scanned inner source code parts ∧
      ∀ part ∈ parts, ∀ (a : Attribute) (c : Char) (before behind : List Char),
        part.restored (Layout.values scanned inner) = before ++ (c :: a.text ++ behind) → Text.isBlank c = true →
        a.IsWellFormed → ¬ a.LooksRedundant → ¬ a.Mentions →
          c :: a.text <:+: (minify content .html options).minified.toList := by
  obtain ⟨scanned, inner, source, code, parts, h⟩ := exists_fallsInto haggressive herrors
  refine ⟨scanned, inner, source, code, parts, h, ?_⟩
  intro part hpart a c before behind hrestored hc ha hkept hvalue
  rw [h.minified]
  exact (infix_left_of_attribute hrestored hc ha hkept hvalue).trans (infix_flatMap_left hpart)

/-- A class with the name of an attribute that needs no value. -/
def classHidden : Attribute := ⟨"class".toList, [], [], '"', "hidden".toList⟩

theorem attributes_kept_classHidden :
    (classHidden.IsWellFormed ∧ ¬ classHidden.LooksRedundant ∧ ¬ classHidden.Mentions) ∧
      (minify "<p class=\"hidden\">x</p>" .html { level := .aggressive }).errors = [] ∧
      ∃ scanned inner source code parts,
        FallsInto "<p class=\"hidden\">x</p>" { level := .aggressive } scanned inner source code parts ∧
          ∀ part ∈ parts, ∀ before behind, part.restored (Layout.values scanned inner) =
            before ++ (' ' :: classHidden.text ++ behind) → ' ' :: classHidden.text <:+:
              (minify "<p class=\"hidden\">x</p>" .html { level := .aggressive }).minified.toList := by
  have hform : classHidden.IsWellFormed :=
    ⟨by decide, List.all_eq_true.mp rfl, List.forall_mem_nil _, List.forall_mem_nil _, Or.inl rfl, by decide⟩
  have hkept : ¬ classHidden.LooksRedundant := by
    rintro (⟨hname, -⟩ | ⟨front, name, hsplit, hedge, hname, -⟩)
    · exact absurd (List.Forall₂.length_eq hname) (by decide)
    · rcases List.eq_nil_or_concat' front with rfl | ⟨front, d, rfl⟩
      · obtain rfl : "class".toList = name := hsplit
        simp [SpellsOne, booleanNames, Spells] at hname
      · have hmem : d ∈ classHidden.name := by simp [hsplit]
        have hword : classHidden.name.all Text.isWord = true := rfl
        simp [List.all_eq_true.mp hword d hmem] at hedge
  have hvalue : ¬ classHidden.Mentions := by
    rintro ⟨front, name, blanks, rest, hsplit, -⟩
    have hmem : '=' ∈ classHidden.value := by simp [hsplit]
    exact absurd hmem (by decide)
  obtain ⟨scanned, inner, source, code, parts, h, hattributes⟩ :=
    attributes_kept "<p class=\"hidden\">x</p>" { level := .aggressive } rfl (by decide +kernel)
  refine ⟨⟨hform, hkept, hvalue⟩, by decide +kernel, scanned, inner, source, code, parts, h, ?_⟩
  intro part hpart before behind hrestored
  exact hattributes part hpart classHidden ' ' before behind hrestored rfl hform hkept hvalue

/-- Text within values is edited, and an attribute with a longer name than those listed loses its value. -/
theorem minify_lookalikes :
    minify "<p title=\"see type='text/css' here\">x</p>" .html { level := .aggressive } =
        .ofTexts "<p title=\"see type='text/css' here\">x</p>" "<p title=\"see here\">x</p>" [] ∧
      minify "<p data-t='<b checked=\"checked\">'>x</p>" .html { level := .aggressive } =
        .ofTexts "<p data-t='<b checked=\"checked\">'>x</p>" "<p data-t='<b checked>'>x</p>" [] ∧
      minify "<p data-hidden=\"hidden\">x</p>" .html { level := .aggressive } =
        .ofTexts "<p data-hidden=\"hidden\">x</p>" "<p data-hidden>x</p>" [] := by
  decide +kernel

end Markup

end Minifier
