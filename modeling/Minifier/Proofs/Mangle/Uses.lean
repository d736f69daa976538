import Minifier.Proofs.Mangle.Declarations
import Minifier.Proofs.Minify.Literals
import Minifier.Proofs.Minify.RuleSizes

/-!
What mangling makes of the uses of a name in a minified script. The masked code is mangled and the literals are put back
as they were. So a name that has a short one is left in three places only: behind a point, behind a character that goes
on with a longer word, and inside a literal.

A point is taken for that of a member. The points of a spread operator are none, and what a template substitutes is no
part of the text around it; but a name is left in both, and is then a name that nothing declares.
-/

namespace Minifier

open Pattern Template

namespace Mangle

variable {code left behind name short : List Char}

/-- A short name is given to one that the code uses. -/
theorem mem_identifiers_of_mem_renamed (h : (name, short) ∈ (mangle code).renamed) : name ∈ identifiers code :=
  (isDeclared_of_mem (mem_declaredNames_of_mem_renamed h)).mem_identifiers

theorem uses_mangle (code : List Char) : uses (mangle code).code =
    (uses code).map fun name => ((mangle code).renamed.lookup name).getD name := by
  rw [mangle_eq, uses_rename fun _ => isName_of_mem_renamed]

/-- A name that has a short one is no longer in use. -/
theorem not_mem_uses_mangle (h : (name, short) ∈ (mangle code).renamed) : name ∉ uses (mangle code).code := by
  rw [uses_mangle, List.mem_map]
  rintro ⟨use, -, huse⟩
  cases hlookup : (mangle code).renamed.lookup use with
  | none =>
    obtain rfl : use = name := by simpa [hlookup] using huse
    rw [lookup_renamed h] at hlookup
    cases hlookup
  | some other =>
    obtain rfl : other = name := by simpa [hlookup] using huse
    -- A short name that were a name of the code would not have been free.
    obtain ⟨_, -, hfresh, -⟩ := exists_of_mem_renamed (mem_of_lookup_eq_some hlookup)
    exact hfresh (mem_identifiers_of_mem_renamed h)

end Mangle

theorem Script.run_pipeline_nil (options : Options) : (pipeline options).run [] = [] :=
  (Script.each_shrinks options).run_eq_nil

namespace Stages

variable {content : String} {language : Language} {options : Options}

/-- A minified script is its edited code with the literals put back as they were. -/
theorem exists_script (hscript : language = .javascript ∨ language = .typescript)
    (herrors : (minify content language options).errors = []) :
    ∃ scanned, scan language options content.toList = .ok scanned ∧
      ∃ source template : Template, content.toList = source.fill (literalAt scanned.literals) ∧
        KeepsSlots (DropsCalls language options) template source ∧
        template.render = edit language options scanned ∧
        (minify content language options).minified.toList = template.fill (literalAt scanned.literals) := by
  have hjson : language ≠ .json := by rcases hscript with rfl | rfl <;> decide
  have hhtml : language = .html → options.level ≠ .aggressive := by rcases hscript with rfl | rfl <;> simp
  have hprepare (scanned : MaskedText) : prepare language scanned = scanned := by
    rcases hscript with rfl | rfl <;> rfl
  rcases minified_cases hjson herrors with ⟨rfl, hminified⟩ | ⟨scanned, hscan, hminified⟩
  · have hedit : edit language options ⟨[], #[]⟩ = [] := by
      rcases hscript with rfl | rfl
      all_goals
        simp only [edit, rules, Script.run_pipeline_nil]
        split <;> rfl
    refine ⟨_, scan_nil language options, [], [], rfl, ⟨.refl _, fun _ => rfl⟩, hedit.symm, ?_⟩
    rw [hminified]
    rfl
  · obtain ⟨source, code, -, hlayout⟩ := Layout.exists_of_mask (stripsClean_lexer language) (mask_of_scan hscan)
    have hprepared : Layout scanned (prepare language scanned) content.toList (fun index => [.slot index]) source
        code := by
      rw [hprepare]
      exact hlayout
    obtain ⟨template, hkeeps, hrender, hunmask⟩ := exists_edited hhtml hscan hprepared
    have hsource := hlayout.keepsSlots_source hkeeps
    rw [expand_eq_self fun _ _ => rfl] at hsource hunmask
    rw [hprepare] at hrender hminified hunmask
    exact ⟨scanned, hscan, source, template, hlayout.text_eq, hsource, hrender, hminified.trans hunmask⟩

end Stages

/-- A minified script whose names are mangled is the mangled code with the literals put back as they were. A name that
has a short one gives way to it where it stands whole and alone in the code, and where it stands whole in the mangled
code, it does not stand alone. So it is left behind a point, which may be the last one of a spread operator, behind a
character that goes on with a longer word, and in the literals, of which a template is one with all that it substitutes.
-/
theorem minify_mangled {content : String} {language : Language} {options : Options}
    (hscript : language = .javascript ∨ language = .typescript) (hmangles : options.mangles = true)
    (herrors : (minify content language options).errors = []) :
    ∃ scanned code, Stages.scan language options content.toList = .ok scanned ∧
      code = (Script.pipeline options).run scanned.text ∧
      (∃ source template : Template, content.toList = source.fill (literalAt scanned.literals) ∧
        KeepsSlots (Stages.DropsCalls language options) template source ∧
        template.render = (Mangle.mangle code).code ∧
        (minify content language options).minified.toList = template.fill (literalAt scanned.literals)) ∧
      ∀ name short, (name, short) ∈ (Mangle.mangle code).renamed → name ∉ Mangle.uses (Mangle.mangle code).code ∧
        ∀ left behind, Mangle.IsWhole name left behind →
          (code = left ++ (name ++ behind) → (Mangle.mangle code).code =
            Mangle.rename (Mangle.mangle code).renamed left ++
              ((if Mangle.standsAlone left.getLast? then short else name) ++
                Mangle.rename (Mangle.mangle code).renamed behind)) ∧
          ((Mangle.mangle code).code = left ++ (name ++ behind) → Mangle.standsAlone left.getLast? = false) := by
  obtain ⟨scanned, hscan, source, template, hcontent, hkeeps, hrender, hminified⟩ :=
    Stages.exists_script hscript herrors
  have hedit : Stages.edit language options scanned =
      (Mangle.mangle ((Script.pipeline options).run scanned.text)).code := by
    rcases hscript with rfl | rfl <;> exact if_pos hmangles
  refine ⟨scanned, _, hscan, rfl, ⟨source, template, hcontent, hkeeps, hrender.trans hedit, hminified⟩, ?_⟩
  intro name short hshort
  have hunused := Mangle.not_mem_uses_mangle hshort
  refine ⟨hunused, fun left behind hwhole => ⟨fun hcode => ?_, fun hmangled => ?_⟩⟩
  · rw [hwhole.mangle_eq hcode, Mangle.lookup_renamed hshort, Option.getD_some]
  · by_contra halone
    rw [Bool.not_eq_false] at halone
    rw [hmangled] at hunused
    exact hunused (hwhole.mem_uses halone)

/-- The options under which names are mangled. -/
def mangling : Options := { level := .aggressive, mangleVariables := true }

/-- A name that is spread, substituted in a template, used alone and a member's. -/
def everyPlace : String := "let total=1;f(...total);g(\x60$\x7btotal\x7d\x60,total,this.total)"

/-- Its template is set aside as it is. -/
def everyPlaceMasked : MaskedText where
  text := "let total=1;f(...total);g(\ue0000\ue001,total,this.total)".toList
  literals := #["\x60$\x7btotal\x7d\x60".toList]

theorem minify_mangled_everyPlace :
    mangling.mangles = true ∧ (minify everyPlace .javascript mangling).errors = [] ∧
      Stages.scan .javascript mangling everyPlace.toList = .ok everyPlaceMasked ∧
      ∃ code, code = (Script.pipeline mangling).run everyPlaceMasked.text ∧
        ("total".toList, "a".toList) ∈ (Mangle.mangle code).renamed ∧
        "total".toList ∉ Mangle.uses (Mangle.mangle code).code := by
  have hmangles : mangling.mangles = true := rfl
  have herrors : (minify everyPlace .javascript mangling).errors = [] := by decide +kernel
  have hmasked : Stages.scan .javascript mangling everyPlace.toList = .ok everyPlaceMasked := by decide +kernel
  obtain ⟨scanned, code, hscan, hcode, -, hnames⟩ := minify_mangled (Or.inl rfl) hmangles herrors
  have heq : everyPlaceMasked = scanned := Except.ok.inj (hmasked.symm.trans hscan)
  have hrenamed : ("total".toList, "a".toList) ∈ (Mangle.mangle code).renamed := by
    rw [hcode, ← heq]
    decide +kernel
  rw [← heq] at hcode
  exact ⟨hmangles, herrors, hmasked, code, hcode, hrenamed, (hnames _ _ hrenamed).1⟩

/-- The operand of a spread operator and what a template substitutes keep a name that is declared under its short one.
-/
theorem minify_mangled_leaves_uses :
    (minify "let total = 1;\nf(...total);" .javascript mangling).minified = "let a=1;f(...total);" ∧
      (minify "let total = 1;\nf(\x60$\x7btotal\x7d\x60);" .javascript mangling).minified =
        "let a=1;f(\x60$\x7btotal\x7d\x60);" := by
  decide +kernel

end Minifier
