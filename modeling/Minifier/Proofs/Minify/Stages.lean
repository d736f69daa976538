import Minifier.Minify
import Minifier.Proofs.Rule.Basic

/-!
What the minifiers of all languages but JSON have in common. A text is scanned, which may refuse it;
its masked form is edited; and the literals are put back. The languages differ in the lexer, in the
rules, and in what else they do at each stage.
-/

namespace Minifier.Stages

/-- The comments and literals of a language. -/
def lexer : Language → Lexer
  | .html => Markup.htmlLexer
  | .css => Style.lexer
  | .javascript | .typescript => Script.lexer
  | .xml => Markup.xmlLexer
  | other => Generic.lexer other.commentStyle

/-- Sets the comments and literals aside. A script in which a quote or the opening of a comment is left
is refused. -/
def scan (language : Language) (options : Options) (text : List Char) : Except Unsafe MaskedText := do
  let masked ← MaskedText.mask (lexer language) options.removeComments text
  match language with
  | .javascript | .typescript => Script.check masked.text
  | _ => pure ()
  return masked

/-- What is set aside after the scan: in HTML the attribute values that are left, those of elements with
an untouched body among them. -/
def prepare : Language → MaskedText → MaskedText
  | .html, masked => masked.maskAlso Markup.attributeValue
  | _, masked => masked

/-- The rules for the masked text of a language. -/
def rules (language : Language) (options : Options) : Pipeline :=
  match language with
  | .html | .xml => Markup.pipeline options
  | .css => Style.pipeline options
  | .javascript | .typescript => Script.pipeline options
  | other => Generic.pipeline other options

/-- The masked text after every edit. -/
def edit (language : Language) (options : Options) (masked : MaskedText) : List Char :=
  let code := (rules language options).run masked.text
  match language with
  | .html => if options.isAggressive then Markup.dropRedundantAttributes masked code else code
  | .javascript | .typescript => if options.mangles then (Mangle.mangle code).code else code
  | _ => code

/-- Below the aggressive level the rules are all there is to an edit. -/
theorem edit_eq {options : Options} (h : options.level ≠ .aggressive) (language : Language) (masked : MaskedText) :
    edit language options masked = (rules language options).run masked.text := by
  have haggressive : options.isAggressive = false := by simpa [Options.isAggressive] using h
  have hmangles : options.mangles = false := by rw [Options.mangles, haggressive, Bool.and_false]
  unfold edit
  rw [haggressive, hmangles]
  split <;> rfl

/-- The name under which an error of a language is recorded. -/
def label : Language → String
  | .html => "HTML"
  | .css => "CSS"
  | .javascript | .typescript => "JavaScript"
  | .xml => "XML"
  | other => other.name

/-- A transformation refuses the texts that the scan refuses. Any other text it edits and restores,
with warnings that are of no concern here. -/
def Restores (language : Language) (options : Options)
    (transform : List Char → Except Error (List Char × List String)) : Prop :=
  ∀ text, match scan language options text with
    | .error cause => transform text = .error (.ofUnsafe cause)
    | .ok scanned => ∃ warnings, transform text =
        .ok ((prepare language scanned).unmask (edit language options (prepare language scanned)),
          warnings)

/-- Languages other than scripts refuse nothing that can be masked. -/
theorem scan_eq_mask {language : Language} (hjs : language ≠ .javascript)
    (hts : language ≠ .typescript) (options : Options) (text : List Char) :
    scan language options text = MaskedText.mask (lexer language) options.removeComments text := by
  rw [scan]
  cases MaskedText.mask (lexer language) options.removeComments text with
  | error cause => rfl
  | ok masked =>
    cases language with
    | javascript => exact absurd rfl hjs
    | typescript => exact absurd rfl hts
    | _ => rfl

/-- Masking, editing and restoring, without anything to warn of. -/
private theorem restores_of_withoutWarnings {language : Language} {options : Options}
    {transform : List Char → Except Unsafe (List Char)}
    (hjs : language ≠ .javascript) (hts : language ≠ .typescript)
    (htransform : ∀ text, transform text = do
      let scanned ← MaskedText.mask (lexer language) options.removeComments text
      return (prepare language scanned).unmask (edit language options (prepare language scanned))) :
    Restores language options fun text => withoutWarnings (transform text) := by
  intro text
  rw [scan_eq_mask hjs hts]
  simp only [htransform]
  cases MaskedText.mask (lexer language) options.removeComments text with
  | error cause => rfl
  | ok scanned => exact ⟨[], rfl⟩

private theorem restores_script {language : Language}
    (hscript : language = .javascript ∨ language = .typescript) (options : Options) :
    Restores language options fun text =>
      (Script.minify text options).mapError Error.ofUnsafe := by
  intro text
  rcases hscript with rfl | rfl
  all_goals
    simp only [scan, Script.minify, lexer, prepare, edit, rules]
    cases MaskedText.mask Script.lexer options.removeComments text with
    | error cause => rfl
    | ok scanned =>
      simp only [bind, Except.bind]
      cases Script.check scanned.text with
      | error cause => rfl
      | ok _ =>
        cases options.mangles with
        | true => exact ⟨_, rfl⟩
        | false => exact ⟨_, rfl⟩

/-- Every language but JSON is minified by a transformation of this kind. -/
theorem exists_transform {language : Language} (hjson : language ≠ .json) (options : Options) :
    ∃ transform, Restores language options transform ∧
      ∀ content, minify content language options = guarded (label language) content transform := by
  cases language with
  | json => exact absurd rfl hjson
  | javascript => exact ⟨_, restores_script (Or.inl rfl) options, fun _ => rfl⟩
  | typescript => exact ⟨_, restores_script (Or.inr rfl) options, fun _ => rfl⟩
  | _ =>
    exact ⟨_, restores_of_withoutWarnings (by decide) (by decide) fun _ => rfl, fun _ => rfl⟩

end Minifier.Stages

/-!
## The rules of the pipelines

The options choose among the rules, and their order
matters to what a pipeline does; but what holds of every rule on offer holds of every rule that is
chosen. A rule that only some options let in has to have the property under these options alone.
-/

namespace Minifier

variable {property : Rule → Prop}

theorem Spacing.each_all_iff :
    Pipeline.Each property Spacing.all ↔
      property collapseWhitespace ∧ property collapseHorizontal ∧ property trimLines ∧
        property trailingSpace ∧ property innerSpaces ∧ property emptyLines ∧ property trimEnds := by
  simp [Pipeline.Each, all]

theorem Generic.each_pipeline (hshared : Pipeline.Each property Spacing.all)
    (hloose : property loosePunctuation) (hfree : property freePunctuation)
    (language : Language) (options : Options) : (pipeline language options).Each property := by
  obtain ⟨hwhitespace, hhorizontal, hlines, htrailing, hinner, hempty, hends⟩ :=
    Spacing.each_all_iff.mp hshared
  have hwithin (tighten : Bool) :
      Pipeline.Each property ([Spacing.collapseHorizontal, Spacing.trimLines] ++
        Pipeline.onlyIf tighten [loosePunctuation]) :=
    .append (.cons hhorizontal (.cons hlines .nil)) (.onlyIf fun _ => .cons hloose .nil)
  refine .append (.append (.onlyIf fun _ => ?_) (.onlyIf fun _ => ?_)) ?_
  · split
    · exact .cons htrailing (.cons hinner .nil)
    · exact hwithin _
    · split
      · exact hwithin _
      · exact .append (.cons hwhitespace .nil) (.onlyIf fun _ => .cons hfree .nil)
  · exact .cons hempty .nil
  · exact .cons hends .nil

theorem Markup.each_pipeline (hshared : Pipeline.Each property Spacing.all)
    (hinter : property interTag) (hinline : property interTagInline)
    (hclose : property tagCloseSpace) (options : Options) : (pipeline options).Each property := by
  obtain ⟨hwhitespace, hhorizontal, hlines, -, -, hempty, hends⟩ := Spacing.each_all_iff.mp hshared
  refine .append (.append (.onlyIf fun _ => ?_) (.onlyIf fun _ => ?_)) ?_
  · split
    · exact .append (.onlyIf fun _ => .cons hinline .nil) (.cons hhorizontal (.cons hlines .nil))
    · exact .append (.append (.onlyIf fun _ => .cons hinter .nil) (.cons hwhitespace .nil))
        (.onlyIf fun _ => .cons hclose .nil)
  · exact .cons hempty .nil
  · exact .cons hends .nil

theorem Style.each_pipeline {options : Options} (hshared : Pipeline.Each property Spacing.all)
    (hinline : property punctuationInline) (hfree : property punctuation)
    (haggressive : options.isAggressive = true →
      Pipeline.Each property [semicolonBrace, zeroUnits, leadingZero, fontWeight]) :
    (pipeline options).Each property := by
  obtain ⟨hwhitespace, hhorizontal, hlines, -, -, hempty, hends⟩ := Spacing.each_all_iff.mp hshared
  refine .append (.append (.append (.onlyIf fun _ => ?_) (.onlyIf fun _ => ?_))
    (.onlyIf haggressive)) ?_
  · split
    · exact .append (.cons hhorizontal (.cons hlines .nil)) (.onlyIf fun _ => .cons hinline .nil)
    · exact .append (.cons hwhitespace .nil) (.onlyIf fun _ => .cons hfree .nil)
  · exact .cons hempty .nil
  · exact .cons hends .nil

theorem Script.each_pipeline {options : Options}
    (hconsole : options.removeConsoleLog = true → property consoleCall)
    (hdebugger : options.removeDebugger = true → property debuggerStatement)
    (hshared : Pipeline.Each property Spacing.all) (hnewlines : property newlineRuns)
    (hinline : property punctuationInline) (hfree : property punctuation)
    (haggressive : options.isAggressive = true → property semicolonBrace) :
    (pipeline options).Each property := by
  obtain ⟨-, hhorizontal, hlines, -, -, hempty, hends⟩ := Spacing.each_all_iff.mp hshared
  refine .append (.append (.append (.append (.append (.onlyIf fun h => ?_) (.onlyIf fun h => ?_))
    (.onlyIf fun _ => ?_)) (.onlyIf fun _ => ?_)) (.onlyIf fun h => ?_)) ?_
  · exact .cons (hconsole h) .nil
  · exact .cons (hdebugger h) .nil
  · split
    · exact .append (.cons hhorizontal (.cons hlines .nil)) (.onlyIf fun _ => .cons hinline .nil)
    · exact .append (.cons hnewlines (.cons hhorizontal .nil)) (.onlyIf fun _ => .cons hfree .nil)
  · exact .cons hempty .nil
  · exact .cons (haggressive h) .nil
  · exact .cons hends .nil

end Minifier
