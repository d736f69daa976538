import Minifier.Proofs.Mangle.Uses
import Minifier.Proofs.Script.Loosening
import Minifier.Proofs.Script.RenamedCalls

/-!
What is left of calls of a console and of debugger statements in a minified script. The two rules run once, one after
the other, and before all others. The rules for blanks and the mangling of names behind them make no word and no call
that was not there, but for a name that is shortened to the word itself. So no word of a debugger statement is left; and
a call is left if its brackets lie too deep in each other, or if one of the two rules has put its head together.
-/

namespace Minifier

open Template Text

namespace Script

variable {options : Options} {text code : List Char}

/-! ### The rules -/

theorem not_holdsWord_run (hconsole : options.removeConsoleLog = true) (hdebugger : options.removeDebugger = true)
    (text : List Char) : ¬ HoldsWord "debugger".toList ((pipeline options).run text) := by
  obtain ⟨rest, hpipeline, hrest⟩ := exists_pipeline_eq hconsole hdebugger
  rw [hpipeline, Pipeline.run_cons, Pipeline.run_cons]
  intro h
  have hword : ∀ c ∈ "debugger".toList, Class.namePart c = true := List.all_eq_true.mp rfl
  exact not_holdsWord_debugger _ (of_run (fun hloosens h => h.of_loosens hword (by decide) hloosens) hrest _ h)

/-- Whether the rules for calls and debugger statements leave a call in a text: its brackets lie too deep in each other,
or one of the two rules puts its head together. -/
def LeavesCall (text : List Char) : Prop :=
  HoldsDeepCall text ∨ JoinsCall consoleCall text ∨ JoinsCall debuggerStatement (consoleCall.apply text)

theorem leavesCall_of_run (hconsole : options.removeConsoleLog = true) (hdebugger : options.removeDebugger = true)
    (h : HoldsCall ((pipeline options).run text)) : LeavesCall text := by
  obtain ⟨rest, hpipeline, hrest⟩ := exists_pipeline_eq hconsole hdebugger
  rw [hpipeline, Pipeline.run_cons, Pipeline.run_cons] at h
  have hdeleted := of_run (fun hloosens h => h.of_loosens hloosens) hrest _ h
  rcases holdsCall_of_debuggerStatement hdeleted with hcall | hjoins
  · exact (holdsDeepCall_of_consoleCall hcall).imp_right Or.inl
  · exact Or.inr (Or.inr hjoins)

/-! ### More passes -/

theorem debuggerStatement_apply_eq_self (h : ¬ HoldsWord "debugger".toList code) :
    debuggerStatement.apply code = code := by
  refine (deletesBalanced_debuggerStatement.apply_eq_self_or code).resolve_right ?_
  rintro ⟨before, _, _, hdeletes⟩
  obtain ⟨behind, htext, hbefore, hbehind, -⟩ := exists_of_deletes_debuggerStatement hdeletes
  exact h ⟨before, behind, htext, hbefore, hbehind⟩

theorem consoleCall_apply_eq_self (h : ¬ HoldsCall code) : consoleCall.apply code = code := by
  refine (deletesBalanced_consoleCall.apply_eq_self_or code).resolve_right ?_
  rintro ⟨before, _, behind, hdeletes⟩
  obtain ⟨htext, hbefore, @⟨member, blanks, inside, blanks', last, hmember, hblanks, hinside, -⟩⟩ :=
    isConsoleCall_of_deletes hdeletes
  exact h ⟨before, member ++ blanks, inside, blanks' ++ (last ++ behind), by simp [htext], hbefore,
    .mk hmember hblanks, 2, hinside⟩

end Script

theorem Stages.edit_script {language : Language} (hscript : language = .javascript ∨ language = .typescript)
    (options : Options) (scanned : MaskedText) :
    edit language options scanned =
      if options.mangles then (Mangle.mangle ((Script.pipeline options).run scanned.text)).code
      else (Script.pipeline options).run scanned.text := by
  rcases hscript with rfl | rfl <;> rfl

/-- Where the options delete both, no word of a debugger statement is left in the edited code, to which the literals are
put back, and so another pass of its rule changes nothing; nor does one of the rule for calls, if no call is left. A
call with balanced brackets that is left lies too deep in the scanned text, or one of the two rules has put its head
together, or a name is shortened to its first word. -/
theorem removed_constructs {content : String} {language : Language} {options : Options}
    (hscript : language = .javascript ∨ language = .typescript) (hconsole : options.removeConsoleLog = true)
    (hdebugger : options.removeDebugger = true) (herrors : (minify content language options).errors = []) :
    ∃ scanned code, Stages.scan language options content.toList = .ok scanned ∧
      code = Stages.edit language options scanned ∧
      (∃ template : Template, template.render = code ∧
        (minify content language options).minified.toList = template.fill (literalAt scanned.literals)) ∧
      ¬ Script.HoldsWord "debugger".toList code ∧ Script.debuggerStatement.apply code = code ∧
      (¬ Script.HoldsCall code → Script.consoleCall.apply code = code) ∧
      (Script.HoldsCall code → Script.LeavesCall scanned.text ∨ options.mangles = true ∧
        "console".toList ∈ (Mangle.mangle ((Script.pipeline options).run scanned.text)).renamed.map Prod.snd) := by
  obtain ⟨scanned, hscan, -, template, -, -, hrender, hminified⟩ := Stages.exists_script hscript herrors
  have hword : ¬ Script.HoldsWord "debugger".toList (Stages.edit language options scanned) := by
    intro h
    refine Script.not_holdsWord_run hconsole hdebugger scanned.text ?_
    rw [Stages.edit_script hscript] at h
    split at h
    · exact h.of_mangle (by decide)
    · exact h
  refine ⟨scanned, _, hscan, rfl, ⟨template, hrender, hminified⟩, hword,
    Script.debuggerStatement_apply_eq_self hword, Script.consoleCall_apply_eq_self, fun h => ?_⟩
  rw [Stages.edit_script hscript] at h
  split at h
  · rename_i hmangles
    refine or_iff_not_imp_right.mpr fun hfree => Script.leavesCall_of_run hconsole hdebugger ?_
    exact h.of_mangle fun hshort => hfree ⟨hmangles, hshort⟩
  · exact Or.inl (Script.leavesCall_of_run hconsole hdebugger h)

/-- A call with three levels of brackets in its brackets, and a call that is deleted in the brackets of another one. -/
def deepCalls : String := "console.log(a(b(c(d(1)))));\nconsole.log(a(console.log(b(c()))));\ndebugger;\nrun();"

theorem removed_constructs_deepCalls :
    Script.withoutCalls.removeConsoleLog = true ∧ Script.withoutCalls.removeDebugger = true ∧
      (minify deepCalls .javascript Script.withoutCalls).errors = [] ∧
      ∃ scanned code, Stages.scan .javascript Script.withoutCalls deepCalls.toList = .ok scanned ∧
        code = Stages.edit .javascript Script.withoutCalls scanned ∧ ¬ Script.HoldsWord "debugger".toList code ∧
        Script.debuggerStatement.apply code = code ∧ (Script.HoldsCall code → Script.LeavesCall scanned.text) := by
  have herrors : (minify deepCalls .javascript Script.withoutCalls).errors = [] := by decide +kernel
  obtain ⟨scanned, code, hscan, hcode, -, hword, happly, -, hcall⟩ :=
    removed_constructs (Or.inl rfl) rfl rfl herrors
  refine ⟨rfl, rfl, herrors, scanned, code, hscan, hcode, hword, happly, fun h => (hcall h).resolve_right ?_⟩
  rintro ⟨hmangles, -⟩
  exact absurd hmangles (by decide)

/-- Calls that lie too deep, that hold a deleted one, and whose heads the two rules put together. Another pass leaves the
first one again. -/
theorem removed_constructs_left :
    (minify "console.log(a(b(c(d(1)))));\nrun();" .javascript Script.withoutCalls).minified =
        "console.log(a(b(c(d(1)))));run();" ∧
      (minify "console.log(a(b(c(d(1)))));run();" .javascript Script.withoutCalls).minified =
        "console.log(a(b(c(d(1)))));run();" ∧
      (minify "console.log(a(console.log(b(c()))));\nrun();" .javascript Script.withoutCalls).minified =
        "console.log(a());run();" ∧
      (minify "console.debugger;\nlog(1);\nrun();" .javascript Script.withoutCalls).minified =
        "console.\nlog(1);run();" ∧
      (minify "console\nconsole.log(1).log(2);\nrun();" .javascript Script.withoutCalls).minified =
        "console\n.log(2);run();" ∧
      Script.HoldsCall "console.log(a(b(c(d(1)))));run();".toList ∧
      Script.HoldsCall "console.\nlog(1);run();".toList := by
  have hcall : ∀ (blanks : List Char) {inside behind : List Char}, (∀ c ∈ blanks, isBlank c = true) →
      Script.Balanced inside → Script.HoldsCall ("console".toList ++ [] ++ ['.'] ++ blanks ++ "log".toList ++ [] ++
        '(' :: (inside ++ ')' :: behind)) := fun blanks inside behind hblanks hinside =>
    ⟨[], _, inside, behind, rfl, rfl, .mk (.mk (List.forall_mem_nil _) hblanks (by decide)) (List.forall_mem_nil _),
      hinside⟩
  have hone : Script.Balanced "1".toList := .of_forall isWord rfl (List.all_eq_true.mp rfl)
  have hwrap : ∀ {c : Char} {inside : List Char}, c ∉ ['(', ')'] → Script.Balanced inside →
      Script.Balanced (c :: '(' :: (inside ++ [')'])) := fun hc hinside => by
    obtain ⟨n, hn⟩ := hinside.brackets ⟨0, .nil⟩
    exact ⟨n, .plain hc hn⟩
  have hdeep : Script.Balanced "a(b(c(d(1))))".toList :=
    hwrap (by decide) (hwrap (by decide) (hwrap (by decide) (hwrap (by decide) hone)))
  exact ⟨by decide +kernel, by decide +kernel, by decide +kernel, by decide +kernel, by decide +kernel,
    hcall [] (List.forall_mem_nil _) hdeep, hcall ['\n'] (List.all_eq_true.mp rfl) hone⟩

end Minifier
