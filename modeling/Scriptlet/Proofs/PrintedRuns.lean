import Scriptlet.Proofs.RoundTrip
import Scriptlet.Proofs.RunsAlike

/-!
Printing a program and running the text. The printer puts braces around an `if` without `else` that
stands before an `else`, and the braces make a block with a scope of its own. A run does not notice them
if no name is bound in that scope (`run_print`). A name that is bound there is lost to the statements
behind (`run_print_loses_name`).
-/

namespace Scriptlet

/-- A program and what is parsed from its printed text run alike, provided that nothing is bound by the
statements that get braces. -/
theorem run_print (table : KeywordTable) (hp : table.Proper) (spell : Printer.Spelling) (p : Program)
    (hatoms : ∀ a ∈ p.atoms, a.Writable table spell ∨
      ∃ n : Int, a = .number (.int n) ∧ 0 ≤ n ∧ n.natAbs < 10 ^ Decimal.digitLimit)
    (hdeclares : ∀ s ∈ p.body, s.Declares) (hscopes : Stmt.keepAllScopes p.body = true)
    (hroom : p.toTree.print spell ≠ .error .tooDeep)
    (hdepth : ∀ text span, p.toTree.print spell = .ok (.text text) →
      parse table text ≠ .error (.tooDeep span)) :
    ∃ text q, p.toTree.print spell = .ok (.text text) ∧ parse table text = .ok q ∧
      ∀ (input : String) (cfg : Config) (r r' : Outcome × Machine),
        (Machine.initial input).run cfg p.toTree = r → (Machine.initial input).run cfg q.toTree = r' →
        ¬ r.1.OutOfRoom → ¬ r'.1.OutOfRoom →
        r.1.Like r'.1 ∧ r.2.output = r'.2.output ∧ r.2.trace = r'.2.trace ∧
          r.2.shownGlobals = r'.2.shownGlobals := by
  have hwritable : ∀ a ∈ p.atoms, a.Writable table spell := by
    intro a ha
    rcases hatoms a ha with hwritable | ⟨n, rfl, hnonneg, hlimit⟩
    · exact hwritable
    · exact Number.readsBack_int hnonneg hlimit
  obtain ⟨text, q, hprint, hq, herase⟩ := parse_of_prints hp hwritable hdeclares hroom hdepth
  refine ⟨text, q, hprint, hq, ?_⟩
  rintro input cfg _ _ rfl rfl hleft hright
  have hlike := Stmt.like_of_bracedAll hscopes herase.symm
  have hglobal : Stands ⟨[0], [0]⟩ true Machine.globalScope Machine.globalScope :=
    ⟨rfl, fun _ => rfl⟩
  rcases Machine.run_alike cfg hlike (.initial input) hglobal with
    hout | hout | ⟨houtcome, Q, hle, hpaired⟩
  · exact absurd hout hleft
  · exact absurd hout hright
  · have hglobals := hpaired.shownGlobals (Pairing.home_mono hle rfl)
    obtain ⟨scopes, heq⟩ := hpaired.others
    refine ⟨houtcome, ?_, ?_, hglobals⟩
    · rw [heq]
    · rw [heq]
      rfl

/-- A dangling `if` around a statement, with an `else` behind it; then a name is shown. -/
def dangling (body : Stmt) : List Stmt :=
  [.ifElse (.literal (.bool true) .nowhere) (.ifThen (.literal (.bool true) .nowhere) body .nowhere)
      (.empty .nowhere) .nowhere,
   .expr (.call (.ident ⟨"print", .nowhere⟩) [.ident ⟨"x", .nowhere⟩] .nowhere) .nowhere]

/-- `let x = b;` -/
def bindX (b : Bool) : Stmt :=
  .variables [⟨⟨"x", .nowhere⟩, some (.literal (.bool b) .nowhere), .nowhere⟩] .nowhere

/-- `let x = false; if (true) { if (true) x = true; } else ; print(x);` without the braces. -/
def assigning : Program :=
  ⟨bindX false :: dangling (.expr (.assign .set ⟨"x", .nowhere⟩ (.literal (.bool true) .nowhere)
    .nowhere) .nowhere), .nowhere⟩

/-- A name of an outer scope is assigned to within the braces. -/
theorem run_print_dangling :
    Stmt.keepAllScopes assigning.body = true ∧
      ∃ text q, assigning.toTree.print Keyword.english = .ok (.text text) ∧
        parse .default text = .ok q ∧
        ∀ (input : String) (cfg : Config) (r r' : Outcome × Machine),
          (Machine.initial input).run cfg assigning.toTree = r →
          (Machine.initial input).run cfg q.toTree = r' → ¬ r.1.OutOfRoom → ¬ r'.1.OutOfRoom →
          r.1.Like r'.1 ∧ r.2.output = r'.2.output ∧ r.2.trace = r'.2.trace ∧
            r.2.shownGlobals = r'.2.shownGlobals := by
  obtain ⟨hroom, hdepth⟩ := shallow_of_display (by decide +kernel :
    (assigning.toTree.print Keyword.english).map Tree.display = .ok
      "let x = false;\nif (true) \x7b\n    if (true) (x = true);\n\x7d else ;\nprint(x);\n")
    (by decide +kernel : (parse .default _).isOk = true)
  have hwritable : ∀ a ∈ assigning.atoms, a.Writable .default Keyword.english := by decide +kernel
  refine ⟨by decide, run_print .default KeywordTable.default_proper Keyword.english assigning
    (fun a ha => .inl (hwritable a ha)) ?_ (by decide) hroom hdepth⟩
  simp [assigning, bindX, dangling, Stmt.Declares]

/-- A name that is bound within the braces is not bound behind them. -/
theorem run_print_loses_name :
    ∃ (p : Program) (text : String) (q : Program), p.body = dangling (bindX true) ∧
      p.toTree.print Keyword.english = .ok (.text text) ∧ parse .default text = .ok q ∧
      ((Machine.initial "").run { fuel := 1 } p.toTree).2.output = "true\n" ∧
      ((Machine.initial "").run { fuel := 1 } q.toTree).2.output = "" := by
  obtain ⟨q, hq, houtput⟩ := exists_ok_of_map (by decide +kernel :
    (parse .default "if (true) \x7b\n    if (true) let x = true;\n\x7d else ;\nprint(x);\n").map
      (fun q => ((Machine.initial "").run { fuel := 1 } q.toTree).2.output) = .ok "")
  exact ⟨⟨dangling (bindX true), .nowhere⟩, _, q, rfl, by rfl, hq, by decide +kernel, houtput⟩

end Scriptlet
