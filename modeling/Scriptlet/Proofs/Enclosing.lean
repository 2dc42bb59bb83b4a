import Scriptlet.Proofs.RoundTrip

/-!
Built programs. A program that was not read from a text may have an `if` without `else` at the end of
the first branch of another `if`, where its text alone would hand it the `else`. Such a branch is
enclosed in a block when the program is printed, and this is the only difference to what is read from
the text (`parse_print_enclosed`).
-/

namespace Scriptlet

/-- The part of a statement that its text ends with, as far as an `else` behind it could belong there. -/
def Stmt.trailing : Stmt → Stmt
  | .ifElse _ _ alternate _ => alternate.trailing
  | .whileLoop _ body _ | .forLoop _ _ _ body _ => body.trailing
  | s => s

/-- An `if` without `else`. -/
def Stmt.isOpenIf : Stmt → Bool
  | .ifThen .. => true
  | _ => false

mutual

/-- Every first branch of an `if` with `else` that has an `if` without `else` as its trailing part
becomes a block of its own, here and in all parts. -/
def Stmt.enclosed : Stmt → Stmt
  | .ifElse test consequent alternate span =>
    .ifElse test
      (if consequent.trailing.isOpenIf then .block [consequent.enclosed] consequent.span
        else consequent.enclosed)
      alternate.enclosed span
  | .ifThen test consequent span => .ifThen test consequent.enclosed span
  | .whileLoop test body span => .whileLoop test body.enclosed span
  | .doLoop body test span => .doLoop body.enclosed test span
  | .forLoop init test update body span => .forLoop init test update body.enclosed span
  | .block body span => .block (Stmt.enclosedAll body) span
  | .function name params body bodySpan span =>
    .function name params (Stmt.enclosedAll body) bodySpan span
  | s => s

def Stmt.enclosedAll : List Stmt → List Stmt
  | [] => []
  | s :: rest => s.enclosed :: Stmt.enclosedAll rest

end

def Program.enclosed (p : Program) : Program :=
  ⟨Stmt.enclosedAll p.body, p.span⟩

/-- A statement would take an `else` behind it exactly if its trailing part is an `if` without one. -/
theorem Stmt.dangles_eq : ∀ s : Stmt, s.dangles = s.trailing.isOpenIf
  | .ifElse _ _ alternate _ => alternate.dangles_eq
  | .whileLoop _ body _ | .forLoop _ _ _ body _ => body.dangles_eq
  | .ifThen .. | .expr .. | .variables .. | .block .. | .empty _ | .doLoop .. | .function ..
  | .ret .. => rfl

mutual

/-- The braces of the printer enclose these branches and nothing else. -/
theorem Stmt.braced_eq (s : Stmt) : s.braced = s.enclosed := by
  cases s with
  | ifElse test consequent alternate span =>
    rw [Stmt.braced, Stmt.enclosed, Stmt.dangles_eq, Stmt.braced_eq consequent,
      Stmt.braced_eq alternate]
  | ifThen test body span | whileLoop test body span | doLoop body test span
  | forLoop init test update body span =>
    rw [Stmt.braced, Stmt.enclosed, Stmt.braced_eq body]
  | block body span | function name params body bodySpan span =>
    rw [Stmt.braced, Stmt.enclosed, Stmt.bracedAll_eq body]
  | expr | «variables» | empty | ret => rfl

theorem Stmt.bracedAll_eq (list : List Stmt) : Stmt.bracedAll list = Stmt.enclosedAll list := by
  cases list with
  | nil => rfl
  | cons s rest => rw [Stmt.bracedAll, Stmt.enclosedAll, Stmt.braced_eq s, Stmt.bracedAll_eq rest]

end

/-- Printing a built program and parsing the text gives the program with its enclosed branches, apart
from places. -/
theorem parse_print_enclosed (table : KeywordTable) (hp : table.Proper) (spell : Printer.Spelling)
    (p : Program)
    (hatoms : ∀ a ∈ p.atoms, a.Writable table spell ∨
      ∃ n : Nat, a = .number (.int n) ∧ n < 10 ^ Decimal.digitLimit)
    (hdeclares : ∀ s ∈ p.body, s.Declares)
    (hroom : p.toTree.print spell ≠ .error .tooDeep)
    (hdepth : ∀ text span, p.toTree.print spell = .ok (.text text) →
      parse table text ≠ .error (.tooDeep span)) :
    ∃ text q, p.toTree.print spell = .ok (.text text) ∧ parse table text = .ok q ∧
      q.erase = p.enclosed.erase := by
  have hwritable : ∀ a ∈ p.atoms, a.Writable table spell := by
    intro a ha
    rcases hatoms a ha with hwritable | ⟨n, rfl, hlimit⟩
    · exact hwritable
    · exact Number.readsBack_int (Int.natCast_nonneg n) hlimit
  obtain ⟨text, q, hprint, hq, herase⟩ := parse_of_prints hp hwritable hdeclares hroom hdepth
  rw [Stmt.bracedAll_eq] at herase
  exact ⟨text, q, hprint, hq, Program.erase_congr herase⟩

/-- `if (a) while (b) if (c) f('"'); else for (;;) if (d) f("'"); else ;`, where the last `else` belongs to
the first `if` and the other one to the second. -/
def trailingLoops : Program :=
  ⟨[.ifElse (.ident ⟨"a", .nowhere⟩)
      (.whileLoop (.ident ⟨"b", .nowhere⟩)
        (.ifElse (.ident ⟨"c", .nowhere⟩) (callF "\"")
          (.forLoop none none none (.ifThen (.ident ⟨"d", .nowhere⟩) (callF "'") .nowhere)
            .nowhere) .nowhere) .nowhere)
      (.empty .nowhere) .nowhere], .nowhere⟩
where
  callF (s : String) : Stmt :=
    .expr (.call (.ident ⟨"f", .nowhere⟩) [.literal (.text s) .nowhere] .nowhere) .nowhere

/-- The `while` loop is enclosed because of the last `if` in it. -/
theorem parse_print_enclosed_trailing :
    (∃ loop, trailingLoops.enclosed.body =
      [.ifElse (.ident ⟨"a", .nowhere⟩) (.block [loop] .nowhere) (.empty .nowhere) .nowhere]) ∧
    ∃ text q, trailingLoops.toTree.print Keyword.english = .ok (.text text) ∧
      parse .default text = .ok q ∧ q.erase = trailingLoops.enclosed.erase := by
  obtain ⟨hroom, hdepth⟩ := shallow_of_display (by decide +kernel :
    (trailingLoops.toTree.print Keyword.english).map Tree.display = .ok
      "if (a) \x7b\n    while (b) if (c) f('\"'); else for (;;) if (d) f(\"'\");\n\x7d else ;\n")
    (by decide +kernel : (parse .default _).isOk = true)
  have hwritable : ∀ a ∈ trailingLoops.atoms, a.Writable .default Keyword.english := by
    decide +kernel
  refine ⟨⟨_, rfl⟩, parse_print_enclosed .default KeywordTable.default_proper Keyword.english
    trailingLoops (fun a ha => .inl (hwritable a ha)) ?_ hroom hdepth⟩
  simp [trailingLoops, trailingLoops.callF, Stmt.Declares]

end Scriptlet
