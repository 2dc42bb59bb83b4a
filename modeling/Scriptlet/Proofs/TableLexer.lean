import Scriptlet.Proofs.Lexemes

/-!
Both parsers cut a text into the same tokens, if every keyword is a name that belongs to one kind, since the
first match is the same at every place.
-/

namespace Scriptlet.Lexer

open Text

variable {table : KeywordTable}

section

variable {first second : List Rule} (h : ∀ c, firstMatch first c = firstMatch second c)
include h

theorem nextWithin_of_firstMatch (bound : Nat) (c : Cursor) :
    nextWithin first bound c = nextWithin second bound c := by
  induction bound generalizing c with
  | zero => rfl
  | succ bound ih => simp only [nextWithin, h, ih]

theorem collect_of_firstMatch (bound : Nat) (c : Cursor) :
    collect first bound c = collect second bound c := by
  induction bound generalizing c with
  | zero => rfl
  | succ bound ih => simp only [collect, nextWithin_of_firstMatch h, ih]

end

/-- Both parsers cut a text into the same tokens. -/
theorem scan_lexerRules (hp : table.Proper) (source : String) :
    scan (Grammar.lexerRules table) source = scan (rules table) source :=
  collect_of_firstMatch (firstMatch_lexerRules hp) _ _

/-- A grammar can be written for such keywords. -/
theorem fault?_eq_none (hp : table.Proper) : table.fault? = none := by
  have hany : ∀ k {c}, isWord c = false → (table.spellings k).any (·.contains c) = false := by
    intro k c hc
    refine List.any_eq_false.2 fun s hs h => ?_
    rw [String.contains_char_eq, decide_eq_true_eq] at h
    rw [(hp.isName hs).isWord c h] at hc
    cases hc
  have hpattern : ∀ k, KeywordTable.patternFault? (table.spellings k) = none := by
    intro k
    rw [KeywordTable.patternFault?, hany k (by decide), hany k (by decide)]
    rfl
  have hempty : Keyword.all.any (fun k => (table.spellings k).contains "") = false :=
    List.any_eq_false.2 fun k _ h => hp.ne_empty k (List.contains_iff_mem.1 h)
  rw [KeywordTable.fault?, List.findSome?_eq_none_iff.2 fun k _ => hpattern k, hempty]
  rfl

end Scriptlet.Lexer
