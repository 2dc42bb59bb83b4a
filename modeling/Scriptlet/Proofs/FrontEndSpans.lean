import Scriptlet.Proofs.FrontEnds
import Scriptlet.Proofs.Places
import Scriptlet.Proofs.Ungrouped

/-!
Where the two parsers place their nodes. The table-driven parser lets a node cover all its tokens, the
parentheses around its parts included, but joined operands reach only from one to the other. The descent
parser starts a node with its first part and ends it with its last token. Where nothing is grouped these
are the same places, and tokens derive at most one program with its places.
-/

namespace Scriptlet

open Scriptlet.Parser (Level)

/-! ## Nodes over their tokens -/

/-- An operator is followed by what is flat and does not start with a parenthesis. -/
theorem Flat.right {w v : List Token} {t : Token} {level : Level} (h : Flat (w ++ t :: v))
    (ht : t.type = level.type) : Flat v ∧ headType v .endOfInput ≠ .parenStart := by
  have hright := List.isChain_cons.1 (List.isChain_append.1 h).2.1
  refine ⟨hright.2, ?_⟩
  cases v with
  | nil => decide
  | cons u v => exact hright.1 u rfl (by rw [ht]; cases level <;> decide)

theorem Placing.loose_covers : Placing.loose.Covers where
  whole _ _ := rfl
  joined {level _ _ w v t left right} hl ht hr := by
    intro hstart hflat
    obtain ⟨hv, hhead⟩ := hflat.right ht
    have hright : right.span = covered v := hr.lead_covered hhead hv _ rfl
    have hend : endOf 0 (t :: v) = endOf 0 v := Parser.endOf_of_ne_nil hr.expr_opens.ne_nil _ _
    rw [Parser.covered_append hl.expr_opens.ne_nil (List.cons_ne_nil t v), hend, hstart,
      Parser.startOf_append hl.expr_opens.ne_nil, hright]
    rfl

/-! ## The two parsers -/

/-- Every opening parenthesis among the tokens belongs to a call, a condition, a loop or a function, so none
is left that groups an expression. -/
def Program.Ungrouped (p : Program) (w : List Token) : Prop :=
  tally .parenStart w = p.openings

theorem Program.openings_erase (p : Program) : p.erase.openings = p.openings :=
  Stmt.openingsAll_eraseAll p.body

theorem Grammar.span_of_parseTokens {length : Nat} {tokens : Lexer.Tokens} {p : Program}
    (h : Grammar.parseTokens length tokens = .ok p) : p.span = ⟨0, length⟩ := by
  unfold Grammar.parseTokens at h
  dsimp only at h
  split at h
  · unfold Grammar.finish at h
    split at h
    · cases h
    · split at h
      · cases h
        rfl
      · cases h
        rfl
      · cases h
  · cases h
  · cases h
  · cases h

/-- Where nothing is grouped the parsers agree on every place: what both accept, they give one and the same
program for. -/
theorem parsers_place_alike (table : KeywordTable) (hp : table.Proper) (source : String) (p q : Program)
    (h : parse table source = .ok p) (hq : (Grammar.Cache.parse {} table source).1 = .ok q)
    (hu : p.Ungrouped (Lexer.scan (Lexer.rules table) source).tokens) : q = p := by
  have hparse : Grammar.parse table source = .ok q := hq
  obtain ⟨p', hp', herase⟩ := parse_of_table_parse hp (fun span => by rw [h]; rintro ⟨⟩) hparse
  cases hp'.symm.trans h
  obtain ⟨eof, heof, htype⟩ := exists_end_of_parse hp.ne_empty h
  rw [Grammar.parse_eq hp] at hparse
  obtain ⟨-, -, -, hwhole⟩ := Grammar.derivesWhole_of_parseTokens Placing.loose_covers
    (Lexer.regular_scan table source) hparse
  have huq : q.Ungrouped (Lexer.scan (Lexer.rules table) source).tokens := by
    rw [Program.Ungrouped, ← q.openings_erase, ← herase, p.openings_erase]
    exact hu
  have hbody : q.body = p.body :=
    Parser.body_unique (hwhole.derives.tighten huq).2 (derives_of_parse heof htype h)
  have hspan : q.span = p.span := by
    rw [Grammar.span_of_parseTokens hparse, span_of_parse heof h]
  cases p
  cases q
  congr

/-- Calls, a condition and a loop, and no other parentheses. -/
theorem parsers_place_alike_loop :
    ∃ p, parse .default "if (a < f(b)) x = -a * f()(c); else while (d) g(1);" = .ok p ∧
      p.Ungrouped (Lexer.scan (Lexer.rules .default)
        "if (a < f(b)) x = -a * f()(c); else while (d) g(1);").tokens ∧
      (Grammar.Cache.parse {} .default "if (a < f(b)) x = -a * f()(c); else while (d) g(1);").1 =
        .ok p := by
  have hproper := KeywordTable.default_proper
  obtain ⟨p, h, hopenings⟩ := exists_ok_of_map (by decide +kernel :
    (parse .default "if (a < f(b)) x = -a * f()(c); else while (d) g(1);").map (·.openings) = .ok 6)
  have hu : p.Ungrouped (Lexer.scan (Lexer.rules .default)
      "if (a < f(b)) x = -a * f()(c); else while (d) g(1);").tokens := by
    rw [Program.Ungrouped, hopenings]
    decide +kernel
  obtain ⟨eof, heof, htype⟩ := exists_end_of_parse hproper.ne_empty h
  obtain ⟨q, hq, -⟩ := table_parse_of_derivesWhole hproper
    (Grammar.parse_ne_tooDeep hproper (by decide +kernel)) heof htype
    (derivesWhole_iff.2 ⟨(derives_of_parse heof htype h).program, .inl (by decide +kernel)⟩)
  exact ⟨p, h, hu, parsers_place_alike .default hproper _ p q h hq hu ▸ hq⟩

end Scriptlet
