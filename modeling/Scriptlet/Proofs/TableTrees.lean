import Mathlib.Data.List.Basic
import Scriptlet.Grammar.Parse
import Scriptlet.Proofs.ParserSteps
import Scriptlet.Proofs.TableCheck

/-!
The productions of the language read as a relation between symbols and tokens, and the table parser
against it. The tables pass the check, so the parser accepts exactly the tokens that the productions
read as a whole text, and makes of them what the productions make.

The only choice that the productions leave is where an `else` belongs; the parser shifts it, so the
production of an `if` without `else` gives way to it.
-/

namespace Scriptlet

/-! ## Numbers of symbols -/

theorem TokenType.mem_all (type : TokenType) : type ∈ TokenType.all := by
  cases type with
  | keyword k => cases k <;> decide
  | _ => decide

theorem Nonterminal.mem_all (n : Nonterminal) : n ∈ Nonterminal.all := by
  cases n with
  | layer level | moreOperands level => cases level <;> decide
  | _ => decide

theorem Symbol.number_terminal_lt (type : TokenType) :
    (Symbol.terminal type).number < TokenType.all.length :=
  List.idxOf_lt_length_of_mem type.mem_all

theorem Symbol.number_inj {x y : Symbol} (h : x.number = y.number) : x = y := by
  cases x with
  | terminal type =>
    have hlt := number_terminal_lt type
    cases y with
    | terminal type' => rw [(List.idxOf_inj type.mem_all).1 h]
    | nonterminal n => exact absurd (h ▸ hlt) (Nat.not_lt.2 (Nat.le_add_right ..))
  | nonterminal n =>
    cases y with
    | terminal type =>
      exact absurd (h ▸ number_terminal_lt type) (Nat.not_lt.2 (Nat.le_add_right ..))
    | nonterminal n' => rw [(List.idxOf_inj n.mem_all).1 (Nat.add_left_cancel h)]

namespace Grammar

/-! ## The tables pass -/

/-- A production gives way to a terminal: an `if` without `else` does so to `else`. -/
def defers (production terminal : Nat) : Bool :=
  terminal == (Symbol.terminal (.keyword .kwElse)).number && decide (formOf production = .ifThen)

theorem tables_deterministic :
    Lr.Grammar.Deterministic numbered (Symbol.nonterminal .root).number
      (Symbol.nonterminal .start).number (fun p t => defers p t = true) :=
  Lr.Grammar.deterministic_of_check (n := 200) (by decide +kernel)

theorem terminalOf_lt (t : Token) : terminalOf t < numbered.terminals :=
  Symbol.number_terminal_lt t.type

theorem terminalOf_eq_end {t : Token} : terminalOf t = numbered.endOfInput ↔ t.type = .endOfInput := by
  have hend : numbered.endOfInput = (Symbol.terminal .endOfInput).number := by decide
  rw [hend]
  constructor
  · intro h
    simpa using Symbol.number_inj h
  · intro h
    rw [terminalOf, h]

/-! ## What the productions read -/

/-- What a form makes of the attributes of its parts. -/
def Form.apply (form : Form) (parts : List Attribute) : Attribute :=
  { span := coveredSpan parts
    height := if Form.nests form then parts.foldl (fun h a => max h a.height) 0 + 1
      else parts.foldl (fun h a => max h a.height) 0
    part := do
      let inside ← parts.mapM (·.part)
      (assemble form (coveredSpan parts) inside).getD (.ok (.stmts [])) }

theorem nodeMeaning_eq {i : Nat} {r : Rule} (h : rules[i]? = some r) (parts : List Attribute) :
    nodeMeaning i parts = Form.apply r.form parts := by
  have hform : formOf i = r.form := by rw [formOf, h]; rfl
  rw [← hform]
  rfl

/-- In front of a token of type `next`, the productions read the tokens as the symbols; given is what
they make of each symbol. -/
inductive Builds : TokenType → List Symbol → List Token → List Attribute → Prop
  | nil {next : TokenType} : Builds next [] [] []
  | token {next : TokenType} {t : Token} {symbols : List Symbol} {w : List Token}
      {parts : List Attribute} (h : Builds next symbols w parts) :
      Builds next (.terminal t.type :: symbols) (t :: w) (meaning.leaf t :: parts)
  | rule {next : TokenType} {r : Rule} {symbols : List Symbol} {v w : List Token}
      {inner parts : List Attribute} (hr : r ∈ rules) (hi : Builds (headType w next) r.right v inner)
      (hd : r.form = .ifThen → headType w next ≠ .keyword .kwElse)
      (h : Builds next symbols w parts) :
      Builds next (.nonterminal r.left :: symbols) (v ++ w) (Form.apply r.form inner :: parts)

/-- A symbol for a text as a whole, which may be empty. -/
def isWhole (s : Symbol) : Bool :=
  s = .nonterminal .root || s = .nonterminal .start

/-- What stands for a text as a whole stands alone. -/
theorem rules_whole : ∀ r ∈ rules, ∀ s ∈ r.right, isWhole s = true → r.right = [s] := by
  decide +kernel

theorem rules_solid : ∀ r ∈ rules, isWhole (.nonterminal r.left) = false →
    ∃ s ∈ r.right, isWhole s = false := by
  decide +kernel

variable {w : List Token} {a : Attribute} {symbols : List Symbol}

/-- Other symbols are not read from nothing. -/
theorem Builds.ne_nil {next : TokenType} {parts : List Attribute} (h : Builds next symbols w parts) :
    (∃ s ∈ symbols, isWhole s = false) → w ≠ [] := by
  induction h with
  | nil => rintro ⟨s, ⟨⟩, -⟩
  | token => exact fun _ => List.cons_ne_nil _ _
  | @rule next r symbols v w inner parts hr hi hd h ihi ih =>
    rintro ⟨s, hs, hsolid⟩
    rcases List.mem_cons.1 hs with rfl | hs
    · exact List.append_ne_nil_of_left_ne_nil (ihi (rules_solid r hr hsolid)) w
    · exact List.append_ne_nil_of_right_ne_nil v (ih ⟨s, hs, hsolid⟩)

theorem coveredSpan_cons {parts : List Attribute} (h : parts ≠ []) :
    coveredSpan (a :: parts) = ⟨a.span.start, (coveredSpan parts).stop⟩ := by
  cases parts with
  | nil => exact absurd rfl h
  | cons b parts => rw [coveredSpan, coveredSpan, List.getLast?_cons_cons, List.getLast?_cons]; rfl

/-- Parts that stand one behind the other reach from the first token to the last. -/
theorem Builds.coveredSpan_eq {next : TokenType} {parts : List Attribute} (h : Builds next symbols w parts) :
    (∀ s ∈ symbols, isWhole s = true → symbols = [s]) → coveredSpan parts = covered w := by
  -- A part in front of others is not read from nothing, and neither are they.
  have step : ∀ {next x symbols v w a parts}, Builds next symbols w parts →
      (∀ s ∈ x :: symbols, isWhole s = true → x :: symbols = [s]) →
      (isWhole x = false → v ≠ []) → a.span = covered v →
      ((∀ s ∈ symbols, isWhole s = true → symbols = [s]) → coveredSpan parts = covered w) →
      coveredSpan (a :: parts) = covered (v ++ w) := by
    intro next x symbols v w a parts h hwhole hv ha ih
    cases symbols with
    | nil =>
      cases h
      rw [List.append_nil]
      exact ha
    | cons y symbols =>
      have hsolid : ∀ s ∈ x :: y :: symbols, isWhole s = false := fun s hs =>
        Bool.eq_false_iff.2 fun hs' => by cases hwhole s hs hs'
      have hw : w ≠ [] := h.ne_nil ⟨y, List.mem_cons_self, hsolid y (by simp)⟩
      have hparts : parts ≠ [] := by
        cases h <;> exact List.cons_ne_nil _ _
      rw [coveredSpan_cons hparts, Parser.covered_append (hv (hsolid x List.mem_cons_self)) hw, ha,
        ih fun s hs hs' => absurd hs' (by simp [hsolid s (List.mem_cons_of_mem x hs)])]
      rfl
  induction h with
  | nil => exact fun _ => rfl
  | @token next t symbols w parts h ih =>
    exact fun hwhole => step (v := [t]) h hwhole (fun _ => List.cons_ne_nil t []) rfl ih
  | @rule next r symbols v w inner parts hr hi hd h ihi ih =>
    exact fun hwhole => step h hwhole (fun hleft => hi.ne_nil (rules_solid r hr hleft))
      (ihi (rules_whole r hr)) ih

/-- The first token decides, by its type or by its number. -/
theorem nextTerminal_eq (w : List Token) (next : TokenType) :
    Lr.nextTerminal terminalOf w (Symbol.terminal next).number =
      (Symbol.terminal (headType w next)).number := by
  cases w <;> rfl

theorem getElem?_productions (i : Nat) :
    numbered.productions[i]? = (rules[i]?).map fun r =>
      ⟨(Symbol.nonterminal r.left).number, r.right.map Symbol.number⟩ :=
  List.getElem?_map

theorem builds_of_yields {la n : Nat} {xs : List Nat} {parts : List Attribute}
    (h : Lr.Yields numbered (fun p t => defers p t = true) meaning terminalOf la xs w parts n) :
    ∀ next symbols, la = (Symbol.terminal next).number → xs = symbols.map Symbol.number →
      Builds next symbols w parts := by
  induction h with
  | nil =>
    intro next symbols _ hx
    rw [List.map_eq_nil_iff.1 hx.symm]
    exact .nil
  | @leaf la n t xs w parts _ ih =>
    rintro next symbols rfl hx
    obtain ⟨s, symbols, rfl, hs, rfl⟩ := List.map_eq_cons_iff.1 hx.symm
    rw [Symbol.number_inj (hs : s.number = (Symbol.terminal t.type).number)]
    exact .token (ih next symbols rfl rfl)
  | @node la k n p xs v w inner parts hp _ hd _ ihi ih =>
    rintro next symbols rfl hx
    obtain ⟨s, symbols, rfl, hs, rfl⟩ := List.map_eq_cons_iff.1 hx.symm
    have hget := Lr.Grammar.getElem?_of_numbered hp
    rw [getElem?_productions] at hget
    obtain ⟨r, hr, hprod⟩ := Option.map_eq_some_iff.1 hget
    rw [← hprod] at hs ihi
    have hleft : s = .nonterminal r.left := Symbol.number_inj hs
    rw [nextTerminal_eq] at hd ihi
    subst hleft
    show Builds next _ _ (nodeMeaning p.index inner :: parts)
    rw [nodeMeaning_eq hr]
    refine .rule (List.mem_of_getElem? hr) (ihi _ _ rfl rfl) (fun hform helse => hd ?_)
      (ih next symbols rfl rfl)
    rw [defers, helse, formOf, hr]
    simpa using hform

theorem yields_of_builds {next : TokenType} {parts : List Attribute} (h : Builds next symbols w parts) :
    ∃ n, Lr.Yields numbered (fun p t => defers p t = true) meaning terminalOf
      (Symbol.terminal next).number (symbols.map Symbol.number) w parts n := by
  induction h with
  | nil => exact ⟨0, .nil⟩
  | token _ ih =>
    obtain ⟨n, h⟩ := ih
    exact ⟨n, .leaf h⟩
  | @rule next r symbols v w inner parts hr _ hd _ ihi ih =>
    obtain ⟨k, hi⟩ := ihi
    obtain ⟨n, h⟩ := ih
    obtain ⟨i, hi'⟩ := List.getElem?_of_mem hr
    have hget := getElem?_productions i
    rw [hi', Option.map_some] at hget
    obtain ⟨base, hp⟩ := Lr.Grammar.exists_numbered hget
    refine ⟨k + n + 1, ?_⟩
    rw [← nodeMeaning_eq hi']
    rw [← nextTerminal_eq] at hi
    refine Lr.Yields.node hp hi (fun hdefers => ?_) h
    rw [nextTerminal_eq, defers, formOf, hi', Bool.and_eq_true, beq_iff_eq, decide_eq_true_eq]
      at hdefers
    exact hd hdefers.2 (by simpa using Symbol.number_inj hdefers.1)

/-! ## The table parser -/

/-- A rank for symbols: every right side outranks its left side. -/
def rankOf : Nonterminal → Nat
  | .root => 0
  | .start => 1
  | .statements | .finalStatement => 2
  | .statement | .forInit => 3
  | .assignment => 5
  | .layer level => 6 + Parser.Level.all.idxOf level
  | .unary => 12
  | .call => 13
  | .primary => 14
  | _ => 4

/-- The rank of a symbol by its number; terminals have the highest. -/
def rank (x : Nat) : Nat :=
  if x < numbered.terminals then 15
  else (Nonterminal.all.map rankOf).getD (x - numbered.terminals) 0

theorem rank_left_lt : ∀ p ∈ numbered.productions, p.left ≠ (Symbol.nonterminal .start).number →
    p.left ≠ (Symbol.nonterminal .root).number → rank p.left + 1 ≤ (p.right.map rank).sum := by
  decide +kernel

theorem nodes_lt {n : Nat}
    (h : Lr.Yields numbered (fun p t => defers p t = true) meaning terminalOf numbered.endOfInput
      [(Symbol.nonterminal .start).number] w [a] n) :
    n < (w.length + 3) * rules.length := by
  have hrules : rules.length = 96 := by decide
  rw [hrules]
  generalize hx : [(Symbol.nonterminal .start).number] = xs at h
  cases h with
  | leaf h =>
    cases h
    omega
  | @node _ k n p xs v w inner parts hp hi hd h =>
    cases h
    obtain ⟨hleft, -⟩ := List.cons.inj hx
    have hmem := Lr.Grammar.mem_of_numbered hp
    have hroot : (Symbol.nonterminal .root).number ≠ (Symbol.nonterminal .start).number := by decide
    have hnodes := hi.nodes_le tables_deterministic (r := rank) (c := 15)
      (fun t => Nat.le_of_eq (if_pos (terminalOf_lt t))) rank_left_lt
      (fun hs => hroot ((tables_deterministic.start_alone _ hmem hs).1 ▸ hleft.symm))
      (fun hs => tables_deterministic.root_fresh ⟨_, hmem, hs⟩)
    simp only [List.length_append, List.length_nil]
    omega

/-- Tokens that the productions read as a text are accepted. -/
theorem run_of_builds {u : List Token} {eof : Token} (h : Builds .endOfInput [.nonterminal .start] w [a])
    (heof : eof.type = .endOfInput) :
    Lr.run tables meaning terminalOf ((w.length + 3) * rules.length) [] (w ++ eof :: u) =
      .accepted a := by
  have hend := terminalOf_eq_end.2 heof
  obtain ⟨n, hy⟩ := yields_of_builds h
  rw [← heof] at hy
  change Lr.Yields numbered _ meaning terminalOf (terminalOf eof) _ w [a] n at hy
  rw [hend] at hy
  exact Lr.run_of_yields tables_deterministic terminalOf_lt hy hend (by decide) (nodes_lt hy)

/-- Accepted tokens are read by the productions as a text, up to an end of input. -/
theorem builds_of_run {bound : Nat} {input : List Token}
    (h : Lr.run tables meaning terminalOf bound [] input = .accepted a) :
    ∃ w eof u, input = w ++ eof :: u ∧ eof.type = .endOfInput ∧
      Builds .endOfInput [.nonterminal .start] w [a] := by
  obtain ⟨w, eof, u, n, rfl, hend, hy⟩ := Lr.yields_of_run tables_deterministic terminalOf_lt h
  exact ⟨w, eof, u, rfl, terminalOf_eq_end.1 hend,
    builds_of_yields hy _ _ (by decide) rfl⟩

end Grammar

end Scriptlet
