import Scriptlet.Proofs.FrontEnds
import Scriptlet.Proofs.StackReading
import Scriptlet.Proofs.ViablePrefixes

/-!
Beginnings of texts for the table-driven parser. What it has read is always the beginning of a text that the
productions read (`Fillers.completes` at the productions of the language). The only thing that can go wrong
with the meaning of what was read is an assignment to something that is no name, and this shows on the stack
as soon as the operator is on it (`Fits`).
-/

namespace Scriptlet.Grammar

open Lr (Sane Quiet)

/-! ## Parts that go together -/

/-- Tokens that are found in a text with numerals that can be read. -/
def Known (t : Token) : Prop :=
  t.Regular ∧ (t.type = .number → ∃ n, Number.read t.text = .ok n)

/-- The part has a meaning. -/
def Good (a : Attribute) : Prop :=
  ∃ p, a.part = .ok p

/-- In front of the operator of an assignment an expression has to be a name. -/
def Fits (a b : Attribute) : Prop :=
  ∀ t, b.part = .ok (.token t) → t.type ∈ Parser.assignments →
    ∀ e, a.part = .ok (.expr e) → ∃ id, e = .ident id

/-- The productions that give back a part or have no meaning for some parts. -/
theorem rule_shapes : ∀ r ∈ rules,
    (r.form = .same → ∃ x ∈ Nonterminal.all, r.right = [n x]) ∧
    (r.form = .paren → r.right = [t .parenStart, n .expression, t .parenEnd]) ∧
    (r.form = .number → r.right = [t .number]) ∧
    (r.form = .assign → ∃ type ∈ Parser.assignments,
      r = ⟨.assignment, [n (.layer .or), t type, n .assignment], .assign⟩) := by
  decide +kernel

/-- Where the operators of assignments stand. -/
theorem assignment_rules : ∀ r ∈ rules,
    (∀ s ∈ r.right, ∀ type ∈ Parser.assignments, s ≠ .terminal type) ∨
    r = ⟨.variableDeclaration, [t .identifier, t .simpleAssignment, n .assignment], .declaration⟩ ∨
    ∃ type ∈ Parser.assignments,
      r = ⟨.assignment, [n (.layer .or), t type, n .assignment], .assign⟩ := by
  decide +kernel

theorem mapM_part_iff {attributes : List Attribute} {made : List Part} :
    attributes.mapM (·.part) = Except.ok made ↔
      List.Forall₂ (fun a p => a.part = .ok p) attributes made := by
  induction attributes generalizing made with
  | nil =>
    constructor
    · rintro ⟨⟩
      exact .nil
    · rintro ⟨⟩
      rfl
  | cons a attributes ih =>
    rw [mapM_part_cons, List.forall₂_cons_left_iff]
    simp only [ih]

section

variable {next : TokenType} {symbols : List Symbol} {v w : List Token} {parts inner : List Attribute}
  {r : Rule}

/-- The symbol is a terminal if the part is a token. -/
def ReadAs (s : Symbol) (a : Attribute) : Prop :=
  ∀ u, a.part = .ok (.token u) → s = .terminal u.type

theorem readAs_apply (hr : r ∈ rules) (h : List.Forall₂ ReadAs r.right inner) :
    ReadAs (.nonterminal r.left) (Form.apply r.form inner) := by
  intro u hu
  obtain ⟨made, hmade, hu⟩ := Form.apply_part.1 hu
  rw [mapM_part_iff] at hmade
  have htoken : r.form = .same ∧ made = [.token u] ∨
      r.form = .paren ∧ ∃ a b, made = [a, .token u, b] := by
    cases hassemble : assemble r.form (coveredSpan inner) made with
    | none =>
      rw [hassemble] at hu
      cases hu
    | some result =>
      rw [hassemble, Option.getD_some] at hu
      subst hu
      rcases assemble_cases hassemble with ⟨_, heq, hcases⟩ | ⟨-, ⟨_, _, ⟨⟩⟩, -⟩ | ⟨-, _, _, ⟨⟩, -⟩
      cases heq
      exact hcases u rfl
  rcases htoken with ⟨hform, rfl⟩ | ⟨hform, _, _, rfl⟩
  · obtain ⟨x, -, hright⟩ := (rule_shapes r hr).1 hform
    rw [hright] at h
    obtain _ | ⟨hu, -⟩ := hmade
    obtain _ | ⟨hx, -⟩ := h
    cases hx u hu
  · rw [(rule_shapes r hr).2.1 hform] at h
    obtain _ | ⟨-, _ | ⟨hu, -⟩⟩ := hmade
    obtain _ | ⟨-, _ | ⟨hx, -⟩⟩ := h
    cases hx u hu

/-- Only a terminal is read as a token. -/
theorem Builds.readAs (h : Builds next symbols w parts) : List.Forall₂ ReadAs symbols parts := by
  induction h with
  | nil => exact .nil
  | token _ ih =>
    refine .cons ?_ ih
    rintro u ⟨⟩
    rfl
  | rule hr _ _ _ ihi ih => exact .cons (readAs_apply hr ihi) ih

theorem ReadAs.fits {s : Symbol} {b : Attribute} (h : ReadAs s b)
    (hs : ∀ type ∈ Parser.assignments, s ≠ .terminal type) (a : Attribute) : Fits a b :=
  fun u hu htype => absurd (h u hu) (hs _ htype)

theorem fits_of_readAs (h : List.Forall₂ ReadAs symbols parts)
    (hs : ∀ s ∈ symbols, ∀ type ∈ Parser.assignments, s ≠ .terminal type) :
    ∀ b ∈ parts, ∀ a, Fits a b := by
  induction h with
  | nil => exact fun a ha => absurd ha List.not_mem_nil
  | cons hread _ ih =>
    rw [List.forall_mem_cons] at hs ⊢
    exact ⟨hread.fits hs.1, ih hs.2⟩

theorem good_of_made {made : List Part} (h : List.Forall₂ (fun a p => a.part = .ok p) inner made) :
    ∀ a ∈ inner, Good a := by
  induction h with
  | nil => exact fun a ha => absurd ha List.not_mem_nil
  | cons hpart _ ih => exact List.forall_mem_cons.2 ⟨⟨_, hpart⟩, ih⟩

theorem exists_made (h : ∀ a ∈ inner, Good a) :
    ∃ made, List.Forall₂ (fun a p => a.part = .ok p) inner made := by
  cases hm : inner.mapM (·.part) with
  | ok made => exact ⟨made, mapM_part_iff.1 hm⟩
  | error e =>
    obtain ⟨a, ha, he⟩ := mapM_part_error hm
    obtain ⟨p, hp⟩ := h a ha
    cases he.symm.trans hp

/-- What a production makes of parts that go together has a meaning. -/
theorem good_apply (hr : r ∈ rules) (h : Builds next r.right v inner) (hknown : ∀ u ∈ v, Known u)
    (hsane : Sane Good Fits inner) : Good (Form.apply r.form inner) := by
  obtain ⟨made, hmade⟩ := exists_made hsane.1
  cases hassemble : assemble r.form (coveredSpan inner) made with
  | none => exact ⟨_, Form.apply_part.2 ⟨made, mapM_part_iff.2 hmade, by rw [hassemble]; rfl⟩⟩
  | some result =>
    cases result with
    | ok p => exact ⟨p, Form.apply_part.2 ⟨made, mapM_part_iff.2 hmade, by rw [hassemble]; rfl⟩⟩
    | error e =>
      exfalso
      rcases assemble_cases hassemble with ⟨_, ⟨⟩, -⟩ | ⟨hform, -, other, op, value, rfl, hother⟩ |
        ⟨hform, u, fault, -, rfl, hfault⟩
      · obtain ⟨type, htype, hrule⟩ := (rule_shapes r hr).2.2.2 hform
        subst hrule
        obtain _ | ⟨hother', _ | ⟨hop, _⟩⟩ := hmade
        obtain _ | ⟨-, _ | ⟨hread, -⟩⟩ := h.readAs
        cases hread op hop
        obtain ⟨id, hid⟩ := (List.isChain_cons_cons.1 hsane.2).1 op hop htype other hother'
        exact hother id hid
      · have hsenses := senses_of_builds Placing.free_covers h (fun u hu => (hknown u hu).1) _
          (mapM_part_iff.2 hmade)
        rw [(rule_shapes r hr).2.2.1 hform] at hsenses
        obtain ⟨_, w, rest, -, htype, rfl, ⟨⟩, -⟩ := hsenses.token
        obtain ⟨n, hn⟩ := (hknown u List.mem_cons_self).2 htype
        cases hn.symm.trans hfault

/-- An assignment has a meaning only if its target is a name. -/
theorem fits_of_assign {type : TokenType} {a b c : Attribute} (hknown : ∀ u ∈ v, Known u)
    (h : Builds next [n (.layer .or), t type, n .assignment] v [a, b, c])
    (hgood : Good (Form.apply .assign [a, b, c])) : Fits a b := by
  obtain ⟨p, hp⟩ := hgood
  obtain ⟨made, hmade, hp⟩ := Form.apply_part.1 hp
  obtain ⟨_, _, _, _, -, rfl, ⟨e, rfl, -⟩, hrest⟩ :=
    senses_of_builds Placing.free_covers h (fun u hu => (hknown u hu).1) made hmade
  obtain ⟨u, _, _, -, -, rfl, rfl, hlast⟩ := hrest.token
  obtain ⟨_, _, _, _, -, rfl, ⟨value, rfl, -⟩, -, rfl⟩ := hlast
  obtain _ | ⟨ha, -⟩ := mapM_part_iff.1 hmade
  intro _ _ _ e' he
  cases ha.symm.trans he
  cases e with
  | ident id => exact ⟨id, rfl⟩
  | literal | unary | binary | logical | assign | call => cases hp

/-- What a production makes of parts has a meaning only if they go together. -/
theorem sane_of_good (hr : r ∈ rules) (h : Builds next r.right v inner) (hknown : ∀ u ∈ v, Known u)
    (hgood : Good (Form.apply r.form inner)) : Sane Good Fits inner := by
  have hparts : ∀ a ∈ inner, Good a := by
    obtain ⟨p, hp⟩ := hgood
    obtain ⟨made, hmade, -⟩ := Form.apply_part.1 hp
    exact good_of_made (mapM_part_iff.1 hmade)
  have hread := h.readAs
  rcases assignment_rules r hr with hnone | rfl | ⟨type, htype, rfl⟩
  · exact Lr.sane_of_quiet fun a ha => ⟨hparts a ha, fits_of_readAs hread hnone a ha⟩
  · simp only [List.forall₂_cons_left_iff, List.forall₂_nil_left_iff] at hread
    obtain ⟨a, _, -, ⟨b, _, -, ⟨c, _, hc, rfl, rfl⟩, rfl⟩, rfl⟩ := hread
    refine ⟨hparts, .cons_cons ?_ (.cons_cons (hc.fits nofun b) (.singleton c))⟩
    generalize hsymbols : [t .identifier, t .simpleAssignment, n .assignment] = symbols at h
    cases h with
    | token => nofun
    | rule => cases hsymbols
  · simp only [List.forall₂_cons_left_iff, List.forall₂_nil_left_iff] at hread
    obtain ⟨a, _, -, ⟨b, _, -, ⟨c, _, hc, rfl, rfl⟩, rfl⟩, rfl⟩ := hread
    exact ⟨hparts, .cons_cons (fits_of_assign hknown h hgood)
      (.cons_cons (hc.fits nofun b) (.singleton c))⟩

end

/-! ## The productions of the language -/

/-- The terminals of assignments. -/
def loud : List Nat :=
  Parser.assignments.map fun type => (Symbol.terminal type).number

/-- The terminals that may come behind a part which is a whole without them. -/
def held : List Nat :=
  (Symbol.terminal (.keyword .kwElse)).number :: loud

/-- How many productions it takes at most to fill in a symbol. -/
def heightOf : Nonterminal → Nat
  | .primary | .block | .emptyStatement | .finalStatement | .variableDeclaration | .parameters
  | .moreParameters => 1
  | .call | .statement | .variableDeclarations | .moreDeclarations | .functionDeclaration => 2
  | .unary | .statements | .forStatement | .forInit => 3
  | .layer level => 9 - Parser.Level.all.idxOf level
  | .assignment => 10
  | .expression => 11
  | _ => 12

def height (x : Nat) : Nat :=
  if x < numbered.terminals then 0
  else (Nonterminal.all.map heightOf).getD (x - numbered.terminals) 0

/-- A token of a type. -/
def plain (type : TokenType) : Token :=
  ⟨type, if type = .number then "0" else type.operators.headD "", ⟨0, 0⟩⟩

theorem plain_known {type : TokenType} (h : type ≠ .endOfInput) : Known (plain type) := by
  refine ⟨⟨h, fun hne => ?_⟩, ?_⟩
  · cases type with
    | keyword k => exact absurd rfl hne
    | _ => first | exact absurd rfl hne | exact List.mem_cons_self
  · rintro rfl
    exact ⟨_, rfl⟩

theorem exists_rule {p : Lr.Numbered} (hp : p ∈ numbered.numbered) :
    ∃ r ∈ rules, p.production = ⟨(Symbol.nonterminal r.left).number, r.right.map Symbol.number⟩ ∧
      ∀ inner, meaning.node p.index inner = Form.apply r.form inner := by
  have hget := Lr.Grammar.getElem?_of_numbered hp
  rw [getElem?_productions] at hget
  obtain ⟨r, hr, hprod⟩ := Option.map_eq_some_iff.1 hget
  exact ⟨r, List.mem_of_getElem? hr, hprod.symm, nodeMeaning_eq hr⟩

theorem exists_next : ∀ la < numbered.terminals, ∃ next ∈ TokenType.all,
    la = (Symbol.terminal next).number := by
  decide +kernel

theorem holds_held : numbered.Holds (· ∈ held) := by
  have hshort : ∀ p ∈ numbered.numbered, ∀ j < p.production.right.length,
      p.production.right.getD (j + 1) 0 ∈ held → ∃ q ∈ numbered.numbered,
        q.production.left = p.production.left ∧
          q.production.right = p.production.right.take (j + 1) := by
    decide +kernel
  intro p hp j y hy hheld
  have hlt := (List.getElem?_eq_some_iff.1 hy).1
  refine hshort p hp j (Nat.lt_of_succ_lt hlt) ?_
  rwa [List.getD_eq_getElem?_getD, hy]

theorem loud_second : ∀ q ∈ numbered.numbered, ∀ i y, q.production.right[i]? = some y → y ∈ loud →
    i = 1 := by
  have hsecond : ∀ q ∈ numbered.numbered, ∀ i < q.production.right.length,
      q.production.right.getD i 0 ∈ loud → i = 1 := by
    decide +kernel
  intro q hq i y hy hloud
  refine hsecond q hq i (List.getElem?_eq_some_iff.1 hy).1 ?_
  rwa [List.getD_eq_getElem?_getD, hy]

/-- The production fills in its left side. -/
def IsFilling (p : Lr.Numbered) : Prop :=
  p.production.right ≠ [] ∧ formOf p.index ≠ .ifThen ∧
    (∀ x ∈ p.production.right, x ∉ loud ∧ height x < height p.production.left) ∧
    p.production.right.headD 0 ∉ held

instance (p : Lr.Numbered) : Decidable (IsFilling p) :=
  inferInstanceAs (Decidable (_ ∧ _))

theorem exists_filling : ∀ y ∈ numbered.nonterminals, y ≠ (Symbol.nonterminal .start).number →
    y ≠ (Symbol.nonterminal .root).number →
    ∃ p ∈ numbered.numbered, p.production.left = y ∧ IsFilling p := by
  decide +kernel

theorem fillers : Lr.Fillers numbered (Symbol.nonterminal .start).number (fun p t => defers p t = true)
    meaning terminalOf (· ∈ held) (· ∈ loud) height Known Good Fits where
  holds := holds_held
  held_of_defers i t h := by
    rw [defers, Bool.and_eq_true, beq_iff_eq] at h
    rw [h.1]
    exact List.mem_cons_self
  held_of_loud t h := List.mem_cons_of_mem _ h
  end_lt := by decide
  end_free := by decide
  loud_second := loud_second
  leaf y hlt hoccurs hloud := by
    obtain ⟨type, -, rfl⟩ := exists_next y hlt
    have hend : type ≠ .endOfInput := by
      intro h
      exact not_occurs_end (show (plain type).type = .endOfInput from h) hoccurs
    refine ⟨plain type, rfl, plain_known hend, ⟨_, rfl⟩, fun a => ?_⟩
    rintro _ ⟨⟩ htype
    exact absurd (List.mem_map_of_mem htype) hloud
  lower y hge hoccurs hstart := by
    have hroot : y ≠ (Symbol.nonterminal .root).number :=
      fun h => tables_deterministic.root_fresh (h ▸ hoccurs)
    obtain ⟨q, hq, hmem⟩ := hoccurs
    have hnonterminal : y ∈ numbered.nonterminals := by
      simpa [Lr.Grammar.nonterminals] using ⟨tables_deterministic.right_lt q hq y hmem, hge⟩
    obtain ⟨p, hp, rfl, hne, hform, hlower, hhead⟩ := exists_filling y hnonterminal hstart hroot
    refine ⟨p, hp, rfl, hne, fun t hdefers => ?_, hlower, fun x hx => ?_⟩
    · rw [defers, Bool.and_eq_true, decide_eq_true_eq] at hdefers
      exact hform hdefers.2
    · rwa [List.headD_eq_head?_getD, Option.mem_def.1 hx] at hhead
  node p hp la hla v cs k h hknown hsane := by
    obtain ⟨r, hr, hprod, hnode⟩ := exists_rule hp
    obtain ⟨next, -, rfl⟩ := exists_next la hla
    rw [hprod] at h
    have hbuilds := builds_of_yields h next r.right rfl rfl
    rw [hnode]
    exact ⟨good_apply hr hbuilds hknown hsane, (readAs_apply hr hbuilds.readAs).fits (by rintro _ _ ⟨⟩)⟩

theorem telling : Lr.Telling numbered (fun p t => defers p t = true) meaning terminalOf Known Good
    Fits where
  sane p hp la hla v cs k h hknown hgood := by
    obtain ⟨r, hr, hprod, hnode⟩ := exists_rule hp
    obtain ⟨next, -, rfl⟩ := exists_next la hla
    rw [hprod] at h
    rw [hnode] at hgood
    exact sane_of_good hr (builds_of_yields h next r.right rfl rfl) hknown hgood
  first p hp la hla v cs k h c hc := by
    obtain ⟨r, hr, hprod, -⟩ := exists_rule hp
    obtain ⟨next, -, rfl⟩ := exists_next la hla
    rw [hprod] at h
    have hread := (builds_of_yields h next r.right rfl rfl).readAs
    cases hright : r.right with
    | nil =>
      rw [hright] at hread
      cases hread
      cases hc
    | cons s symbols =>
      rw [hright] at hread
      obtain _ | ⟨hs, -⟩ := hread
      cases hc
      refine hs.fits ?_
      rintro type htype rfl
      have hfirst : p.production.right[0]? = some (Symbol.terminal type).number := by
        rw [hprod, hright]
        rfl
      cases loud_second p hp 0 _ hfirst (List.mem_map_of_mem htype)

/-! ## What is read -/

/-- The table-driven parser reads the tokens and has the stack then. -/
abbrev Takes (w : List Token) (s : Lr.Stack Attribute) : Prop :=
  Lr.Reads numbered meaning terminalOf w s

/-- The stack stands for the tokens, in front of a terminal. -/
abbrev Stacked (la : Nat) (s : Lr.Stack Attribute) (w : List Token) : Prop :=
  Lr.Piled numbered (fun p t => defers p t = true) meaning terminalOf la s w

/-- Some tokens make a whole text of these. -/
def BeginsWhole (w : List Token) : Prop :=
  ∃ v list, (∀ t ∈ v, Known t) ∧ DerivesWhole .free (w ++ v) list

section

variable {w : List Token} {k : Token} {s : Lr.Stack Attribute}

variable {state : Lr.Bits} {o : Token} {a : Attribute} {bound : Nat} {d : List Token} {e : Expr}

/-- A text that the productions read is read up to its end. -/
theorem takes_of_builds (h : Builds .endOfInput [.nonterminal .start] w [a]) (hreg : ∀ t ∈ w, t.Regular) :
    ∃ s, Takes w s ∧ ∃ (eof : Token) (bound : Nat),
      Lr.feed numbered.tables meaning (terminalOf eof) eof bound s = .accepted a := by
  let eof : Token := .endOfInput 0
  have hrun := run_of_builds (u := []) h (show eof.type = .endOfInput from rfl)
  obtain ⟨v, t, u, s, hinput, hs, hfeed⟩ := Lr.reads_of_accepted hrun
  have htype := ((Lr.feed_piled tables_deterministic terminalOf_lt _
    (hs.piled tables_deterministic terminalOf_lt _)).2 _ hfeed).1
  have hreg' : ∀ t ∈ (⟨w, .ok eof, default⟩ : Lexer.Tokens).tokens, t.Regular := hreg
  obtain ⟨rfl, -⟩ := ending_of_append hreg' (terminalOf_eq_end.1 htype) hinput
  exact ⟨s, hs, t, _, hfeed⟩

/-- The beginning of a text is read, and what was made of it goes together. -/
theorem BeginsWhole.takes (h : BeginsWhole w) (hw : ∀ t ∈ w, Known t) :
    ∃ s, Takes w s ∧ Sane Good Fits s.values := by
  obtain ⟨v, list, hv, hwhole⟩ := h
  have hknown : ∀ t ∈ w ++ v, Known t := List.forall_mem_append.2 ⟨hw, hv⟩
  obtain ⟨body, hmade⟩ := made_of_derivesWhole hwhole
  obtain ⟨a, hbuilds, hpart⟩ := hmade.single
  obtain ⟨s, hs, eof, bound, hfeed⟩ := takes_of_builds hbuilds fun t ht => (hknown t ht).1
  have hsane := hs.sane_of_accepted telling tables_deterministic terminalOf_lt hknown hfeed ⟨_, hpart⟩
  exact hs.sane_prefix telling tables_deterministic terminalOf_lt hknown hsane

theorem beginsWhole_of_yields {v : List Token} {b : Attribute} {m : Nat}
    (h : Lr.Yields numbered (fun p t => defers p t = true) meaning terminalOf numbered.endOfInput
      [(Symbol.nonterminal .start).number] (w ++ v) [b] m)
    (hw : ∀ t ∈ w, Known t) (hv : ∀ t ∈ v, Known t) (hgood : Good b) : BeginsWhole w := by
  have hbuilds : Builds .endOfInput [.nonterminal .start] (w ++ v) [b] :=
    builds_of_yields h _ _ (by decide) rfl
  obtain ⟨p, hp⟩ := hgood
  obtain ⟨list, -, hwhole⟩ := derivesWhole_of_builds Placing.free_covers hbuilds
    (fun t ht => (List.forall_mem_append.2 ⟨hw, hv⟩ t ht).1) hp
  exact ⟨v, list, hv, hwhole⟩

theorem rank_terminalOf (t : Token) : rank (terminalOf t) ≤ 15 :=
  Nat.le_of_eq (if_pos (terminalOf_lt t))

theorem rank_numbered : ∀ p ∈ numbered.numbered, p.index ≠ 0 →
    p.production.left ≠ (Symbol.nonterminal .start).number →
      rank p.production.left + 1 ≤ (p.production.right.map rank).sum := by
  have hroot : ∀ p ∈ numbered.numbered, p.index ≠ 0 →
      p.production.left ≠ (Symbol.nonterminal .root).number := by
    decide +kernel
  exact fun p hp hindex hstart =>
    rank_left_lt _ (Lr.Grammar.mem_of_numbered hp) hstart (hroot p hp hindex)

/-- A token that a run rejects is read by no run. -/
theorem not_takes_of_rejected (h : Takes w s) (hbound : 15 * w.length + 2 ≤ bound)
    (hfeed : Lr.feed numbered.tables meaning (terminalOf k) k bound s = .rejected state) :
    ¬∃ s', Takes (w ++ [k]) s' := by
  rintro ⟨s', h'⟩
  obtain ⟨s₁, bound', hs₁, hshifted⟩ := h'.snoc_inv
  obtain rfl := h.unique hs₁
  cases hfeed.symm.trans
    (h.feed_shifted tables_deterministic terminalOf_lt rank_terminalOf rank_numbered hbound hshifted)

/-- A run rejects the first token that is not read, unless the text ends there. -/
theorem run_of_not_takes {u : List Token} (h : Takes w s) (hbound : 15 * w.length + 2 ≤ bound)
    (hnot : ¬∃ s', Takes (w ++ [k]) s') (hk : k.type ≠ .endOfInput) :
    ∃ state, Lr.run tables meaning terminalOf bound [] (w ++ k :: u) = .rejected k state := by
  have hrun := h.run_append tables_deterministic terminalOf_lt rank_terminalOf rank_numbered hbound
    (k :: u)
  rw [Lr.run] at hrun
  cases hfeed : Lr.feed numbered.tables meaning (terminalOf k) k bound s with
  | shifted s' => exact absurd ⟨s', h.snoc hfeed⟩ hnot
  | accepted a =>
    have hend := ((Lr.feed_piled tables_deterministic terminalOf_lt _
      (h.piled tables_deterministic terminalOf_lt _)).2 _ hfeed).1
    exact absurd (terminalOf_eq_end.1 hend) hk
  | rejected state =>
    rw [hfeed] at hrun
    exact ⟨state, hrun⟩

/-- What was read is the beginning of a text, if what was made of it goes together. -/
theorem beginsWhole_of_sane (h : Takes (w ++ [k]) s) (hknown : ∀ t ∈ w ++ [k], Known t)
    (hsane : Sane Good Fits s.values) : BeginsWhole (w ++ [k]) := by
  obtain ⟨v, b, m, hv, hyields, hgood⟩ :=
    fillers.completes_read tables_deterministic terminalOf_lt h hknown
  rw [← List.append_assoc] at hyields
  exact beginsWhole_of_yields hyields hknown hv (hgood hsane)

/-- The operator of an assignment is read behind a name in a declaration or behind the operators of the
weakest layer. -/
theorem symbol_of_shift {x : Nat} (hk : k.type ∈ Parser.assignments)
    (hshift : numbered.tables.next state x &&& numbered.tables.before.getD (terminalOf k) 0 ≠ 0) :
    x = (Symbol.terminal .identifier).number ∨ x = (n (.layer .or)).number ∧
      ∃ q ∈ numbered.numbered, q.production.right[0]? = some x ∧ Lr.Bits.has state (q.base + 0) := by
  obtain ⟨i, hi, hbefore⟩ := (Lr.Bits.and_ne_zero_iff _ _).1 hshift
  obtain ⟨q, hq, j, hj, rfl⟩ := Lr.Tables.exists_of_has_before hbefore
  obtain rfl := loud_second q hq j _ hj (List.mem_map_of_mem hk)
  have hlt := (List.getElem?_eq_some_iff.1 hj).1
  obtain ⟨hbase, hx⟩ := Lr.Tables.has_next_inv hq (Nat.lt_of_succ_lt hlt) hi
  obtain ⟨r, hr, hprod, -⟩ := exists_rule hq
  rw [hprod] at hj
  have hmem : Symbol.terminal k.type ∈ r.right := by
    rw [List.getElem?_map] at hj
    obtain ⟨s, hs, hnumber⟩ := Option.map_eq_some_iff.1 hj
    rw [← Symbol.number_inj (hnumber : s.number = (Symbol.terminal k.type).number)]
    exact List.mem_of_getElem? hs
  rcases assignment_rules r hr with hnone | rfl | ⟨type, htype, rfl⟩
  · exact absurd rfl (hnone _ hmem _ hk)
  · rw [hprod] at hx
    cases hx
    exact .inl rfl
  · refine .inr ⟨?_, q, hq, hx, hbase⟩
    rw [hprod] at hx
    cases hx
    rfl

/-- One more operand. -/
theorem builds_more_operands (next : TokenType) (h : Derives .free d (.expr (.binary .or) e))
    (ho : o.type = .logicalOr) (hreg : o.Regular) :
    ∃ c e', Builds next [n (.layer .or)] (d ++ [o, plain .identifier]) [c] ∧
      c.part = .ok (.expr e') := by
  have hx : o.text = LogicalOp.symbol .or := by
    have htext := hreg.text_mem
    rw [ho] at htext
    exact List.mem_singleton.1 (htext (by decide))
  have hname : Derives .free [plain .identifier] (.expr .unary (.ident ⟨"", ⟨0, 0⟩⟩)) :=
    .ofCall (.atom (.name (.ident rfl trivial)))
  have hright : Derives .free [plain .identifier] (.expr (.binary .and) (.ident ⟨"", ⟨0, 0⟩⟩)) :=
    .ofOperand (.ofOperand (.ofOperand (.ofOperand (.ofOperand hname))))
  have hor : Derives .free (d ++ [o, plain .identifier])
      (.expr (.binary .or) (.logical .or e (.ident ⟨"", ⟨0, 0⟩⟩) ⟨0, 0⟩)) :=
    .logical h ho hx hright trivial
  obtain ⟨e', hmade, -⟩ := ReadsOperands.expr (readable_of_derives hor) next
  obtain ⟨c, hbuilds, hpart⟩ := hmade.single
  exact ⟨c, e', hbuilds, hpart⟩

/-- If all goes together but for a token behind it, the last part does not fit the token. -/
theorem exists_misfit (hsane : Sane Good Fits s.values)
    (hsane' : ¬Sane Good Fits (Lr.Stack.values ((state, meaning.leaf k) :: s))) :
    ∃ a ∈ s.values.getLast?, ¬Fits a (meaning.leaf k) := by
  by_contra hall
  simp only [not_exists, not_and, not_not] at hall
  refine hsane' ?_
  rw [Lr.Stack.values_cons]
  refine Lr.sane_append.2 ⟨hsane, ⟨by simpa using ⟨_, rfl⟩, .singleton _⟩, fun a ha b hb => ?_⟩
  cases hb
  exact hall a ha

/-- What does not fit a token behind it is made of operands of the weakest layer, and the token is the
operator of an assignment. -/
theorem disjunction_of_misfit (h : Stacked (terminalOf k) s w)
    (hshift : s.top numbered.tables &&& numbered.tables.before.getD (terminalOf k) 0 ≠ 0)
    (hw : ∀ t ∈ w, Known t) (ha : a ∈ s.values.getLast?) (hfits : ¬Fits a (meaning.leaf k)) :
    k.type ∈ Parser.assignments ∧ ∃ below p d e, w = p ++ d ∧ s.values = below.values ++ [a] ∧
      Stacked (Lr.nextTerminal terminalOf d (terminalOf k)) below p ∧
      Lr.Wanted numbered (· ∈ held) (below.top numbered.tables) (n (.layer .or)).number ∧
      Derives .free d (.expr (.binary .or) e) := by
  generalize hstate : s.top numbered.tables = state at hshift
  cases h with
  | nil => cases ha
  | @cons _ x m below p d b hbelow hy =>
    rw [Lr.Stack.values_cons, List.getLast?_concat] at ha
    cases ha
    simp only [Fits, not_forall] at hfits
    obtain ⟨_, ⟨⟩, hk, e, he, -⟩ := hfits
    have hreg : ∀ t ∈ d, t.Regular := fun t ht => (hw t (List.mem_append_right _ ht)).1
    have hsenses : ∀ y, x = y.number → Senses .free k.type [y] d [.expr e] := by
      rintro y rfl
      exact senses_of_builds Placing.free_covers (builds_of_yields hy k.type [y] rfl rfl) hreg _
        (mapM_part_iff.2 (.cons he .nil))
    subst hstate
    rcases symbol_of_shift hk hshift with hx | ⟨hx, q, hq, hfirst, hitem⟩
    · obtain ⟨_, _, _, -, -, -, ⟨⟩, -⟩ := (hsenses (.terminal .identifier) hx).token
    · obtain ⟨v, _, _, _, rfl, ⟨⟩, ⟨_, ⟨⟩, hderives⟩, rfl, -⟩ := hsenses (n (.layer .or)) hx
      rw [hx] at hfirst
      refine ⟨hk, below, p, _, e, rfl, Lr.Stack.values_cons .., hbelow, ?_, ?_⟩
      · exact hbelow.reached.wanted tables_deterministic fillers.holds hq hfirst hitem
      · rwa [List.append_nil]

/-- Operands of the weakest layer may be followed by their operator. -/
theorem beginsWhole_of_disjunction {below : Lr.Stack Attribute} {p : List Token} {la : Nat}
    (hbelow : Stacked (Lr.nextTerminal terminalOf d la) below p)
    (hwanted : Lr.Wanted numbered (· ∈ held) (below.top numbered.tables) (n (.layer .or)).number)
    (h : Derives .free d (.expr (.binary .or) e)) (hsane : Sane Good Fits below.values)
    (hknown : ∀ t ∈ p ++ d, Known t) (ho : o.type = .logicalOr) (hreg : o.Regular) :
    BeginsWhole (p ++ d ++ [o]) := by
  obtain ⟨c, e', hbuilds, hpart⟩ := builds_more_operands .endOfInput h ho hreg
  obtain ⟨m, hyields⟩ := yields_of_builds hbuilds
  have hoperator : Known o := ⟨hreg, fun h => by rw [ho] at h; cases h⟩
  have hname : Known (plain .identifier) := plain_known nofun
  have hbelow' : Stacked (Lr.nextTerminal terminalOf (d ++ [o, plain .identifier]) numbered.endOfInput)
      below p := by
    obtain ⟨t, d, rfl, -⟩ := h.expr_opens
    exact hbelow
  obtain ⟨v, b, m', hv, hwhole, hgood⟩ := fillers.completes tables_deterministic hbelow' hwanted
    (fun la hla => hyields.relax fillers.held_of_defers hla) (by
      rw [← List.append_assoc]
      exact List.forall_mem_append.2 ⟨hknown, by simpa using ⟨hoperator, hname⟩⟩)
  refine beginsWhole_of_yields (v := plain .identifier :: v) (by simpa using hwhole)
    (List.forall_mem_append.2 ⟨hknown, by simpa using hoperator⟩)
    (List.forall_mem_cons.2 ⟨hname, hv⟩) (hgood (hsane.append_quiet ?_))
  have hquiet : Quiet Good Fits c := ⟨⟨_, hpart⟩, fun a t ht => by cases hpart.symm.trans ht⟩
  simpa using hquiet

/-- If what was read goes together, but not with the operator of an assignment behind it, then another
operator may come in its place. -/
theorem beginsWhole_or {s' : Lr.Stack Attribute} (h : Takes w s) (hsane : Sane Good Fits s.values)
    (h' : Takes (w ++ [k]) s') (hsane' : ¬Sane Good Fits s'.values) (hw : ∀ t ∈ w, Known t)
    (ho : o.type = .logicalOr) (hreg : o.Regular) :
    k.type ∈ Parser.assignments ∧ BeginsWhole (w ++ [o]) := by
  obtain ⟨s₁, bound, hs₁, hfeed⟩ := h'.snoc_inv
  obtain rfl := h.unique hs₁
  obtain ⟨s₀, hr, hshift, rfl⟩ := Lr.reduces_of_shifted hfeed
  have hpiled := h.piled tables_deterministic terminalOf_lt (terminalOf k)
  have hpiled₀ := hpiled.reduces tables_deterministic (terminalOf_lt k) hr
  have hsane₀ := hr.sane_after fillers tables_deterministic (terminalOf_lt k) hpiled hw hsane
  obtain ⟨a, ha, hfits⟩ := exists_misfit hsane₀ hsane'
  obtain ⟨hk, below, p, d, e, rfl, hvalues, hbelow, hwanted, hderives⟩ :=
    disjunction_of_misfit hpiled₀ hshift hw ha hfits
  rw [hvalues] at hsane₀
  exact ⟨hk, beginsWhole_of_disjunction hbelow hwanted hderives (Lr.sane_append.1 hsane₀).1 hw ho hreg⟩

end

end Scriptlet.Grammar
