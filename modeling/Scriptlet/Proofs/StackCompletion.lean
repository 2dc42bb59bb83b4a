import Mathlib.Data.List.Chain
import Scriptlet.Proofs.ItemOrigins

/-!
What a shift-reduce parser has read is the beginning of a text. The symbol that was read last is wanted in
the state below it, so a production goes on behind it; its other symbols are filled in, the production is
reduced, and its left side is wanted in the state below in turn, until only the start symbol is left
(`Fillers.completes`).
-/

namespace Scriptlet.Lr

variable {α β : Type} {g : Grammar} {root start : Nat} {defers : Nat → Nat → Prop}
  {meaning : Meaning α β} {terminal : α → Nat}

/-! ## The terminal behind -/

section

variable {held : Nat → Prop} (hdefers : ∀ i t, defers i t → held t) {la la' n : Nat}
include hdefers

variable {w u : List α} {xs : List Nat} {bs : List β} {s : Stack β}

/-- Any terminal that is not held back may come behind instead. -/
theorem Yields.relax (h : Yields g defers meaning terminal la xs w bs n) (hla : ¬held la') :
    Yields g defers meaning terminal la' xs w bs n := by
  induction h with
  | nil => exact .nil
  | leaf _ ih => exact .leaf ih
  | @node la k n p xs v w cs bs hp hc hd h ihc ih =>
    cases w with
    | nil => exact .node hp ihc (fun hdefer => hla (hdefers _ _ hdefer)) ih
    | cons a w => exact .node (w := a :: w) hp hc hd ih

theorem Piled.relax (h : Piled g defers meaning terminal la s w) (hla : ¬held la') :
    Piled g defers meaning terminal la' s w := by
  induction h with
  | nil => exact .nil
  | @cons la x n s w v b h hy ih =>
    cases v with
    | nil => exact .cons (v := []) ih (hy.relax hdefers hla)
    | cons a v => exact .cons (v := a :: v) h (hy.relax hdefers hla)

/-- Behind tokens that come next. -/
theorem Yields.relax_behind (h : Yields g defers meaning terminal (nextTerminal terminal u la) xs w bs n)
    (hla : ¬held la') :
    Yields g defers meaning terminal (nextTerminal terminal u la') xs w bs n := by
  cases u with
  | nil => exact h.relax hdefers hla
  | cons => exact h

theorem Piled.relax_behind (h : Piled g defers meaning terminal (nextTerminal terminal u la) s w)
    (hla : ¬held la') :
    Piled g defers meaning terminal (nextTerminal terminal u la') s w := by
  cases u with
  | nil => exact h.relax hdefers hla
  | cons => exact h

end

/-! ## Values that go together -/

section

variable {Good : β → Prop} {Fits : β → β → Prop}

/-- The values are good, and each fits the one in front of it. -/
def Sane (Good : β → Prop) (Fits : β → β → Prop) (bs : List β) : Prop :=
  (∀ b ∈ bs, Good b) ∧ bs.IsChain Fits

/-- The values on a stack, the lowest first. -/
def Stack.values (s : Stack β) : List β :=
  s.reverse.map (·.2)

/-- A good value that fits any other. -/
def Quiet (Good : β → Prop) (Fits : β → β → Prop) (b : β) : Prop :=
  Good b ∧ ∀ a, Fits a b

theorem Stack.values_append (s s' : Stack β) : Stack.values (s ++ s') = s'.values ++ s.values := by
  rw [values, List.reverse_append, List.map_append]
  rfl

theorem Stack.values_cons (entry : Bits × β) (s : Stack β) :
    Stack.values (entry :: s) = s.values ++ [entry.2] :=
  Stack.values_append [entry] s

theorem sane_append {bs cs : List β} : Sane Good Fits (bs ++ cs) ↔
    Sane Good Fits bs ∧ Sane Good Fits cs ∧ ∀ a ∈ bs.getLast?, ∀ b ∈ cs.head?, Fits a b := by
  simp only [Sane, List.isChain_append, List.forall_mem_append]
  tauto

theorem sane_of_quiet {bs : List β} (h : ∀ b ∈ bs, Quiet Good Fits b) : Sane Good Fits bs := by
  refine ⟨fun b hb => (h b hb).1, ?_⟩
  induction bs with
  | nil => exact .nil
  | cons b bs ih =>
    cases bs with
    | nil => exact .singleton b
    | cons c bs =>
      refine .cons_cons ((h c (by simp)).2 b) (ih fun d hd => h d (List.mem_cons_of_mem b hd))

theorem Sane.append_quiet {bs cs : List β} (h : Sane Good Fits bs)
    (hcs : ∀ c ∈ cs, Quiet Good Fits c) : Sane Good Fits (bs ++ cs) :=
  sane_append.2 ⟨h, sane_of_quiet hcs, fun a _ c hc => (hcs c (List.mem_of_mem_head? hc)).2 a⟩

end

/-! ## Completing -/

/-- What texts are completed with. Terminals that are held back are those that a production gives way to
and some others, the loud ones, which stand in the second place of a right side only. For all other
terminals there are tokens, and for each symbol a production of lower ones that gives way to nothing. What
a production makes of values that go together goes with any other. -/
structure Fillers (g : Grammar) (start : Nat) (defers : Nat → Nat → Prop) (meaning : Meaning α β)
    (terminal : α → Nat) (held loud : Nat → Prop) (height : Nat → Nat) (Known : α → Prop)
    (Good : β → Prop) (Fits : β → β → Prop) : Prop where
  holds : g.Holds held
  held_of_defers : ∀ i t, defers i t → held t
  held_of_loud : ∀ t, loud t → held t
  end_lt : g.endOfInput < g.terminals
  end_free : ¬held g.endOfInput
  loud_second : ∀ q ∈ g.numbered, ∀ i y, q.production.right[i]? = some y → loud y → i = 1
  leaf : ∀ y < g.terminals, g.Occurs y → ¬loud y →
    ∃ a, terminal a = y ∧ Known a ∧ Quiet Good Fits (meaning.leaf a)
  lower : ∀ y, g.terminals ≤ y → g.Occurs y → y ≠ start → ∃ p ∈ g.numbered,
    p.production.left = y ∧ p.production.right ≠ [] ∧ (∀ t, ¬defers p.index t) ∧
    (∀ x ∈ p.production.right, ¬loud x ∧ height x < height y) ∧ ∀ x ∈ p.production.right.head?, ¬held x
  node : ∀ p ∈ g.numbered, ∀ la < g.terminals, ∀ v cs n,
    Yields g defers meaning terminal la p.production.right v cs n →
    (∀ a ∈ v, Known a) → Sane Good Fits cs → Quiet Good Fits (meaning.node p.index cs)

/-- Tokens that a symbol yields in front of any terminal. The first is not held back if the symbol is
not. -/
def Filled (g : Grammar) (defers : Nat → Nat → Prop) (meaning : Meaning α β) (terminal : α → Nat)
    (held : Nat → Prop) (Known : α → Prop) (Good : β → Prop) (Fits : β → β → Prop) (ys : List Nat) :
    Prop :=
  ∃ v cs n, (∀ a ∈ v, Known a) ∧ (∀ c ∈ cs, Quiet Good Fits c) ∧
    (∀ la, Yields g defers meaning terminal la ys v cs n) ∧ (ys ≠ [] → v ≠ []) ∧
    ((∀ y ∈ ys.head?, ¬held y) → ∀ la, ¬held la → ¬held (nextTerminal terminal v la))

namespace Fillers

variable {held loud : Nat → Prop} {height : Nat → Nat} {Known : α → Prop} {Good : β → Prop}
  {Fits : β → β → Prop}
  (F : Fillers g start defers meaning terminal held loud height Known Good Fits)

theorem filled_all {ys : List Nat}
    (h : ∀ y ∈ ys, Filled g defers meaning terminal held Known Good Fits [y]) :
    Filled g defers meaning terminal held Known Good Fits ys := by
  induction ys with
  | nil => exact ⟨[], [], 0, nofun, nofun, fun _ => .nil, fun h => absurd rfl h, fun _ _ hla => hla⟩
  | cons y ys ih =>
    obtain ⟨v, cs, n, hv, hcs, hyields, -, -⟩ := ih fun z hz => h z (List.mem_cons_of_mem y hz)
    obtain ⟨u, ds, k, hu, hds, hyield, hne, hhead⟩ := h y List.mem_cons_self
    refine ⟨u ++ v, ds ++ cs, k + n, List.forall_mem_append.2 ⟨hu, hv⟩,
      List.forall_mem_append.2 ⟨hds, hcs⟩, fun la => (hyield _).append (hyields la), fun _ => ?_,
      fun hheld la hla => ?_⟩
    · exact List.append_ne_nil_of_left_ne_nil (hne (List.cons_ne_nil _ _)) _
    · cases u with
      | nil => exact absurd rfl (hne (List.cons_ne_nil _ _))
      | cons a u => exact hhead hheld la hla

include F

/-- A symbol is filled in by the lower symbols of a production. -/
theorem fill (hg : g.Deterministic root start defers) {y : Nat} (hoccurs : g.Occurs y)
    (hstart : y ≠ start) (hloud : ¬loud y) : Filled g defers meaning terminal held Known Good Fits [y] := by
  induction hheight : height y using Nat.strong_induction_on generalizing y with
  | _ h ih =>
  subst hheight
  rcases Nat.lt_or_ge y g.terminals with hlt | hge
  · obtain ⟨a, rfl, hfiller, hquiet⟩ := F.leaf y hlt hoccurs hloud
    exact ⟨[a], [meaning.leaf a], 0, by simpa using hfiller, by simpa using hquiet,
      fun la => .leaf .nil, fun _ => List.cons_ne_nil _ _, fun hhead _ _ => hhead _ rfl⟩
  · obtain ⟨p, hp, rfl, hne, hdefers, hlower, hhead⟩ := F.lower y hge hoccurs hstart
    have hmem := Grammar.mem_of_numbered hp
    obtain ⟨v, cs, n, hv, hcs, hyields, hvne, hvhead⟩ := filled_all fun x hx =>
      ih _ (hlower x hx).2 ⟨_, hmem, hx⟩ (by
        rintro rfl
        rw [(hg.start_alone _ hmem hx).1] at hoccurs
        exact hg.root_fresh hoccurs) (hlower x hx).1 rfl
    refine ⟨v, [meaning.node p.index cs], n + 0 + 1, hv, ?_, fun la => ?_, fun _ => hvne hne,
      fun _ => hvhead hhead⟩
    · simpa using F.node p hp g.endOfInput F.end_lt v cs n (hyields _)
        (fun a ha => hv a ha) (sane_of_quiet hcs)
    · have hnone : Yields g defers meaning terminal la [] [] [] 0 := .nil
      have hnode := Yields.node hp (hyields _) (hdefers _) hnone
      rwa [List.append_nil] at hnode

section

variable (hg : g.Deterministic root start defers) {q : Numbered} {j x n k : Nat} {u v : List α}
  {bs : List β} {c : β}
include hg

/-- The rest of a right side is filled in. -/
theorem fill_rest (hq : q ∈ g.numbered)
    (hheld : ∀ y, q.production.right[j + 1]? = some y → ¬held y) :
    ∃ v cs n, (∀ a ∈ v, Known a) ∧ (∀ c ∈ cs, Quiet Good Fits c) ∧
      (∀ la, Yields g defers meaning terminal la (q.production.right.drop (j + 1)) v cs n) ∧
      ∀ la, ¬held la → ¬held (nextTerminal terminal v la) := by
  have hfilled : ∀ y ∈ q.production.right.drop (j + 1),
      Filled g defers meaning terminal held Known Good Fits [y] := by
    intro y hy
    obtain ⟨i, hi⟩ := List.mem_iff_getElem?.1 hy
    rw [List.getElem?_drop] at hi
    have hmem := List.mem_of_getElem? hi
    refine F.fill hg ⟨_, Grammar.mem_of_numbered hq, hmem⟩ ?_ fun hloud => ?_
    · rintro rfl
      rw [(hg.start_alone _ (Grammar.mem_of_numbered hq) hmem).2] at hi
      rw [show j + 1 + i = j + i + 1 by omega] at hi
      cases hi
    · have hone := F.loud_second q hq _ y hi hloud
      obtain ⟨rfl, rfl⟩ : j = 0 ∧ i = 0 := by omega
      exact hheld y hi (F.held_of_loud y hloud)
  obtain ⟨v, cs, n, hv, hcs, hyields, -, hhead⟩ := filled_all hfilled
  refine ⟨v, cs, n, hv, hcs, hyields, hhead fun y hy => hheld y ?_⟩
  rwa [List.head?_drop] at hy

/-- A production with the part in front of a symbol, the symbol, and the rest filled in. -/
theorem grow (hq : q ∈ g.numbered) (hx : q.production.right[j]? = some x)
    (hheld : ∀ y, q.production.right[j + 1]? = some y → ¬held y)
    (hv : Yields g defers meaning terminal (nextTerminal terminal u g.endOfInput)
      (q.production.right.take j) v bs k)
    (hu : ∀ la, ¬held la → Yields g defers meaning terminal la [x] u [c] n)
    (hknown : ∀ a ∈ v ++ u, Known a) :
    ∃ v' b n', (∀ a ∈ v', Known a) ∧
      (∀ la, ¬held la →
        Yields g defers meaning terminal la [q.production.left] (v ++ (u ++ v')) [b] n') ∧
      (∀ la, ¬held la → ¬held (nextTerminal terminal v' la)) ∧
      (Sane Good Fits (bs ++ [c]) → Quiet Good Fits b) := by
  obtain ⟨v', cs, m, hv', hcs, hrest, hhead⟩ := F.fill_rest hg hq hheld
  have hsplit : q.production.right =
      q.production.right.take j ++ ([x] ++ q.production.right.drop (j + 1)) := by
    obtain ⟨hlt, rfl⟩ := List.getElem?_eq_some_iff.1 hx
    rw [List.singleton_append, ← List.drop_eq_getElem_cons hlt, List.take_append_drop]
  have hright : ∀ la, ¬held la → Yields g defers meaning terminal la q.production.right
      (v ++ (u ++ v')) (bs ++ ([c] ++ cs)) (k + (n + m)) := by
    intro la hla
    have hlater := hhead la hla
    rw [hsplit]
    refine Yields.append ?_ ((hu _ hlater).append (hrest la))
    rw [nextTerminal_append]
    exact hv.relax_behind F.held_of_defers hlater
  refine ⟨v', meaning.node q.index (bs ++ ([c] ++ cs)), k + (n + m) + 0 + 1, hv', fun la hla => ?_,
    hhead, fun hsane => ?_⟩
  · have hnode := Yields.node (w := []) hq (hright la hla)
      (fun hdefer => hla (F.held_of_defers _ _ hdefer)) .nil
    rwa [List.append_nil] at hnode
  · refine F.node q hq _ F.end_lt _ _ _ (hright _ F.end_free) ?_ ?_
    · rw [← List.append_assoc]
      exact List.forall_mem_append.2 ⟨hknown, fun a ha => hv' a ha⟩
    · rw [← List.append_assoc]
      exact hsane.append_quiet hcs

end

/-- What was read, and tokens of a symbol that is wanted behind it, are the beginning of a text. If all
values go together, so that of the text is good. -/
theorem completes (hg : g.Deterministic root start defers) {s : Stack β} {w u : List α} {x n : Nat}
    {c : β}
    (hs : Piled g defers meaning terminal (nextTerminal terminal u g.endOfInput) s w)
    (hwanted : Wanted g held (s.top g.tables) x)
    (hu : ∀ la, ¬held la → Yields g defers meaning terminal la [x] u [c] n)
    (hknown : ∀ a ∈ w ++ u, Known a) :
    ∃ v b k, (∀ a ∈ v, Known a) ∧
      Yields g defers meaning terminal g.endOfInput [start] (w ++ (u ++ v)) [b] k ∧
      (Sane Good Fits (s.values ++ [c]) → Good b) := by
  -- The stack gets shorter when a production is reduced of which a part was read before.
  induction hlen : s.length using Nat.strong_induction_on generalizing s w u x n c with
  | _ len ih =>
  subst hlen
  generalize htop : s.top g.tables = state at hwanted
  induction hwanted generalizing u c n with
  | @first q x hq hindex hx hbase =>
    have hroot := hg.production_zero hq hindex
    rw [hroot] at hx
    cases hx
    cases hs with
    | nil =>
      refine ⟨[], c, n, nofun, ?_, fun hsane => hsane.1 c (by simp)⟩
      rw [List.append_nil]
      exact hu _ F.end_free
    | cons =>
      have hoccurs := Tables.has_next_initial hq (htop ▸ hbase)
      rw [hroot] at hoccurs
      exact absurd hoccurs hg.root_fresh
  | @brought q x hq _ hx hheld ihwanted =>
    obtain ⟨v, b, k, hv, hb, hhead, hquiet⟩ := F.grow hg hq hx hheld .nil hu fun a ha =>
      hknown a (List.mem_append_right _ ha)
    have hs' : Piled g defers meaning terminal (nextTerminal terminal (u ++ v) g.endOfInput) s w := by
      rw [nextTerminal_append]
      exact hs.relax_behind F.held_of_defers (hhead _ F.end_free)
    have hknown' : ∀ a ∈ w ++ (u ++ v), Known a := by
      rw [← List.append_assoc]
      exact List.forall_mem_append.2 ⟨hknown, fun a ha => hv a ha⟩
    obtain ⟨v', b', k', hv', hyields, hgood⟩ := ihwanted hs' hb hknown'
    refine ⟨v ++ v', b', k', List.forall_mem_append.2 ⟨hv, hv'⟩, ?_, fun hsane => hgood ?_⟩
    · rwa [List.append_assoc] at hyields
    · have hparts := sane_append.1 hsane
      exact hparts.1.append_quiet (by simpa using hquiet hparts.2.1)
  | @moved q j x hq hx hbit hheld =>
    have hlt := (List.getElem?_eq_some_iff.1 hx).1
    obtain ⟨pile, below, w', v₀, m, rfl, rfl, hpile, hbase, hbelow, hv₀⟩ :=
      hs.pop hq (Nat.le_of_lt hlt) (htop ▸ hbit)
    have hindex : q.index ≠ 0 := by
      intro hzero
      rw [hg.production_zero hq hzero] at hx
      cases hx
    have hreached := hbelow.reached
    obtain ⟨p, hp, i, hi, hitem⟩ := (hreached.exists_wanting hg hq hbase).resolve_left hindex
    rw [List.append_assoc] at hknown
    obtain ⟨v, b, k, hv, hb, hhead, hquiet⟩ := F.grow hg hq hx hheld hv₀ hu fun a ha =>
      hknown a (List.mem_append_right _ ha)
    have hbelow' : Piled g defers meaning terminal
        (nextTerminal terminal (v₀ ++ (u ++ v)) g.endOfInput) below w' := by
      rw [← List.append_assoc, nextTerminal_append]
      rw [← nextTerminal_append] at hbelow
      exact hbelow.relax_behind F.held_of_defers (hhead _ F.end_free)
    have hknown' : ∀ a ∈ w' ++ (v₀ ++ (u ++ v)), Known a := by
      rw [← List.append_assoc v₀, ← List.append_assoc w']
      exact List.forall_mem_append.2 ⟨hknown, fun a ha => hv a ha⟩
    obtain ⟨v', b', k', hv', hyields, hgood⟩ := ih below.length (by simp [hpile]) hbelow'
      (hreached.wanted hg F.holds hp hi hitem) hb hknown' rfl
    refine ⟨v ++ v', b', k', List.forall_mem_append.2 ⟨hv, hv'⟩, ?_, fun hsane => hgood ?_⟩
    · simpa using hyields
    · rw [Stack.values_append, List.append_assoc] at hsane
      have hparts := sane_append.1 hsane
      exact hparts.1.append_quiet (by simpa using hquiet hparts.2.1)

end Fillers

end Scriptlet.Lr
