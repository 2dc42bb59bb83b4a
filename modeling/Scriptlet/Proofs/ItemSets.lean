import Scriptlet.Lr.Run

/-!
What the states of a shift-reduce parser contain. A state is a number whose bits are items; here its
bits are read as a set, and the three ways in which an item gets into a state are told apart: it is
the first item, its dot was moved over a symbol, or its dot stands in front and a production of its
left side was wanted.

Main statements, for the tables of a grammar whose symbols are in range:

* `has_next_succ`, `has_next_inv`: moving the dot over a symbol, forwards and backwards;
* `has_next_initial`: an item with the dot in front belongs to a symbol that some right side uses;
* `Reached.has_initial`: a state that wants a symbol has every production of it.
-/

namespace Scriptlet.Lr

/-! ## Sets as numbers -/

namespace Bits

@[simp] theorem has_zero (i : Nat) : has 0 i = false := Nat.zero_testBit i

@[simp] theorem has_or (a b : Bits) (i : Nat) : has (a ||| b) i = (has a i || has b i) :=
  Nat.testBit_or a b i

@[simp] theorem has_and (a b : Bits) (i : Nat) : has (a &&& b) i = (has a i && has b i) :=
  Nat.testBit_and a b i

@[simp] theorem has_one (n i : Nat) : has (one n) i = decide (n = i) := by
  rw [has, one, Nat.one_shiftLeft, Nat.testBit_two_pow]

theorem has_shift (a : Bits) (i : Nat) : has (a <<< 1) (i + 1) = has a i := by
  simp [has, Nat.testBit_shiftLeft]

theorem has_shift_zero (a : Bits) : has (a <<< 1) 0 = false := by
  simp [has]

theorem and_ne_zero_iff (a b : Bits) : a &&& b ≠ 0 ↔ ∃ i, has a i ∧ has b i := by
  constructor
  · intro h
    obtain ⟨i, hi⟩ := Nat.exists_testBit_of_ne_zero h
    exact ⟨i, by simpa [has] using hi⟩
  · rintro ⟨i, ha, hb⟩ h
    have hi : has (a &&& b) i = true := by simp [ha, hb]
    simp [h] at hi

/-- One set is part of another. -/
def Sub (a b : Bits) : Prop := ∀ i, has a i → has b i

theorem Sub.trans {a b c : Bits} (hab : a.Sub b) (hbc : b.Sub c) : a.Sub c :=
  fun i hi => hbc i (hab i hi)

theorem sub_or_left (a b : Bits) : a.Sub (a ||| b) := fun i hi => by simp [hi]

theorem sub_or_right (a b : Bits) : b.Sub (a ||| b) := fun i hi => by simp [hi]

end Bits

/-! ## Items of a grammar -/

namespace Grammar

variable {g : Grammar}

variable {p q : Numbered} {j k : Nat}

/-- Productions that stand in order have their items in order. -/
theorem numberFrom_spec :
    ∀ {ps : List Production} {index base : Nat}, p ∈ numberFrom index base ps →
      base ≤ p.base ∧ ∃ i, p.index = index + i ∧ ps[i]? = some p.production
  | [], _, _, h => by cases h
  | q :: ps, index, base, h => by
    rcases List.mem_cons.1 h with rfl | h
    · exact ⟨Nat.le_refl _, 0, rfl, rfl⟩
    · obtain ⟨hb, i, hi, hp⟩ := numberFrom_spec h
      exact ⟨by omega, i + 1, by omega, hp⟩

theorem exists_numberFrom {p : Production} :
    ∀ {ps : List Production} {i : Nat} (index base : Nat), ps[i]? = some p →
      ∃ b, (⟨index + i, b, p⟩ : Numbered) ∈ numberFrom index base ps
  | q :: ps, 0, index, base, h => by
    cases h
    exact ⟨base, List.mem_cons_self⟩
  | q :: ps, i + 1, index, base, h => by
    obtain ⟨b, hb⟩ := exists_numberFrom (index + 1) (base + q.right.length + 1)
      (List.getElem?_cons_succ ▸ h)
    rw [show index + 1 + i = index + (i + 1) by omega] at hb
    exact ⟨b, List.mem_cons_of_mem _ hb⟩

theorem numberFrom_unique (hj : j ≤ p.production.right.length) (hk : k ≤ q.production.right.length)
    (h : p.base + j = q.base + k) :
    ∀ {ps : List Production} {index base : Nat}, p ∈ numberFrom index base ps →
      q ∈ numberFrom index base ps → p = q
  | [], _, _, hp, _ => by cases hp
  | r :: ps, index, base, hp, hq => by
    rcases List.mem_cons.1 hp with rfl | hp <;> rcases List.mem_cons.1 hq with rfl | hq
    · rfl
    · have := (numberFrom_spec hq).1
      dsimp only at hj h
      omega
    · have := (numberFrom_spec hp).1
      dsimp only at hk h
      omega
    · exact numberFrom_unique hj hk h hp hq

theorem getElem?_of_numbered (h : p ∈ g.numbered) :
    g.productions[p.index]? = some p.production := by
  obtain ⟨-, i, hi, hp⟩ := numberFrom_spec h
  rwa [hi, Nat.zero_add]

theorem mem_of_numbered (h : p ∈ g.numbered) : p.production ∈ g.productions :=
  List.mem_of_getElem? (getElem?_of_numbered h)

theorem exists_numbered {i : Nat} {p : Production} (h : g.productions[i]? = some p) :
    ∃ b, (⟨i, b, p⟩ : Numbered) ∈ g.numbered := by
  have hmem := exists_numberFrom 0 0 h
  rwa [Nat.zero_add] at hmem

/-- An item belongs to one production only. -/
theorem item_unique (hp : p ∈ g.numbered) (hq : q ∈ g.numbered) (hj : j ≤ p.production.right.length)
    (hk : k ≤ q.production.right.length) (h : p.base + j = q.base + k) : p = q :=
  numberFrom_unique hj hk h hp hq

theorem has_addBefore (x i : Nat) :
    ∀ (right : List Nat) (item : Nat) (bits : Bits),
      Bits.has (addBefore x item right bits) i = true ↔
        Bits.has bits i = true ∨ ∃ j, right[j]? = some x ∧ i = item + j
  | [], item, bits => by simp [addBefore]
  | y :: right, item, bits => by
    rw [addBefore, has_addBefore x i right]
    constructor
    · rintro (h | ⟨j, hj, rfl⟩)
      · split at h
        · next hy =>
          rcases (by simpa using h : Bits.has bits i = true ∨ item = i) with h | rfl
          · exact .inl h
          · exact .inr ⟨0, by rw [hy]; rfl, rfl⟩
        · exact .inl h
      · exact .inr ⟨j + 1, by simpa using hj, by omega⟩
    · rintro (h | ⟨j, hj, rfl⟩)
      · left
        split <;> simp [h]
      · cases j with
        | zero =>
          left
          rw [if_pos (by simpa using hj)]
          simp
        | succ j => exact .inr ⟨j, by simpa using hj, by omega⟩

/-- The items in front of a symbol, for a list of productions. -/
theorem has_foldl_addBefore (x i : Nat) (ps : List Numbered) (bits : Bits) :
    Bits.has (ps.foldl (fun bits p => addBefore x p.base p.production.right bits) bits) i = true ↔
      Bits.has bits i = true ∨
        ∃ p ∈ ps, ∃ j, p.production.right[j]? = some x ∧ i = p.base + j := by
  induction ps generalizing bits with
  | nil => simp
  | cons p ps ih =>
    rw [List.foldl_cons, ih, has_addBefore]
    simp only [List.mem_cons, exists_eq_or_imp, or_assoc]

theorem has_before (g : Grammar) (x i : Nat) :
    Bits.has (g.before x) i = true ↔
      ∃ p ∈ g.numbered, ∃ j, p.production.right[j]? = some x ∧ i = p.base + j := by
  rw [before, has_foldl_addBefore]
  simp

theorem has_foldl_starting (x i : Nat) (ps : List Numbered) (bits : Bits) :
    Bits.has (ps.foldl
      (fun bits p => if p.production.left = x then bits ||| Bits.one p.base else bits) bits) i = true ↔
      Bits.has bits i = true ∨ ∃ p ∈ ps, p.production.left = x ∧ i = p.base := by
  induction ps generalizing bits with
  | nil => simp
  | cons p ps ih =>
    rw [List.foldl_cons, ih]
    simp only [List.mem_cons, exists_eq_or_imp]
    split
    · next h => simp [h, or_assoc, eq_comm (a := i)]
    · next h => simp [h]

theorem has_starting (g : Grammar) (x i : Nat) :
    Bits.has (g.starting x) i = true ↔ ∃ p ∈ g.numbered, p.production.left = x ∧ i = p.base := by
  rw [starting, has_foldl_starting]
  simp

/-- A symbol stands on some right side. -/
def Occurs (g : Grammar) (x : Nat) : Prop :=
  ∃ p ∈ g.productions, x ∈ p.right

end Grammar

/-! ## Closure -/

theorem saturate_induction {α : Type} [DecidableEq α] {step : α → α} {P : α → Prop}
    (hstep : ∀ a, P a → P (step a)) (n : Nat) {a : α} (ha : P a) : P (saturate step n a) := by
  induction n generalizing a with
  | zero => exact ha
  | succ n ih =>
    rw [saturate]
    split
    · exact ha
    · exact ih (hstep a ha)

section Spread

variable {before starting : Array Bits}

theorem sub_spread (symbols : List Nat) (items : Bits) :
    items.Sub (spread before starting symbols items) := by
  induction symbols generalizing items with
  | nil => exact fun i hi => hi
  | cons a symbols ih =>
    rw [spread, List.foldl_cons]
    split
    · exact ih items
    · exact (Bits.sub_or_left _ _).trans (ih _)

variable {symbols : List Nat} {i a : Nat}

/-- A symbol behind a dot brings its productions in. -/
theorem starting_sub_spread {items : Bits} (ha : a ∈ symbols) (hi : Bits.has items i)
    (hb : Bits.has (before.getD a 0) i) :
    (starting.getD a 0).Sub (spread before starting symbols items) := by
  induction symbols generalizing items with
  | nil => cases ha
  | cons b symbols ih =>
    rw [spread, List.foldl_cons]
    rcases List.mem_cons.1 ha with rfl | ha
    · rw [if_neg ((Bits.and_ne_zero_iff _ _).2 ⟨i, hi, hb⟩)]
      exact (Bits.sub_or_right _ _).trans (sub_spread symbols _)
    · split
      · exact ih ha hi
      · exact ih ha (Bits.sub_or_left _ _ i hi)

/-- An item that is not there from the start came in with all productions of a symbol. -/
theorem has_spread {items : Bits} (h : Bits.has (spread before starting symbols items) i) :
    Bits.has items i ∨ ∃ b ∈ symbols, (∃ j, Bits.has (before.getD b 0) j) ∧
      Bits.has (starting.getD b 0) i ∧
      (starting.getD b 0).Sub (spread before starting symbols items) := by
  induction symbols generalizing items with
  | nil => exact .inl h
  | cons b symbols ih =>
    rw [spread, List.foldl_cons] at h ⊢
    split at h
    · next hb =>
      rw [if_pos hb]
      rcases ih h with h | ⟨c, hc, h⟩
      · exact .inl h
      · exact .inr ⟨c, List.mem_cons_of_mem _ hc, h⟩
    · next hb =>
      rw [if_neg hb]
      rcases ih h with h | ⟨c, hc, h⟩
      · rcases (by simpa using h : Bits.has items i = true ∨ Bits.has (starting.getD b 0) i = true)
          with h | h
        · exact .inl h
        · obtain ⟨j, -, hj⟩ := (Bits.and_ne_zero_iff _ _).1 hb
          exact .inr ⟨b, List.mem_cons_self, ⟨j, hj⟩, h,
            (Bits.sub_or_right _ _).trans (sub_spread symbols _)⟩
      · exact .inr ⟨c, List.mem_cons_of_mem _ hc, h⟩

/-- If the sets of productions are closed themselves, so is the result. -/
theorem spread_closed {items : Bits}
    (hclosed : ∀ b ∈ symbols, ∀ a ∈ symbols, ∀ i, Bits.has (starting.getD b 0) i →
      Bits.has (before.getD a 0) i → (starting.getD a 0).Sub (starting.getD b 0))
    (ha : a ∈ symbols) (h : Bits.has (spread before starting symbols items) i)
    (hb : Bits.has (before.getD a 0) i) :
    (starting.getD a 0).Sub (spread before starting symbols items) := by
  rcases has_spread h with h | ⟨b, hmem, -, hi, hsub⟩
  · exact starting_sub_spread ha h hb
  · exact (hclosed b hmem a ha i hi hb).trans hsub

end Spread

/-! ## The tables of a grammar -/

/-- The tables of a grammar. -/
abbrev Grammar.tables (g : Grammar) : Tables := .ofGrammar g

/-- Symbols are in range and only symbols behind the terminals are replaced. -/
structure Grammar.InRange (g : Grammar) : Prop where
  left_lt : ∀ p ∈ g.productions, p.left < g.symbols
  left_ge : ∀ p ∈ g.productions, g.terminals ≤ p.left
  right_lt : ∀ p ∈ g.productions, ∀ x ∈ p.right, x < g.symbols

/-- The productions that a symbol brings in want no symbol that they do not bring in as well. -/
def Grammar.Closed (g : Grammar) : Prop :=
  ∀ b ∈ g.nonterminals, spread g.tables.before g.tables.starting g.nonterminals
    (g.tables.starting.getD b 0) = g.tables.starting.getD b 0

namespace Tables

variable {g : Grammar}

variable {x i : Nat} {p : Numbered}

theorem before_getD (hx : x < g.symbols) : g.tables.before.getD x 0 = g.before x := by
  simp [ofGrammar, hx]

theorem starting_getD (hx : x < g.symbols) :
    g.tables.starting.getD x 0 =
      saturate (spread ((List.range g.symbols).map g.before).toArray
        ((List.range g.symbols).map g.starting).toArray g.nonterminals) g.symbols (g.starting x) := by
  simp [ofGrammar, hx]

theorem exists_of_has_before (h : Bits.has (g.tables.before.getD x 0) i) :
    ∃ p ∈ g.numbered, ∃ j, p.production.right[j]? = some x ∧ i = p.base + j := by
  by_cases hx : x < g.symbols
  · rw [before_getD hx] at h
    exact (g.has_before x i).1 h
  · simp [ofGrammar, hx] at h

theorem occurs_of_has_before (h : Bits.has (g.tables.before.getD x 0) i) :
    g.Occurs x := by
  obtain ⟨p, hp, j, hj, -⟩ := exists_of_has_before h
  exact ⟨p.production, Grammar.mem_of_numbered hp, List.mem_of_getElem? hj⟩

theorem has_before_of_getElem? (hg : g.InRange) (hp : p ∈ g.numbered) {j : Nat}
    (hj : p.production.right[j]? = some x) :
    Bits.has (g.tables.before.getD x 0) (p.base + j) := by
  rw [before_getD (hg.right_lt _ (Grammar.mem_of_numbered hp) x (List.mem_of_getElem? hj))]
  exact (g.has_before x _).2 ⟨p, hp, j, hj, rfl⟩

theorem mem_nonterminals (hg : g.InRange) (hp : p ∈ g.numbered) :
    p.production.left ∈ g.nonterminals := by
  have hmem := Grammar.mem_of_numbered hp
  simpa [Grammar.nonterminals] using ⟨hg.left_lt _ hmem, hg.left_ge _ hmem⟩

/-- A symbol brings its own productions in. -/
theorem has_starting_base (hg : g.InRange) (hp : p ∈ g.numbered) :
    Bits.has (g.tables.starting.getD p.production.left 0) p.base := by
  rw [starting_getD (hg.left_lt _ (Grammar.mem_of_numbered hp))]
  exact saturate_induction (P := fun bits => Bits.has bits p.base)
    (fun bits h => sub_spread _ _ _ h) _ ((g.has_starting _ _).2 ⟨p, hp, rfl, rfl⟩)

/-- What a symbol brings in has the dot in front. -/
theorem exists_of_has_starting {b : Nat} (h : Bits.has (g.tables.starting.getD b 0) i) :
    ∃ q ∈ g.numbered, i = q.base ∧ (q.production.left = b ∨ g.Occurs q.production.left) := by
  by_cases hb : b < g.symbols
  · rw [starting_getD hb] at h
    revert h i
    refine saturate_induction (P := fun bits => ∀ {i}, Bits.has bits i → ∃ q ∈ g.numbered,
      i = q.base ∧ (q.production.left = b ∨ g.Occurs q.production.left)) ?_ _ ?_
    · intro bits ih i h
      rcases has_spread h with h | ⟨c, hc, ⟨j, hj⟩, hi, -⟩
      · exact ih h
      · by_cases hlt : c < g.symbols
        · have hs : Bits.has (g.starting c) i := by simpa [hlt] using hi
          obtain ⟨q, hq, rfl, rfl⟩ := (g.has_starting c i).1 hs
          exact ⟨q, hq, rfl, .inr (occurs_of_has_before hj)⟩
        · simp [hlt] at hi
    · intro i h
      obtain ⟨q, hq, hl, rfl⟩ := (g.has_starting b i).1 h
      exact ⟨q, hq, rfl, .inl hl⟩
  · simp [ofGrammar, hb] at h

end Tables

/-! ## States -/

/-- The states that symbols lead to. -/
inductive Reached (g : Grammar) : Bits → Prop
  | start : Reached g g.tables.start
  | next {s : Bits} (h : Reached g s) (x : Nat) : Reached g (g.tables.next s x)

namespace Tables

variable {g : Grammar} {s : Bits} {p : Numbered} {j x : Nat}

theorem has_start_zero : Bits.has g.tables.start 0 := by
  apply sub_spread
  simp

/-- At the start every dot is in front. -/
theorem eq_zero_of_has_start (hp : p ∈ g.numbered) (hj : j ≤ p.production.right.length)
    (h : Bits.has g.tables.start (p.base + j)) : j = 0 := by
  rcases has_spread h with h | ⟨b, -, -, h, -⟩
  · have hzero : 0 = p.base + j := by simpa using h
    omega
  · obtain ⟨q, hq, heq, -⟩ := exists_of_has_starting h
    obtain rfl := Grammar.item_unique hp hq hj (Nat.zero_le _) heq
    omega

/-- The dot is moved over a symbol. -/
theorem has_next_succ (hg : g.InRange) (hp : p ∈ g.numbered)
    (hx : p.production.right[j]? = some x) (h : Bits.has s (p.base + j)) :
    Bits.has (g.tables.next s x) (p.base + j + 1) := by
  apply sub_spread
  rw [Bits.has_shift, Bits.has_and, h, has_before_of_getElem? hg hp hx, Bool.and_self]

/-- A dot that is not in front was moved over the symbol before it. -/
theorem has_next_inv (hp : p ∈ g.numbered) (hj : j < p.production.right.length)
    (h : Bits.has (g.tables.next s x) (p.base + j + 1)) :
    Bits.has s (p.base + j) ∧ p.production.right[j]? = some x := by
  rcases has_spread h with h | ⟨b, -, -, h, -⟩
  · rw [Bits.has_shift] at h
    obtain ⟨hs, hb⟩ : Bits.has s (p.base + j) ∧ Bits.has (g.tables.before.getD x 0) (p.base + j) := by
      simpa using h
    obtain ⟨q, hq, k, hk, heq⟩ := exists_of_has_before hb
    have hlt := (List.getElem?_eq_some_iff.1 hk).1
    obtain rfl := Grammar.item_unique hp hq (Nat.le_of_lt hj) (Nat.le_of_lt hlt) heq
    obtain rfl : j = k := by omega
    exact ⟨hs, hk⟩
  · obtain ⟨q, hq, heq, -⟩ := exists_of_has_starting h
    obtain rfl := Grammar.item_unique hp hq (Nat.succ_le_of_lt hj) (Nat.zero_le _) heq
    omega

/-- Behind a symbol, a dot in front is there because the left side is wanted. -/
theorem has_next_initial (hp : p ∈ g.numbered) (h : Bits.has (g.tables.next s x) p.base) :
    g.Occurs p.production.left := by
  rcases has_spread h with h | ⟨b, -, ⟨k, hk⟩, h, -⟩
  · cases hb : p.base with
    | zero => simp [hb, Bits.has_shift_zero] at h
    | succ i =>
      rw [hb, Bits.has_shift, Bits.has_and, Bool.and_eq_true] at h
      obtain ⟨q, hq, k, hk, rfl⟩ := exists_of_has_before h.2
      have hlt := (List.getElem?_eq_some_iff.1 hk).1
      obtain rfl := Grammar.item_unique hp hq (Nat.zero_le _) (Nat.succ_le_of_lt hlt) hb
      omega
  · obtain ⟨q, hq, heq, hl⟩ := exists_of_has_starting h
    obtain rfl := Grammar.item_unique hp hq (Nat.zero_le _) (Nat.zero_le _) heq
    rcases hl with rfl | hl
    · exact occurs_of_has_before hk
    · exact hl

end Tables

theorem Reached.exists_spread {g : Grammar} {s : Bits} (h : Reached g s) :
    ∃ items, s = spread g.tables.before g.tables.starting g.nonterminals items := by
  cases h with
  | start => exact ⟨_, rfl⟩
  | next => exact ⟨_, rfl⟩

/-- A state that wants a symbol has every production of it. -/
theorem Reached.has_initial {g : Grammar} {s : Bits} (hg : g.InRange) (hc : g.Closed)
    (h : Reached g s) {p q : Numbered} {j : Nat} (hp : p ∈ g.numbered) (hq : q ∈ g.numbered)
    (hj : p.production.right[j]? = some q.production.left) (hs : Bits.has s (p.base + j)) :
    Bits.has s q.base := by
  obtain ⟨items, rfl⟩ := h.exists_spread
  refine spread_closed ?_ (Tables.mem_nonterminals hg hq) hs
    (Tables.has_before_of_getElem? hg hp hj) _ (Tables.has_starting_base hg hq)
  intro b hb a ha i hi hbi
  have hsub : (g.tables.starting.getD a 0).Sub (spread g.tables.before g.tables.starting
      g.nonterminals (g.tables.starting.getD b 0)) := starting_sub_spread ha hi hbi
  rwa [hc b hb] at hsub

end Scriptlet.Lr
