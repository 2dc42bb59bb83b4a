import Mathlib.Algebra.GroupWithZero.Nat
import Scriptlet.Proofs.ItemSets

/-!
Shift-reduce parsing against derivations. `Yields` reads a list of symbols as tokens, with what is
made of them, without a parser in mind. A node is derived for the terminal behind it, since a
production may give way to that terminal: the parser shifts it and does not reduce.

For a grammar whose tables are `Deterministic`:

* `run_of_yields`: tokens that the start symbol yields are accepted, with the result that the
  derivation has, if the bound allows for as many reductions as the derivation has nodes;
* `yields_of_run`: accepted tokens are yielded by the start symbol, with the result of the run.
-/

namespace Scriptlet.Lr

variable {α β : Type}

/-- The terminal of the first token, or a given one if there is none. -/
def nextTerminal (terminal : α → Nat) : List α → Nat → Nat
  | [], la => la
  | a :: _, _ => terminal a

theorem nextTerminal_append (terminal : α → Nat) (w v : List α) (la : Nat) :
    nextTerminal terminal (w ++ v) la = nextTerminal terminal w (nextTerminal terminal v la) := by
  cases w <;> rfl

/-! ## Derivations -/

/-- With the terminal `la` behind them, the symbols can be read as the tokens; given are what is made
of each symbol and the number of nodes. -/
inductive Yields (g : Grammar) (defers : Nat → Nat → Prop) (meaning : Meaning α β)
    (terminal : α → Nat) : Nat → List Nat → List α → List β → Nat → Prop
  | nil {la : Nat} : Yields g defers meaning terminal la [] [] [] 0
  | leaf {la n : Nat} {a : α} {xs : List Nat} {w : List α} {bs : List β}
      (h : Yields g defers meaning terminal la xs w bs n) :
      Yields g defers meaning terminal la (terminal a :: xs) (a :: w) (meaning.leaf a :: bs) n
  | node {la k n : Nat} {p : Numbered} {xs : List Nat} {v w : List α} {cs bs : List β}
      (hp : p ∈ g.numbered)
      (hc : Yields g defers meaning terminal (nextTerminal terminal w la) p.production.right v cs k)
      (hd : ¬ defers p.index (nextTerminal terminal w la))
      (h : Yields g defers meaning terminal la xs w bs n) :
      Yields g defers meaning terminal la (p.production.left :: xs) (v ++ w)
        (meaning.node p.index cs :: bs) (k + n + 1)

/-- What the tables of a grammar need in order to parse it: the first production is for a root that
nothing uses, and only the start symbol may be empty; first and follow sets are closed; in a state
that has completed a production there is no other one to reduce, and what can follow is shifted
exactly if the production gives way to it. -/
structure Grammar.Deterministic (g : Grammar) (root start : Nat) (defers : Nat → Nat → Prop) : Prop
    extends g.InRange where
  closed : g.Closed
  head : g.productions.head? = some ⟨root, [start]⟩
  root_fresh : ¬ g.Occurs root
  start_alone : ∀ p ∈ g.productions, start ∈ p.right → p.left = root ∧ p.right = [start]
  start_of_empty : ∀ p ∈ g.productions, p.right = [] → p.left = start
  first_terminal : ∀ t < g.terminals, Bits.has (g.first.getD t 0) t
  first_left : ∀ p ∈ g.productions, ∀ x xs, p.right = x :: xs →
    (g.first.getD x 0).Sub (g.first.getD p.left 0)
  follow_root : ∀ t < g.terminals, Bits.has (g.follow.getD root 0) t ↔ t = g.endOfInput
  follow_inner : ∀ p ∈ g.productions, ∀ l x y l', p.right = l ++ x :: y :: l' →
    (g.first.getD y 0).Sub (g.follow.getD x 0)
  follow_last : ∀ p ∈ g.productions, ∀ l x, p.right = l ++ [x] →
    (g.follow.getD p.left 0).Sub (g.follow.getD x 0)
  unique : ∀ s, Reached g s → ∀ p ∈ g.numbered, ∀ q ∈ g.numbered,
    Bits.has s p.complete → Bits.has s q.complete → q = p
  shifts : ∀ s, Reached g s → ∀ p ∈ g.numbered, Bits.has s p.complete →
    ∀ t < g.terminals, Bits.has (g.follow.getD p.production.left 0) t →
      (s &&& g.tables.before.getD t 0 ≠ 0 ↔ defers p.index t)

section

variable {g : Grammar} {root start : Nat} {defers : Nat → Nat → Prop} {meaning : Meaning α β}
  {terminal : α → Nat} {la n : Nat} {xs : List Nat} {w : List α} {bs : List β}

theorem Yields.append {ys : List Nat} {v : List α} {cs : List β} {k : Nat}
    (h : Yields g defers meaning terminal (nextTerminal terminal v la) xs w bs n)
    (h' : Yields g defers meaning terminal la ys v cs k) :
    Yields g defers meaning terminal la (xs ++ ys) (w ++ v) (bs ++ cs) (n + k) := by
  generalize hla : nextTerminal terminal v la = la' at h
  induction h with
  | nil => simpa using h'
  | leaf _ ih => exact .leaf (ih hla)
  | @node la' i n p xs u w ds bs hp hc hd _ _ ih =>
    subst hla
    rw [← nextTerminal_append] at hc hd
    have hnode := Yields.node hp hc hd (ih rfl)
    rw [← List.append_assoc, show i + (n + k) + 1 = i + n + 1 + k by omega] at hnode
    exact hnode

variable (hg : g.Deterministic root start defers) (ht : ∀ a, terminal a < g.terminals)
include hg

include ht in
/-- A symbol that is neither the start nor the root is never empty, and starts with a terminal of its
first set. -/
theorem Yields.first (h : Yields g defers meaning terminal la xs w bs n) :
    ∀ x ys, xs = x :: ys → x ≠ start → x ≠ root →
      ∃ a v, w = a :: v ∧ Bits.has (g.first.getD x 0) (terminal a) := by
  induction h with
  | nil =>
    intro x ys hx
    cases hx
  | @leaf la n a xs w bs _ _ =>
    rintro x ys ⟨⟩ - -
    exact ⟨a, w, rfl, hg.first_terminal _ (ht a)⟩
  | @node la k n p xs v w cs bs hp _ _ _ ih _ =>
    rintro x ys ⟨⟩ hs hr
    have hmem := Grammar.mem_of_numbered hp
    cases hright : p.production.right with
    | nil => exact absurd (hg.start_of_empty _ hmem hright) hs
    | cons y zs =>
      have hy : y ∈ p.production.right := by simp [hright]
      obtain ⟨a, v', rfl, hfirst⟩ := ih y zs hright
        (fun h => hr (hg.start_alone _ hmem (h ▸ hy)).1) (fun h => hg.root_fresh ⟨_, hmem, h ▸ hy⟩)
      exact ⟨a, v' ++ w, rfl, hg.first_left _ hmem y zs hright _ hfirst⟩

/-- The number of nodes is bounded by the number of tokens, given a rank that falls from every right
side to its left side. -/
theorem Yields.nodes_le {r : Nat → Nat} {c : Nat}
    (hleaf : ∀ a, r (terminal a) ≤ c)
    (hrank : ∀ p ∈ g.productions, p.left ≠ start → p.left ≠ root →
      r p.left + 1 ≤ (p.right.map r).sum)
    (h : Yields g defers meaning terminal la xs w bs n) :
    start ∉ xs → root ∉ xs → n + (xs.map r).sum ≤ c * w.length := by
  induction h with
  | nil => simp
  | @leaf la n a xs w bs _ ih =>
    intro hs hr
    have := ih (fun h => hs (.tail _ h)) (fun h => hr (.tail _ h))
    have := hleaf a
    simp only [List.map_cons, List.sum_cons, List.length_cons, Nat.mul_add, Nat.mul_one]
    omega
  | @node la k n p xs v w cs bs hp _ _ _ ihc ih =>
    intro hs hr
    have hmem := Grammar.mem_of_numbered hp
    have hl := hrank _ hmem (fun h => hs (h ▸ .head _)) (fun h => hr (h ▸ .head _))
    have := ihc (fun h => hr ((hg.start_alone _ hmem h).1 ▸ .head _))
      (fun h => hg.root_fresh ⟨_, hmem, h⟩)
    have := ih (fun h => hs (.tail _ h)) (fun h => hr (.tail _ h))
    simp only [List.map_cons, List.sum_cons, List.length_append, Nat.mul_add]
    omega

include ht in
/-- What follows a symbol inside a right side can follow the symbol. -/
theorem Grammar.Deterministic.has_follow {p : Production} (hp : p ∈ g.productions) {j x : Nat}
    (hx : p.right[j]? = some x) (hrest : p.right.drop (j + 1) = xs)
    (h : Yields g defers meaning terminal la xs w bs n)
    (hla : Bits.has (g.follow.getD p.left 0) la) :
    Bits.has (g.follow.getD x 0) (nextTerminal terminal w la) := by
  have hsplit : p.right = p.right.take j ++ x :: xs := by
    obtain ⟨hlt, rfl⟩ := List.getElem?_eq_some_iff.1 hx
    rw [← hrest, ← List.drop_eq_getElem_cons hlt, List.take_append_drop]
  cases xs with
  | nil =>
    cases h
    exact hg.follow_last p hp _ x hsplit _ hla
  | cons y ys =>
    have hy : y ∈ p.right := by rw [hsplit]; simp
    have hstart : y ≠ start := by
      rintro rfl
      have hlen := congrArg List.length (hsplit.symm.trans (hg.start_alone p hp hy).2)
      simp only [List.length_append, List.length_cons, List.length_nil] at hlen
      omega
    obtain ⟨a, v, rfl, hfirst⟩ := h.first hg ht y ys rfl hstart
      (fun h => hg.root_fresh ⟨p, hp, h ▸ hy⟩)
    exact hg.follow_inner p hp _ x y ys hsplit _ hfirst

end

/-! ## Steps of a run -/

section

variable {tables : Tables} {meaning : Meaning α β} {terminal : α → Nat} {bound b : Nat}
  {stack : Stack β} {a : α} {rest : List α}

/-- A run that has only a part of the bound left for its first token. -/
def runFrom (tables : Tables) (meaning : Meaning α β) (terminal : α → Nat) (bound b : Nat)
    (stack : Stack β) : List α → Result α β
  | [] => .unfinished
  | a :: rest =>
    match feed tables meaning (terminal a) a b stack with
    | .shifted next => run tables meaning terminal bound next rest
    | .accepted result => .accepted result
    | .rejected state => .rejected a state

theorem run_eq_runFrom (tables : Tables) (meaning : Meaning α β) (terminal : α → Nat) (bound : Nat)
    (stack : Stack β) (input : List α) :
    run tables meaning terminal bound stack input =
      runFrom tables meaning terminal bound bound stack input := by
  cases input <;> rfl

theorem runFrom_shift {s : Bits}
    (h : tables.action? (stack.top tables) (terminal a) = some (.shift s)) :
    runFrom tables meaning terminal bound (b + 1) stack (a :: rest) =
      runFrom tables meaning terminal bound bound ((s, meaning.leaf a) :: stack) rest := by
  rw [← run_eq_runFrom]
  simp [runFrom, feed, h]

theorem runFrom_reduce {p : Numbered}
    (h : tables.action? (stack.top tables) (terminal a) = some (.reduce p)) :
    runFrom tables meaning terminal bound (b + 1) stack (a :: rest) =
      runFrom tables meaning terminal bound b (stack.reduce tables meaning p) (a :: rest) := by
  simp [runFrom, feed, h]

theorem runFrom_accept {s : Bits} {result : β} (h : tables.action? s (terminal a) = some .accept) :
    runFrom tables meaning terminal bound (b + 1) ((s, result) :: stack) (a :: rest) =
      .accepted result := by
  simp [runFrom, feed, Stack.top, h]

end

section

variable {g : Grammar} {root start : Nat} {defers : Nat → Nat → Prop} {meaning : Meaning α β}
  {terminal : α → Nat} {la n : Nat} {xs : List Nat} {w : List α} {bs : List β}

theorem action?_shift {s : Bits} {t : Nat} (h : s &&& g.tables.before.getD t 0 ≠ 0) :
    g.tables.action? s t = some (.shift (g.tables.next s t)) :=
  if_pos h

theorem getElem?_of_drop_eq_cons {l : List Nat} {j x : Nat} (h : l.drop j = x :: xs) :
    l[j]? = some x ∧ l.drop (j + 1) = xs := by
  constructor
  · rw [← List.head?_drop, h]
    rfl
  · rw [← List.tail_drop, h]
    rfl

variable {s : Stack β} {p : Numbered} {bound j : Nat} {a : α} {b : β} {input : List α}

theorem reduce_pile (tables : Tables) (meaning : Meaning α β) {pile : Stack β}
    (hlen : pile.length = p.production.right.length) :
    Stack.reduce tables meaning p (pile ++ s) =
      (tables.next (s.top tables) p.production.left,
        meaning.node p.index (pile.reverse.map (·.2))) :: s := by
  simp [Stack.reduce, ← hlen]

variable (hg : g.Deterministic root start defers) (ht : ∀ a, terminal a < g.terminals)

section

include hg

theorem action?_reduce {s : Bits} (hs : Reached g s) (hp : p ∈ g.numbered)
    (hc : Bits.has s p.complete) {t : Nat} (ht : t < g.terminals)
    (hf : Bits.has (g.follow.getD p.production.left 0) t) (hd : ¬ defers p.index t) :
    g.tables.action? s t = if p.index = 0 then some .accept else some (.reduce p) := by
  have hcompletes : g.tables.completes s t p = true := by
    rw [Tables.completes, hc]
    exact hf
  have hfind : g.tables.numbered.find? (g.tables.completes s t) = some p := by
    cases h : g.tables.numbered.find? (g.tables.completes s t) with
    | none => exact absurd hcompletes (List.find?_eq_none.1 h p hp)
    | some q =>
      have hq := List.find?_some h
      rw [Tables.completes, Bool.and_eq_true] at hq
      rw [hg.unique s hs p hp q (List.mem_of_find?_eq_some h) hc hq.1]
  rw [Tables.action?, if_neg (fun h => hd ((hg.shifts s hs p hp hc t ht hf).1 h)), hfind]

/-- The root is the left side of production zero only as far as anything uses it. -/
theorem Grammar.Deterministic.index_ne_zero (hp : p ∈ g.numbered) (ho : g.Occurs p.production.left) :
    p.index ≠ 0 := by
  intro h
  have hget := Grammar.getElem?_of_numbered hp
  rw [h, ← List.head?_eq_getElem?, hg.head] at hget
  rw [← Option.some.inj hget] at ho
  exact hg.root_fresh ho

/-! ## Derivations are followed -/

include ht in
/-- Where an item stands in front of symbols that yield the tokens, the parser reads the tokens and
piles up what is made of the symbols. The item stands behind them then. -/
theorem Yields.runs (h : Yields g defers meaning terminal la xs w bs n) :
    ∀ {p : Numbered} {j : Nat} {s : Stack β} {a : α} {u : List α} {b : Nat},
      p ∈ g.numbered → j ≤ p.production.right.length → p.production.right.drop j = xs →
      Reached g (s.top g.tables) → Bits.has (s.top g.tables) (p.base + j) →
      Bits.has (g.follow.getD p.production.left 0) la → terminal a = la → n < b → b ≤ bound →
      ∃ (pile : Stack β) (b' : Nat), pile.length = xs.length ∧ pile.reverse.map (·.2) = bs ∧
        Reached g (Stack.top g.tables (pile ++ s)) ∧
        Bits.has (Stack.top g.tables (pile ++ s)) p.complete ∧ b ≤ b' + n ∧ b' ≤ bound ∧
        runFrom g.tables meaning terminal bound b s (w ++ a :: u) =
          runFrom g.tables meaning terminal bound b' (pile ++ s) (a :: u) := by
  induction h with
  | nil =>
    intro p j s a u b hp hj hdrop hreach hhas hla ha hn hb
    have hlen : j = p.production.right.length :=
      Nat.le_antisymm hj (List.drop_eq_nil_iff.1 hdrop)
    exact ⟨[], b, rfl, rfl, hreach, by rwa [hlen] at hhas, Nat.le_refl b, hb, rfl⟩
  | @leaf la n a' xs w bs _ ih =>
    intro p j s a u b hp hj hdrop hreach hhas hla ha hn hb
    obtain ⟨hx, hdrop'⟩ := getElem?_of_drop_eq_cons hdrop
    have hlt : j < p.production.right.length := (List.getElem?_eq_some_iff.1 hx).1
    have hshift : s.top g.tables &&& g.tables.before.getD (terminal a') 0 ≠ 0 :=
      (Bits.and_ne_zero_iff _ _).2
        ⟨_, hhas, Tables.has_before_of_getElem? hg.toInRange hp hx⟩
    obtain ⟨b, rfl⟩ : ∃ c, b = c + 1 := ⟨b - 1, by omega⟩
    obtain ⟨pile, b', hlen, hbs, hr, hc, hle, hle', hrun⟩ := ih
      (s := (g.tables.next (s.top g.tables) (terminal a'), meaning.leaf a') :: s)
      (u := u) hp hlt hdrop' (hreach.next _) (Tables.has_next_succ hg.toInRange hp hx hhas)
      hla ha (Nat.lt_of_lt_of_le hn hb) (Nat.le_refl bound)
    refine ⟨pile ++ [(g.tables.next (s.top g.tables) (terminal a'), meaning.leaf a')], b', ?_⟩
    rw [List.append_assoc, List.singleton_append, List.cons_append, runFrom_shift (action?_shift hshift)]
    exact ⟨by simp [hlen], by simp [hbs], hr, hc, by omega, hle', hrun⟩
  | @node la k n q xs v w cs bs hq hy hd hrest ihc ih =>
    intro p j s a u b hp hj hdrop hreach hhas hla ha hn hb
    obtain ⟨hx, hdrop'⟩ := getElem?_of_drop_eq_cons hdrop
    have hlt : j < p.production.right.length := (List.getElem?_eq_some_iff.1 hx).1
    have hmem := Grammar.mem_of_numbered hp
    have hfollow := hg.has_follow ht hmem hx hdrop' hrest hla
    -- The token behind the node is the first of `w`, or `a`.
    obtain ⟨a', u', hinput, ha'⟩ : ∃ a' u', w ++ a :: u = a' :: u' ∧
        terminal a' = nextTerminal terminal w la := by
      cases w with
      | nil => exact ⟨a, u, rfl, ha⟩
      | cons a' w => exact ⟨a', w ++ a :: u, rfl, rfl⟩
    obtain ⟨pile, b', hlen, rfl, hr, hc, hle, hle', hrun⟩ := ihc (u := u') hq (Nat.zero_le _)
      List.drop_zero hreach (hreach.has_initial hg.toInRange hg.closed hp hq hx hhas) hfollow ha'
      (by omega : k < b) hb
    obtain ⟨b', rfl⟩ : ∃ c, b' = c + 1 := ⟨b' - 1, by omega⟩
    have haction := action?_reduce hg hr hq hc (ht a') (ha' ▸ hfollow) (ha' ▸ hd)
    rw [if_neg (hg.index_ne_zero hq ⟨_, hmem, List.mem_of_getElem? hx⟩)] at haction
    rw [runFrom_reduce haction, reduce_pile g.tables meaning hlen, ← hinput] at hrun
    obtain ⟨pile', b'', hlen', hbs, hr', hc', hle₁, hle₂, hrun'⟩ := ih (u := u) hp hlt hdrop'
      (s := (g.tables.next (s.top g.tables) q.production.left,
        meaning.node q.index (pile.reverse.map (·.2))) :: s)
      (hreach.next _) (Tables.has_next_succ hg.toInRange hp hx hhas) hla ha (by omega : n < b')
      (by omega)
    refine ⟨pile' ++ [(g.tables.next (s.top g.tables) q.production.left,
      meaning.node q.index (pile.reverse.map (·.2)))], b'', ?_⟩
    rw [List.append_assoc, List.append_assoc, hrun, hrun', List.singleton_append]
    exact ⟨by simp [hlen'], by simp [hbs], hr', hc', by omega, hle₂, rfl⟩

/-- The production of the root. -/
theorem Grammar.Deterministic.exists_root :
    (⟨0, 0, ⟨root, [start]⟩⟩ : Numbered) ∈ g.numbered := by
  have hhead := hg.head
  rw [Grammar.numbered]
  cases hps : g.productions with
  | nil => simp [hps] at hhead
  | cons p ps =>
    rw [hps, List.head?_cons, Option.some.injEq] at hhead
    rw [hhead]
    exact List.mem_cons_self

include ht in
/-- Tokens that the start symbol yields are accepted. -/
theorem run_of_yields {u : List α} (h : Yields g defers meaning terminal g.endOfInput [start] w [b] n)
    (ha : terminal a = g.endOfInput) (hd : ¬ defers 0 g.endOfInput) (hn : n < bound) :
    run g.tables meaning terminal bound [] (w ++ a :: u) = .accepted b := by
  have hroot := hg.exists_root
  have hend : Bits.has (g.follow.getD root 0) g.endOfInput :=
    (hg.follow_root _ (ha ▸ ht a)).2 rfl
  obtain ⟨pile, b', hlen, hbs, hr, hc, hle, -, hrun⟩ := h.runs hg ht (s := []) (u := u) hroot
    (Nat.zero_le _) rfl .start Tables.has_start_zero hend ha hn (Nat.le_refl bound)
  obtain ⟨⟨s, b₁⟩, rfl⟩ := List.length_eq_one_iff.1 hlen
  obtain rfl : b₁ = b := by simpa using hbs
  obtain ⟨b', rfl⟩ : ∃ c, b' = c + 1 := ⟨b' - 1, by omega⟩
  have haction := action?_reduce hg hr hroot hc (ht a) (ha ▸ hend) (ha ▸ hd)
  rw [run_eq_runFrom, hrun]
  exact runFrom_accept haction

end

/-! ## Runs follow derivations -/

/-- The stack holds what is made of the tokens read, each entry with the terminal behind it, and each
state is the one that a symbol led to. -/
inductive Piled (g : Grammar) (defers : Nat → Nat → Prop) (meaning : Meaning α β)
    (terminal : α → Nat) : Nat → Stack β → List α → Prop
  | nil {la : Nat} : Piled g defers meaning terminal la [] []
  | cons {la x n : Nat} {s : Stack β} {w v : List α} {b : β}
      (h : Piled g defers meaning terminal (nextTerminal terminal v la) s w)
      (hy : Yields g defers meaning terminal la [x] v [b] n) :
      Piled g defers meaning terminal la ((g.tables.next (s.top g.tables) x, b) :: s) (w ++ v)

theorem Piled.reached (h : Piled g defers meaning terminal la s w) :
    Reached g (s.top g.tables) := by
  induction h with
  | nil => exact .start
  | cons _ _ ih => exact ih.next _

/-- An item in the state on top has its symbols on top of the stack. -/
theorem Piled.pop (hp : p ∈ g.numbered) (hj : j ≤ p.production.right.length)
    (h : Piled g defers meaning terminal la s w) (hs : Bits.has (s.top g.tables) (p.base + j)) :
    ∃ (pile below : Stack β) (v v' : List α) (n : Nat), s = pile ++ below ∧ w = v ++ v' ∧
      pile.length = j ∧ Bits.has (below.top g.tables) p.base ∧
      Piled g defers meaning terminal (nextTerminal terminal v' la) below v ∧
      Yields g defers meaning terminal la (p.production.right.take j) v'
        (pile.reverse.map (·.2)) n := by
  induction j generalizing la s w with
  | zero => exact ⟨[], s, w, [], 0, rfl, by simp, rfl, hs, h, .nil⟩
  | succ j ih =>
    cases h with
    | nil => cases Tables.eq_zero_of_has_start hp hj hs
    | @cons la x n s w v b h hy =>
      obtain ⟨hs, hx⟩ := Tables.has_next_inv hp hj hs
      obtain ⟨pile, below, v₁, v₂, k, rfl, rfl, hlen, hb, hpiled, hyields⟩ :=
        ih (Nat.le_of_succ_le hj) h hs
      refine ⟨(_, b) :: pile, below, v₁, v₂ ++ v, k + n, rfl, by simp, by simp [hlen], hb, ?_, ?_⟩
      · rwa [nextTerminal_append]
      · have happ := hyields.append hy
        rw [List.take_add_one, hx]
        simpa using happ

section

include hg

/-- A production that is reduced or accepted is complete, fits the terminal and does not give way. -/
theorem find?_of_action? {s : Bits} (hs : Reached g s)
    {t : Nat} (ht : t < g.terminals) {action : Tables.Action}
    (h : g.tables.action? s t = some action) :
    action = .shift (g.tables.next s t) ∨ ∃ p ∈ g.numbered, Bits.has s p.complete ∧
      Bits.has (g.follow.getD p.production.left 0) t ∧ ¬ defers p.index t ∧
      action = if p.index = 0 then .accept else .reduce p := by
  unfold Tables.action? at h
  split at h
  · cases h
    exact .inl rfl
  · next hshift =>
    cases hfind : g.tables.numbered.find? (g.tables.completes s t) with
    | none => simp [hfind] at h
    | some p =>
      have hp := List.mem_of_find?_eq_some hfind
      have hc := List.find?_some hfind
      rw [Tables.completes, Bool.and_eq_true] at hc
      refine .inr ⟨p, hp, hc.1, hc.2, fun hd => ?_, ?_⟩
      · exact hshift ((hg.shifts s hs p hp hc.1 t ht hc.2).2 hd)
      · rw [hfind] at h
        change (if p.index = 0 then some Tables.Action.accept else some (.reduce p)) = some action at h
        split <;> simp_all

/-- The stack below a completed production of the root is empty. -/
theorem Piled.root_pop (hp : p ∈ g.numbered) (hindex : p.index = 0)
    (h : Piled g defers meaning terminal la s w) (hs : Bits.has (s.top g.tables) p.complete) :
    p.production = ⟨root, [start]⟩ ∧ ∃ state b n, s = [(state, b)] ∧
      Yields g defers meaning terminal la [start] w [b] n := by
  have hprod : p.production = ⟨root, [start]⟩ := by
    have hget := Grammar.getElem?_of_numbered hp
    rw [hindex, ← List.head?_eq_getElem?, hg.head] at hget
    exact (Option.some.inj hget).symm
  refine ⟨hprod, ?_⟩
  obtain ⟨pile, below, v, v', n, rfl, rfl, hlen, hb, hbelow, hy⟩ := h.pop hp (Nat.le_refl _) hs
  have hempty : below = [] ∧ v = [] := by
    cases hbelow with
    | nil => exact ⟨rfl, rfl⟩
    | cons =>
      have hoccurs := Tables.has_next_initial hp hb
      rw [hprod] at hoccurs
      exact absurd hoccurs hg.root_fresh
  obtain ⟨rfl, rfl⟩ := hempty
  rw [hprod] at hlen hy
  obtain ⟨⟨state, b⟩, rfl⟩ := List.length_eq_one_iff.1 hlen
  exact ⟨state, b, n, rfl, by simpa using hy⟩

include ht

theorem feed_piled (bound : Nat)
    (h : Piled g defers meaning terminal (terminal a) s w) :
    (∀ next, feed g.tables meaning (terminal a) a bound s = .shifted next →
      ∀ la, Piled g defers meaning terminal la next (w ++ [a])) ∧
    ∀ b, feed g.tables meaning (terminal a) a bound s = .accepted b →
      terminal a = g.endOfInput ∧ ∃ n, Yields g defers meaning terminal (terminal a) [start] w [b] n := by
  induction bound generalizing s with
  | zero => exact ⟨nofun, nofun⟩
  | succ bound ih =>
    unfold feed
    cases haction : g.tables.action? (s.top g.tables) (terminal a) with
    | none => exact ⟨nofun, nofun⟩
    | some action =>
      rcases find?_of_action? hg h.reached (ht a) haction with rfl | ⟨p, hp, hc, hf, hd, rfl⟩
      · refine ⟨?_, nofun⟩
        rintro _ ⟨⟩ la
        exact .cons h (.leaf .nil)
      · by_cases hindex : p.index = 0
        · obtain ⟨hprod, state, b, n, rfl, hy⟩ := h.root_pop hg hp hindex hc
          rw [if_pos hindex]
          refine ⟨nofun, ?_⟩
          rintro _ ⟨⟩
          rw [hprod] at hf
          exact ⟨(hg.follow_root _ (ht a)).1 hf, n, hy⟩
        · rw [if_neg hindex]
          obtain ⟨pile, below, v, v', n, rfl, rfl, hlen, -, hbelow, hy⟩ :=
            h.pop hp (Nat.le_refl _) hc
          rw [List.take_length] at hy
          have hnode := Yields.node (w := []) hp hy hd .nil
          rw [List.append_nil] at hnode
          have hpiled := ih (.cons hbelow hnode)
          rwa [← reduce_pile g.tables meaning hlen] at hpiled

theorem run_piled (h : ∀ la, Piled g defers meaning terminal la s w)
    (hrun : run g.tables meaning terminal bound s input = .accepted b) :
    ∃ v a u n, input = v ++ a :: u ∧ terminal a = g.endOfInput ∧
      Yields g defers meaning terminal g.endOfInput [start] (w ++ v) [b] n := by
  induction input generalizing s w with
  | nil => cases hrun
  | cons a input ih =>
    rw [run] at hrun
    obtain ⟨hshifted, haccepted⟩ := feed_piled hg ht bound (h (terminal a))
    cases hfeed : feed g.tables meaning (terminal a) a bound s with
    | shifted next =>
      rw [hfeed] at hrun
      obtain ⟨v, a', u, n, rfl, hend, hy⟩ := ih (hshifted next hfeed) hrun
      exact ⟨a :: v, a', u, n, rfl, hend, by simpa using hy⟩
    | accepted b' =>
      rw [hfeed] at hrun
      cases hrun
      obtain ⟨hend, n, hy⟩ := haccepted b hfeed
      exact ⟨[], a, input, n, rfl, hend, by simpa [hend] using hy⟩
    | rejected state =>
      rw [hfeed] at hrun
      cases hrun

/-- Accepted tokens are yielded by the start symbol. -/
theorem yields_of_run (h : run g.tables meaning terminal bound [] input = .accepted b) :
    ∃ v a u n, input = v ++ a :: u ∧ terminal a = g.endOfInput ∧
      Yields g defers meaning terminal g.endOfInput [start] v [b] n :=
  run_piled hg ht (fun _ => .nil) h

end

/-- A terminal that no production has is never shifted. -/
theorem feed_ne_shifted {t : Nat} (ht : ¬ g.Occurs t) (a : α) (bound : Nat) (s next : Stack β) :
    feed g.tables meaning t a bound s ≠ .shifted next := by
  induction bound generalizing s with
  | zero => exact nofun
  | succ bound ih =>
    unfold feed
    cases haction : g.tables.action? (s.top g.tables) t with
    | none => exact nofun
    | some action =>
      cases action with
      | shift state =>
        rw [Tables.action?] at haction
        split at haction
        · rename_i hne
          obtain ⟨i, -, hi⟩ := (Bits.and_ne_zero_iff _ _).1 hne
          exact absurd (Tables.occurs_of_has_before hi) ht
        · split at haction
          · cases haction
          · split at haction <;> cases haction
      | reduce p => exact ih _
      | accept => cases s <;> exact nofun

/-- Tokens that end in such a terminal are accepted or rejected. -/
theorem run_ne_unfinished (ha : ¬ g.Occurs (terminal a)) (bound : Nat) (s : Stack β) :
    run g.tables meaning terminal bound s (w ++ [a]) ≠ .unfinished := by
  induction w generalizing s with
  | nil =>
    rw [List.nil_append, run]
    cases hfeed : feed g.tables meaning (terminal a) a bound s with
    | shifted next => exact absurd hfeed (feed_ne_shifted ha a bound s next)
    | accepted b => exact nofun
    | rejected state => exact nofun
  | cons a' w ih =>
    rw [List.cons_append, run]
    cases feed g.tables meaning (terminal a') a' bound s with
    | shifted next => exact ih next
    | accepted b => exact nofun
    | rejected state => exact nofun

end

end Scriptlet.Lr
