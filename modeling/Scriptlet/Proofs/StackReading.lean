import Scriptlet.Proofs.StackCompletion

/-!
The stack of a shift-reduce parser depends only on the tokens that it has read (`Reads.unique`). Reductions
take weight from the stack, so the bound on their number decides nothing: a run gets behind all tokens that
can be read (`Reads.run_append`). And what the parser has read before it accepts with a good value went
together already (`Reads.sane_of_accepted`).
-/

namespace Scriptlet.Lr

variable {α β : Type} {g : Grammar} {root start : Nat} {defers : Nat → Nat → Prop}
  {meaning : Meaning α β} {terminal : α → Nat}

/-! ## What was read -/

/-- The stack when the tokens were read, with as many reductions as it takes. -/
inductive Reads (g : Grammar) (meaning : Meaning α β) (terminal : α → Nat) : List α → Stack β → Prop
  | nil : Reads g meaning terminal [] []
  | snoc {w : List α} {a : α} {s s' : Stack β} {bound : Nat} (h : Reads g meaning terminal w s)
      (hfeed : feed g.tables meaning (terminal a) a bound s = .shifted s') :
      Reads g meaning terminal (w ++ [a]) s'

section

variable {a : α} {w v : List α} {s s' : Stack β} {bound bound' t : Nat}

/-- A larger bound only matters to a token that was rejected. -/
theorem feed_of_le (hle : bound ≤ bound')
    (h : ∀ state, feed g.tables meaning t a bound s ≠ .rejected state) :
    feed g.tables meaning t a bound' s = feed g.tables meaning t a bound s := by
  induction bound generalizing bound' s with
  | zero => exact absurd rfl (h _)
  | succ bound ih =>
    obtain ⟨bound', rfl⟩ : ∃ k, bound' = k + 1 := ⟨bound' - 1, by omega⟩
    unfold feed at h ⊢
    cases haction : g.tables.action? (s.top g.tables) t with
    | none => rfl
    | some action =>
      rw [haction] at h
      cases action with
      | shift | accept => rfl
      | reduce p => exact ih (Nat.le_of_succ_le_succ hle) h

theorem Reads.snoc_inv (h : Reads g meaning terminal (w ++ [a]) s') :
    ∃ s bound, Reads g meaning terminal w s ∧
      feed g.tables meaning (terminal a) a bound s = .shifted s' := by
  generalize hv : w ++ [a] = v at h
  cases h with
  | nil => simp at hv
  | @snoc w' a' s _ bound h hfeed =>
    obtain ⟨rfl, ha⟩ := List.append_inj' hv rfl
    cases ha
    exact ⟨s, bound, h, hfeed⟩

theorem Reads.unique (h : Reads g meaning terminal w s) (h' : Reads g meaning terminal w s') :
    s = s' := by
  induction h generalizing s' with
  | nil =>
    generalize hv : ([] : List α) = v at h'
    cases h' with
    | nil => rfl
    | snoc => simp at hv
  | @snoc w a s s₁ bound h hfeed ih =>
    obtain ⟨s₂, bound', h₂, hfeed'⟩ := h'.snoc_inv
    obtain rfl := ih h₂
    have hleft := feed_of_le (Nat.le_max_left bound bound') (by rw [hfeed]; nofun)
    have hright := feed_of_le (Nat.le_max_right bound bound') (by rw [hfeed']; nofun)
    rw [hfeed] at hleft
    rw [hfeed', hleft] at hright
    cases hright
    rfl

theorem Reads.exists_prefix (h : Reads g meaning terminal (w ++ v) s') :
    ∃ s, Reads g meaning terminal w s := by
  induction v using List.reverseRecOn generalizing s' with
  | nil => exact ⟨s', by simpa using h⟩
  | append_singleton v a ih =>
    rw [← List.append_assoc] at h
    obtain ⟨s, _, hs, -⟩ := h.snoc_inv
    exact ih hs

/-- A run reads tokens up to one that ends it, or all. -/
theorem run_reads (h : Reads g meaning terminal w s) (bound : Nat) (input : List α) :
    ∃ v s', Reads g meaning terminal (w ++ v) s' ∧
      (input = v ∧ run g.tables meaning terminal bound s input = .unfinished ∨
        ∃ a u, input = v ++ a :: u ∧
          ((∃ b, feed g.tables meaning (terminal a) a bound s' = .accepted b ∧
              run g.tables meaning terminal bound s input = .accepted b) ∨
            ∃ state, feed g.tables meaning (terminal a) a bound s' = .rejected state ∧
              run g.tables meaning terminal bound s input = .rejected a state)) := by
  induction input generalizing w s with
  | nil => exact ⟨[], s, by rwa [List.append_nil], .inl ⟨rfl, rfl⟩⟩
  | cons a input ih =>
    rw [run]
    cases hfeed : feed g.tables meaning (terminal a) a bound s with
    | shifted next =>
      obtain ⟨v, s', hs', hrest⟩ := ih (h.snoc hfeed)
      refine ⟨a :: v, s', by simpa using hs', ?_⟩
      rcases hrest with ⟨rfl, hrun⟩ | ⟨a', u, rfl, hrun⟩
      · exact .inl ⟨rfl, hrun⟩
      · exact .inr ⟨a', u, rfl, hrun⟩
    | accepted b =>
      exact ⟨[], s, by rwa [List.append_nil], .inr ⟨a, input, rfl, .inl ⟨b, hfeed, rfl⟩⟩⟩
    | rejected state =>
      exact ⟨[], s, by rwa [List.append_nil], .inr ⟨a, input, rfl, .inr ⟨state, hfeed, rfl⟩⟩⟩

variable {input : List α}

theorem reads_of_unfinished (h : run g.tables meaning terminal bound [] input = .unfinished) :
    ∃ s, Reads g meaning terminal input s := by
  obtain ⟨v, s, hs, ⟨rfl, -⟩ | ⟨_, _, -, ⟨_, -, hrun⟩ | ⟨_, -, hrun⟩⟩⟩ :=
    run_reads (.nil : Reads g meaning terminal [] []) bound input
  · exact ⟨s, hs⟩
  · cases h.symm.trans hrun
  · cases h.symm.trans hrun

theorem reads_of_accepted {b : β} (h : run g.tables meaning terminal bound [] input = .accepted b) :
    ∃ v a u s, input = v ++ a :: u ∧ Reads g meaning terminal v s ∧
      feed g.tables meaning (terminal a) a bound s = .accepted b := by
  obtain ⟨v, s, hs, ⟨-, hrun⟩ | ⟨a, u, hinput, ⟨_, hfeed, hrun⟩ | ⟨_, -, hrun⟩⟩⟩ :=
    run_reads (.nil : Reads g meaning terminal [] []) bound input
  · cases h.symm.trans hrun
  · cases h.symm.trans hrun
    exact ⟨v, a, u, s, hinput, hs, hfeed⟩
  · cases h.symm.trans hrun

theorem reads_of_rejected {state : Bits}
    (h : run g.tables meaning terminal bound [] input = .rejected a state) :
    ∃ v u s, input = v ++ a :: u ∧ Reads g meaning terminal v s ∧
      feed g.tables meaning (terminal a) a bound s = .rejected state := by
  obtain ⟨v, s, hs, ⟨-, hrun⟩ | ⟨a', u, hinput, ⟨_, -, hrun⟩ | ⟨_, hfeed, hrun⟩⟩⟩ :=
    run_reads (.nil : Reads g meaning terminal [] []) bound input
  · cases h.symm.trans hrun
  · cases h.symm.trans hrun
  · cases h.symm.trans hrun
    exact ⟨v, u, s, hinput, hs, hfeed⟩

end

/-! ## Reductions -/

/-- Reductions in front of a terminal lead from one stack to another. -/
inductive Reduces (g : Grammar) (meaning : Meaning α β) (t : Nat) : Stack β → Stack β → Prop
  | refl (s : Stack β) : Reduces g meaning t s s
  | step {p : Numbered} {s s' : Stack β}
      (haction : g.tables.action? (s.top g.tables) t = some (.reduce p))
      (h : Reduces g meaning t (s.reduce g.tables meaning p) s') : Reduces g meaning t s s'

section

variable {a : α} {b : β} {s s' : Stack β} {bound t : Nat}

theorem reduces_of_shifted (h : feed g.tables meaning t a bound s = .shifted s') :
    ∃ s₀ : Stack β, Reduces g meaning t s s₀ ∧ s₀.top g.tables &&& g.tables.before.getD t 0 ≠ 0 ∧
      s' = (g.tables.next (s₀.top g.tables) t, meaning.leaf a) :: s₀ := by
  induction bound generalizing s with
  | zero => cases h
  | succ bound ih =>
    unfold feed at h
    cases haction : g.tables.action? (s.top g.tables) t with
    | none =>
      rw [haction] at h
      cases h
    | some action =>
      rw [haction] at h
      cases action with
      | shift state =>
        cases h
        unfold Tables.action? at haction
        split at haction
        · cases haction
          exact ⟨s, .refl s, ‹_›, rfl⟩
        · split at haction
          · cases haction
          · split at haction <;> cases haction
      | reduce p =>
        obtain ⟨s₀, hs₀, hrest⟩ := ih h
        exact ⟨s₀, .step haction hs₀, hrest⟩
      | accept => cases s <;> cases h

theorem reduces_of_accepted (h : feed g.tables meaning t a bound s = .accepted b) :
    ∃ (s₀ below : Stack β) (state : Bits), Reduces g meaning t s s₀ ∧
      g.tables.action? (s₀.top g.tables) t = some .accept ∧ s₀ = (state, b) :: below := by
  induction bound generalizing s with
  | zero => cases h
  | succ bound ih =>
    unfold feed at h
    cases haction : g.tables.action? (s.top g.tables) t with
    | none =>
      rw [haction] at h
      cases h
    | some action =>
      rw [haction] at h
      cases action with
      | shift state => cases h
      | reduce p =>
        obtain ⟨s₀, below, state, hs₀, hrest⟩ := ih h
        exact ⟨s₀, below, state, .step haction hs₀, hrest⟩
      | accept =>
        cases s with
        | nil => cases h
        | cons entry below =>
          cases h
          exact ⟨_, below, entry.1, .refl _, haction, rfl⟩

end

section

variable (hg : g.Deterministic root start defers) {t : Nat} (ht : t < g.terminals) {p : Numbered}
  {w : List α} {s s' : Stack β}
include hg ht

/-- A production that is reduced is on top of the stack. -/
theorem Piled.reduce_inv (h : Piled g defers meaning terminal t s w)
    (haction : g.tables.action? (s.top g.tables) t = some (.reduce p)) :
    p ∈ g.numbered ∧ p.index ≠ 0 ∧ ¬defers p.index t ∧
      ∃ (pile below : Stack β) (w' v : List α) (n : Nat), s = pile ++ below ∧ w = w' ++ v ∧
        pile.length = p.production.right.length ∧
        Piled g defers meaning terminal (nextTerminal terminal v t) below w' ∧
        Yields g defers meaning terminal t p.production.right v (pile.reverse.map (·.2)) n := by
  rcases find?_of_action? hg h.reached ht haction with hshift | ⟨q, hq, hc, -, hd, heq⟩
  · cases hshift
  · split at heq
    · cases heq
    · cases heq
      obtain ⟨pile, below, w', v, n, hs, hw, hlen, -, hbelow, hy⟩ := h.pop hq (Nat.le_refl _) hc
      rw [List.take_length] at hy
      exact ⟨hq, ‹_›, hd, pile, below, w', v, n, hs, hw, hlen, hbelow, hy⟩

theorem Piled.reduces (h : Piled g defers meaning terminal t s w) (hr : Reduces g meaning t s s') :
    Piled g defers meaning terminal t s' w := by
  induction hr with
  | refl => exact h
  | step haction _ ih =>
    obtain ⟨hp, -, hd, pile, below, w', v, n, rfl, rfl, hlen, hbelow, hy⟩ := h.reduce_inv hg ht haction
    have hnode := Yields.node (w := []) hp hy hd .nil
    rw [List.append_nil] at hnode
    apply ih
    rw [reduce_pile g.tables meaning hlen]
    exact .cons hbelow hnode

end

theorem Reads.piled (hg : g.Deterministic root start defers) (ht : ∀ a, terminal a < g.terminals)
    {w : List α} {s : Stack β} (h : Reads g meaning terminal w s) (la : Nat) :
    Piled g defers meaning terminal la s w := by
  induction h generalizing la with
  | nil => exact .nil
  | snoc h hfeed ih => exact (feed_piled hg ht _ (ih _)).1 _ hfeed la

/-! ## Values that went together -/

/-- The value of a production is good only if the values of its parts go together, and the first of them
fits any other. -/
structure Telling (g : Grammar) (defers : Nat → Nat → Prop) (meaning : Meaning α β)
    (terminal : α → Nat) (Known : α → Prop) (Good : β → Prop) (Fits : β → β → Prop) : Prop where
  sane : ∀ p ∈ g.numbered, ∀ la < g.terminals, ∀ v cs n,
    Yields g defers meaning terminal la p.production.right v cs n →
    (∀ a ∈ v, Known a) → Good (meaning.node p.index cs) → Sane Good Fits cs
  first : ∀ p ∈ g.numbered, ∀ la < g.terminals, ∀ v cs n,
    Yields g defers meaning terminal la p.production.right v cs n → ∀ c ∈ cs.head?, ∀ b, Fits b c

section

variable {Known : α → Prop} {Good : β → Prop} {Fits : β → β → Prop}

variable (T : Telling g defers meaning terminal Known Good Fits)
  (hg : g.Deterministic root start defers) (ht : ∀ a, terminal a < g.terminals)
include T hg

theorem Reduces.sane {t : Nat} (ht : t < g.terminals) {s s' : Stack β} {w : List α}
    (hr : Reduces g meaning t s s') (h : Piled g defers meaning terminal t s w)
    (hknown : ∀ a ∈ w, Known a) (hsane : Sane Good Fits s'.values) : Sane Good Fits s.values := by
  induction hr with
  | refl => exact hsane
  | step haction hr ih =>
    have hreduced := ih (h.reduces hg ht (.step haction (.refl _))) hsane
    obtain ⟨hp, -, -, pile, below, w', v, n, rfl, rfl, hlen, -, hy⟩ := h.reduce_inv hg ht haction
    have hv : ∀ a ∈ v, Known a := fun a ha => hknown a (List.mem_append_right _ ha)
    rw [reduce_pile g.tables meaning hlen, Stack.values_cons] at hreduced
    obtain ⟨hbelow, hnode, -⟩ := sane_append.1 hreduced
    have hpile := T.sane _ hp _ ht _ _ _ hy hv (hnode.1 _ (List.mem_singleton_self _))
    rw [Stack.values_append]
    exact sane_append.2 ⟨hbelow, hpile, fun b _ c hc => T.first _ hp _ ht _ _ _ hy c hc b⟩

include ht

/-- What was read went together if it does so with what was read behind it. -/
theorem Reads.sane_prefix {w v : List α} {s' : Stack β} (h : Reads g meaning terminal (w ++ v) s')
    (hknown : ∀ a ∈ w ++ v, Known a) (hsane : Sane Good Fits s'.values) :
    ∃ s, Reads g meaning terminal w s ∧ Sane Good Fits s.values := by
  induction v using List.reverseRecOn generalizing s' with
  | nil => exact ⟨s', by simpa using h, hsane⟩
  | append_singleton v a ih =>
    rw [← List.append_assoc] at h hknown
    obtain ⟨s, bound, hs, hfeed⟩ := h.snoc_inv
    have hv : ∀ b ∈ w ++ v, Known b := fun b hb => hknown b (List.mem_append_left _ hb)
    obtain ⟨s₀, hr, -, rfl⟩ := reduces_of_shifted hfeed
    rw [Stack.values_cons] at hsane
    exact ih hs hv (hr.sane T hg (ht a) (hs.piled hg ht _) hv (sane_append.1 hsane).1)

/-- What was read before the parser accepts with a good value went together. -/
theorem Reads.sane_of_accepted {w : List α} {s : Stack β} {a : α} {b : β} {bound : Nat}
    (h : Reads g meaning terminal w s) (hknown : ∀ b ∈ w, Known b)
    (hfeed : feed g.tables meaning (terminal a) a bound s = .accepted b) (hgood : Good b) :
    Sane Good Fits s.values := by
  obtain ⟨s₀, below, state, hr, haction, rfl⟩ := reduces_of_accepted hfeed
  have hpiled := h.piled hg ht (terminal a)
  have hpiled₀ := hpiled.reduces hg (ht a) hr
  refine hr.sane T hg (ht a) hpiled hknown ?_
  rcases find?_of_action? hg hpiled₀.reached (ht a) haction with hshift | ⟨p, hp, hc, -, -, heq⟩
  · cases hshift
  · split at heq
    · obtain ⟨-, _, _, _, hone, -⟩ := hpiled₀.root_pop hg hp ‹_› hc
      cases hone
      exact ⟨by simpa [Stack.values] using hgood, .singleton _⟩
    · cases heq

end

section

variable {held loud : Nat → Prop} {height : Nat → Nat} {Known : α → Prop} {Good : β → Prop}
  {Fits : β → β → Prop}
  (F : Fillers g start defers meaning terminal held loud height Known Good Fits)
  (hg : g.Deterministic root start defers) {w : List α} {s s' : Stack β}
include F hg

/-- What goes together does so when it is reduced. -/
theorem Reduces.sane_after {t : Nat} (ht : t < g.terminals) (hr : Reduces g meaning t s s')
    (h : Piled g defers meaning terminal t s w) (hknown : ∀ a ∈ w, Known a)
    (hsane : Sane Good Fits s.values) : Sane Good Fits s'.values := by
  induction hr with
  | refl => exact hsane
  | step haction hr ih =>
    refine ih (h.reduces hg ht (.step haction (.refl _))) ?_
    obtain ⟨hp, -, -, pile, below, w', v, n, rfl, rfl, hlen, -, hy⟩ := h.reduce_inv hg ht haction
    rw [Stack.values_append] at hsane
    obtain ⟨hbelow, hpile, -⟩ := sane_append.1 hsane
    have hnode := F.node _ hp _ ht _ _ _ hy (fun a ha => hknown a (List.mem_append_right _ ha)) hpile
    rw [reduce_pile g.tables meaning hlen, Stack.values_cons]
    exact hbelow.append_quiet (by simpa using hnode)

/-- What was read is the beginning of a text, which has a good value if what was read goes together. -/
theorem Fillers.completes_read (ht : ∀ a, terminal a < g.terminals) {a : α}
    (h : Reads g meaning terminal (w ++ [a]) s) (hknown : ∀ b ∈ w ++ [a], Known b) :
    ∃ v b k, (∀ c ∈ v, Known c) ∧
      Yields g defers meaning terminal g.endOfInput [start] (w ++ ([a] ++ v)) [b] k ∧
      (Sane Good Fits s.values → Good b) := by
  obtain ⟨s₁, bound, hs₁, hfeed⟩ := h.snoc_inv
  obtain ⟨s₀, hr, hshift, rfl⟩ := reduces_of_shifted hfeed
  have hpiled := (hs₁.piled hg ht (terminal a)).reduces hg (ht a) hr
  have hwanted := hpiled.reached.wanted_of_shift hg F.holds hshift
  rw [Stack.values_cons]
  exact F.completes hg (u := [a]) hpiled hwanted (fun _ _ => .leaf .nil) hknown

end

/-! ## The weight of a stack -/

/-- The weights of the symbols on the stack come to the number. -/
inductive Weighs (g : Grammar) (r : Nat → Nat) : Stack β → Nat → Prop
  | nil : Weighs g r [] 0
  | cons {s : Stack β} {m x : Nat} {b : β} (h : Weighs g r s m) :
      Weighs g r ((g.tables.next (s.top g.tables) x, b) :: s) (m + r x)

section

variable {r : Nat → Nat} {s s' : Stack β} {m : Nat} {p : Numbered}

theorem Weighs.reached (h : Weighs g r s m) : Reached g (s.top g.tables) := by
  induction h with
  | nil => exact .start
  | cons _ ih => exact ih.next _

theorem Weighs.pop (hp : p ∈ g.numbered) {j : Nat} (hj : j ≤ p.production.right.length)
    (h : Weighs g r s m) (hs : Bits.has (s.top g.tables) (p.base + j)) :
    ∃ (pile below : Stack β) (k : Nat), s = pile ++ below ∧ pile.length = j ∧ Weighs g r below k ∧
      m = k + ((p.production.right.take j).map r).sum := by
  induction j generalizing s m with
  | zero => exact ⟨[], s, m, rfl, rfl, h, by simp⟩
  | succ j ih =>
    cases h with
    | nil => cases Tables.eq_zero_of_has_start hp hj hs
    | @cons s m x b h =>
      obtain ⟨hs, hx⟩ := Tables.has_next_inv hp hj hs
      obtain ⟨pile, below, k, rfl, hlen, hbelow, rfl⟩ := ih (Nat.le_of_succ_le hj) h hs
      refine ⟨(_, b) :: pile, below, k, rfl, by simp [hlen], hbelow, ?_⟩
      rw [List.take_add_one, hx]
      simp [Nat.add_assoc]

end

section

variable (hg : g.Deterministic root start defers) {t : Nat}
include hg

/-- Behind the whole text nothing can be done but to accept it. -/
theorem action?_behind_start {state : Bits} (hs : Reached g state) {action : Tables.Action}
    (h : g.tables.action? (g.tables.next state start) t = some action) : action = .accept := by
  have hheld : g.Holds fun _ => False := fun _ _ _ _ _ hfalse => hfalse.elim
  have hnext : Reached g (g.tables.next state start) := hs.next start
  unfold Tables.action? at h
  split at h
  · next hshift =>
    exact absurd (hnext.wanted_of_shift hg hheld hshift) (not_wanted_behind_start hg)
  · cases hfind : g.tables.numbered.find? (g.tables.completes (g.tables.next state start) t) with
    | none => simp [hfind] at h
    | some p =>
      have hp : p ∈ g.numbered := List.mem_of_find?_eq_some hfind
      have hc := List.find?_some hfind
      rw [Tables.completes, Bool.and_eq_true] at hc
      have hindex : p.index = 0 := by
        cases hright : p.production.right.length with
        | zero =>
          have hbase : Bits.has (g.tables.next state start) p.base := by
            simpa [Numbered.complete, hright] using hc.1
          rcases hnext.exists_wanting hg hp hbase with hzero | ⟨q, hq, j, hj, hbefore⟩
          · exact hzero
          · exact absurd (hnext.wanted hg hheld hq hj hbefore) (not_wanted_behind_start hg)
        | succ j =>
          have hlast : Bits.has (g.tables.next state start) (p.base + (j + 1)) := by
            simpa [Numbered.complete, hright] using hc.1
          obtain ⟨hbefore, hstart⟩ := Tables.has_next_inv hp (by omega) hlast
          have hroot := hg.start_alone _ (Grammar.mem_of_numbered hp) (List.mem_of_getElem? hstart)
          obtain rfl : j = 0 := by simpa [hroot.2] using hright.symm
          rcases hs.exists_wanting hg hp hbefore with hzero | ⟨q, hq, i, hi, -⟩
          · exact hzero
          · exact absurd ⟨_, Grammar.mem_of_numbered hq, hroot.1 ▸ List.mem_of_getElem? hi⟩ hg.root_fresh
      rw [hfind] at h
      simpa [hindex] using h.symm

variable (ht : t < g.terminals) {r : Nat → Nat}
  (hrank : ∀ p ∈ g.numbered, p.index ≠ 0 → p.production.left ≠ start →
    r p.production.left + 1 ≤ (p.production.right.map r).sum)
  {a : α} {s s' : Stack β} {m bound bound' : Nat}
include ht hrank

/-- A reduction takes weight from the stack, or it is the last one. -/
theorem Weighs.reduce (meaning : Meaning α β) {p : Numbered} (h : Weighs g r s m)
    (haction : g.tables.action? (s.top g.tables) t = some (.reduce p)) :
    (∃ k, k < m ∧ Weighs g r (s.reduce g.tables meaning p) k) ∨
      ∃ state, Reached g state ∧
        (s.reduce g.tables meaning p).top g.tables = g.tables.next state start := by
  rcases find?_of_action? hg h.reached ht haction with hshift | ⟨q, hq, hc, -, -, heq⟩
  · cases hshift
  · split at heq
    · cases heq
    · next hindex =>
      cases heq
      obtain ⟨pile, below, k, rfl, hlen, hbelow, rfl⟩ := h.pop hq (Nat.le_refl _) hc
      rw [reduce_pile g.tables meaning hlen]
      by_cases hstart : p.production.left = start
      · exact .inr ⟨below.top g.tables, hbelow.reached, by rw [← hstart]; rfl⟩
      · refine .inl ⟨_, ?_, hbelow.cons⟩
        have := hrank p hq hindex hstart
        rw [List.take_length]
        omega

/-- Reductions in front of a token that is shifted add no weight. -/
theorem Weighs.reduces (h : Weighs g r s m) (hr : Reduces g meaning t s s')
    (hshift : s'.top g.tables &&& g.tables.before.getD t 0 ≠ 0) : ∃ k ≤ m, Weighs g r s' k := by
  induction hr generalizing m with
  | refl => exact ⟨m, Nat.le_refl m, h⟩
  | step haction hr ih =>
    rcases h.reduce hg ht hrank meaning haction with ⟨k, hk, hreduced⟩ | ⟨state, hs, htop⟩
    · obtain ⟨k', hk', h'⟩ := ih hreduced hshift
      exact ⟨k', by omega, h'⟩
    · cases hr with
      | refl =>
        have haction := action?_shift hshift
        rw [htop] at haction
        cases action?_behind_start hg hs haction
      | step haction hr =>
        rw [htop] at haction
        cases action?_behind_start hg hs haction

/-- A bound that is larger than the weight is as good as any. -/
theorem feed_steady (h : Weighs g r s m) (hm : m + 2 ≤ bound) (hle : bound ≤ bound') :
    feed g.tables meaning t a bound' s = feed g.tables meaning t a bound s := by
  induction bound generalizing bound' s m with
  | zero => omega
  | succ bound ih =>
    obtain ⟨bound', rfl⟩ : ∃ k, bound' = k + 1 := ⟨bound' - 1, by omega⟩
    unfold feed
    cases haction : g.tables.action? (s.top g.tables) t with
    | none => rfl
    | some action =>
      cases action with
      | shift | accept => rfl
      | reduce p =>
        rcases h.reduce hg ht hrank meaning haction with ⟨k, hk, hreduced⟩ | ⟨state, hs, htop⟩
        · exact ih hreduced (by omega) (Nat.le_of_succ_le_succ hle)
        · obtain ⟨bound, rfl⟩ : ∃ k, bound = k + 1 := ⟨bound - 1, by omega⟩
          obtain ⟨bound', rfl⟩ : ∃ k, bound' = k + 1 := ⟨bound' - 1, by omega⟩
          simp only [feed, htop]
          cases haccept : g.tables.action? (g.tables.next state start) t with
          | none => rfl
          | some action =>
            obtain rfl := action?_behind_start hg hs haccept
            rfl

end

section

variable (hg : g.Deterministic root start defers) (ht : ∀ a, terminal a < g.terminals)
  {r : Nat → Nat} {c : Nat} (hleaf : ∀ a, r (terminal a) ≤ c)
  (hrank : ∀ p ∈ g.numbered, p.index ≠ 0 → p.production.left ≠ start →
    r p.production.left + 1 ≤ (p.production.right.map r).sum)
  {a : α} {w : List α} {s : Stack β} {bound : Nat}
include hg ht hleaf hrank

/-- What was read weighs no more than its tokens do. -/
theorem Reads.weighs (h : Reads g meaning terminal w s) : ∃ m ≤ c * w.length, Weighs g r s m := by
  induction h with
  | nil => exact ⟨0, by simp, .nil⟩
  | @snoc w a s s' bound h hfeed ih =>
    obtain ⟨m, hm, hw⟩ := ih
    obtain ⟨s₀, hr, hshift, rfl⟩ := reduces_of_shifted hfeed
    obtain ⟨k, hk, hw₀⟩ := hw.reduces hg (ht a) hrank hr hshift
    refine ⟨k + r (terminal a), ?_, hw₀.cons⟩
    have := hleaf a
    rw [List.length_append, List.length_singleton, Nat.mul_add, Nat.mul_one]
    omega

/-- A bound that allows for the tokens read decides nothing. -/
theorem Reads.feed_shifted {s' : Stack β} {bound' : Nat} (h : Reads g meaning terminal w s)
    (hbound : c * w.length + 2 ≤ bound)
    (hfeed : feed g.tables meaning (terminal a) a bound' s = .shifted s') :
    feed g.tables meaning (terminal a) a bound s = .shifted s' := by
  obtain ⟨m, hm, hw⟩ := h.weighs hg ht hleaf hrank
  have hlarge := feed_of_le (Nat.le_max_right bound bound') (by rw [hfeed]; nofun)
  rwa [feed_steady hg (ht a) hrank hw (by omega) (Nat.le_max_left bound bound'), hfeed] at hlarge

/-- A run gets behind the tokens that can be read. -/
theorem Reads.run_append (h : Reads g meaning terminal w s) : c * w.length + 2 ≤ bound →
    ∀ input, run g.tables meaning terminal bound [] (w ++ input) =
      run g.tables meaning terminal bound s input := by
  induction h with
  | nil => exact fun _ _ => rfl
  | @snoc w a s s' bound' h hfeed ih =>
    intro hbound input
    rw [List.length_append, List.length_singleton, Nat.mul_add, Nat.mul_one] at hbound
    have hshorter : c * w.length + 2 ≤ bound := by omega
    rw [List.append_assoc, ih hshorter, List.singleton_append, run,
      h.feed_shifted hg ht hleaf hrank hshorter hfeed]

end

end Scriptlet.Lr
