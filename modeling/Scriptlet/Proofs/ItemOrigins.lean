import Scriptlet.Proofs.ShiftReduce

/-!
Where the items of a state come from. A dot in front of a production is there because the left side
stands behind another dot, and this goes back to a dot that was moved over a symbol, or to the start
(`Wanted`). States do not tell productions apart that have the same left side and the same symbols up to
the dot. So where some terminals are held back, as far as there is a shorter production that does without
them, the reasons need no dot with such a terminal behind the next symbol.
-/

namespace Scriptlet.Lr

/-! ## Closure -/

/-- What holds of some items, and of the items that an item brings in if it holds of that item, holds of
all. -/
theorem spread_induction {before starting : Array Bits} {symbols : List Nat} {items : Bits}
    {P : Nat → Prop} (hitems : ∀ i, Bits.has items i → P i)
    (hbrings : ∀ b i, P i → Bits.has (before.getD b 0) i →
      ∀ k, Bits.has (starting.getD b 0) k → P k) :
    ∀ i, Bits.has (spread before starting symbols items) i → P i := by
  induction symbols generalizing items with
  | nil => exact hitems
  | cons b symbols ih =>
    rw [spread, List.foldl_cons]
    split
    · exact ih hitems
    · next hb =>
      obtain ⟨j, hj, hjb⟩ := (Bits.and_ne_zero_iff _ _).1 hb
      apply ih
      intro i hi
      rcases (by simpa using hi : Bits.has items i = true ∨ Bits.has (starting.getD b 0) i = true)
        with hi | hi
      · exact hitems i hi
      · exact hbrings b j (hitems j hj) hjb i hi

namespace Tables

variable {g : Grammar} {P : Nat → Prop}

theorem starting_induction {b : Nat} (hown : ∀ q ∈ g.numbered, q.production.left = b → P q.base)
    (hbrings : ∀ c i, P i → Bits.has (g.tables.before.getD c 0) i →
      ∀ q ∈ g.numbered, q.production.left = c → P q.base) :
    ∀ i, Bits.has (g.tables.starting.getD b 0) i → P i := by
  have hsymbol : ∀ c, (∀ q ∈ g.numbered, q.production.left = c → P q.base) →
      ∀ i, Bits.has (((List.range g.symbols).map g.starting).toArray.getD c 0) i → P i := by
    intro c hc i hi
    by_cases hlt : c < g.symbols
    · have hs : Bits.has (g.starting c) i := by simpa [hlt] using hi
      obtain ⟨q, hq, hl, rfl⟩ := (g.has_starting c i).1 hs
      exact hc q hq hl
    · simp [hlt] at hi
  by_cases hb : b < g.symbols
  · rw [starting_getD hb]
    refine saturate_induction (P := fun bits => ∀ i, Bits.has bits i → P i) ?_ _ ?_
    · intro bits ih
      exact spread_induction ih fun c i hi hc => hsymbol c (hbrings c i hi hc)
    · intro i hi
      obtain ⟨q, hq, hl, rfl⟩ := (g.has_starting b i).1 hi
      exact hown q hq hl
  · intro i hi
    simp [ofGrammar, hb] at hi

/-- The items of a state are those that a dot was moved for, or the first one, and those brought in. -/
theorem state_induction {s : Bits} (h : Reached g s)
    (hfirst : Bits.has s 0 → P 0)
    (hmoved : ∀ q ∈ g.numbered, ∀ j x, q.production.right[j]? = some x →
      Bits.has s (q.base + j + 1) → P (q.base + j + 1))
    (hbrings : ∀ c i, P i → Bits.has (g.tables.before.getD c 0) i →
      ∀ q ∈ g.numbered, q.production.left = c → P q.base) :
    ∀ i, Bits.has s i → P i := by
  have hclosure : ∀ items, (∀ i, Bits.has items i → P i) → ∀ i,
      Bits.has (spread g.tables.before g.tables.starting g.nonterminals items) i → P i :=
    fun items hitems => spread_induction hitems fun b i hi hb =>
      starting_induction (hbrings b i hi hb) hbrings
  cases h with
  | start =>
    refine hclosure _ fun i hi => ?_
    obtain rfl : 0 = i := by simpa using hi
    exact hfirst has_start_zero
  | @next s' h x =>
    refine hclosure _ fun i hi => ?_
    have hs : Bits.has (g.tables.next s' x) i := sub_spread _ _ _ hi
    cases i with
    | zero => simp [Bits.has_shift_zero] at hi
    | succ i =>
      rw [Bits.has_shift, Bits.has_and, Bool.and_eq_true] at hi
      obtain ⟨q, hq, j, hj, rfl⟩ := exists_of_has_before hi.2
      exact hmoved q hq j x hj hs

end Tables

/-! ## Dots in front -/

section

variable {g : Grammar} {root start : Nat} {defers : Nat → Nat → Prop} {s : Bits} {p q : Numbered}
  {j x : Nat} (hg : g.Deterministic root start defers)
include hg

theorem Grammar.Deterministic.index_eq_zero (hq : q ∈ g.numbered) (hbase : q.base = 0) :
    q.index = 0 := by
  rw [Grammar.item_unique hq hg.exists_root (Nat.zero_le _) (Nat.zero_le 1)
    (show q.base + 0 = 0 + 0 by rw [hbase])]

theorem Grammar.Deterministic.production_zero (hq : q ∈ g.numbered) (hindex : q.index = 0) :
    q.production = ⟨root, [start]⟩ := by
  have hget := Grammar.getElem?_of_numbered hq
  rw [hindex, ← List.head?_eq_getElem?, hg.head] at hget
  exact (Option.some.inj hget).symm

/-- A dot in front is there because the left side stands behind a dot. -/
theorem Reached.exists_wanting (h : Reached g s) (hq : q ∈ g.numbered) (hs : Bits.has s q.base) :
    q.index = 0 ∨ ∃ p ∈ g.numbered, ∃ j, p.production.right[j]? = some q.production.left ∧
      Bits.has s (p.base + j) := by
  refine (Tables.state_induction (P := fun i => Bits.has s i ∧ ∀ q ∈ g.numbered, i = q.base →
    q.index = 0 ∨ ∃ p ∈ g.numbered, ∃ j, p.production.right[j]? = some q.production.left ∧
      Bits.has s (p.base + j)) h ?_ ?_ ?_ _ hs).2 q hq rfl
  · exact fun hzero => ⟨hzero, fun q hq hbase => .inl (hg.index_eq_zero hq hbase.symm)⟩
  · intro p hp j x hx hs
    refine ⟨hs, fun q hq hbase => ?_⟩
    have hlt := (List.getElem?_eq_some_iff.1 hx).1
    obtain rfl := Grammar.item_unique hp hq (j := j + 1) (k := 0) hlt (Nat.zero_le _) hbase
    omega
  · rintro c i ⟨hi, -⟩ hc q hq rfl
    obtain ⟨p, hp, j, hj, rfl⟩ := Tables.exists_of_has_before hc
    refine ⟨h.has_initial hg.toInRange hg.closed hp hq hj hi, fun q' hq' hbase => .inr ?_⟩
    obtain rfl := Grammar.item_unique hq hq' (Nat.zero_le _) (Nat.zero_le _) hbase
    exact ⟨p, hp, j, hj, hi⟩

/-- Productions that are the same up to the dot are in the same states. -/
theorem Reached.has_alike (hp : p ∈ g.numbered) (hq : q ∈ g.numbered) (hindex : p.index ≠ 0)
    (hleft : q.production.left = p.production.left) (hj : j ≤ p.production.right.length)
    (hright : ∀ i < j, q.production.right[i]? = p.production.right[i]?) (h : Reached g s)
    (hs : Bits.has s (p.base + j)) : Bits.has s (q.base + j) := by
  induction j generalizing s with
  | zero =>
    rcases h.exists_wanting hg hp hs with hzero | ⟨r, hr, i, hi, hsi⟩
    · exact absurd hzero hindex
    · exact h.has_initial hg.toInRange hg.closed hr hq (hleft ▸ hi) hsi
  | succ j ih =>
    cases h with
    | start => cases Tables.eq_zero_of_has_start hp hj hs
    | next h x =>
      obtain ⟨hs, hx⟩ := Tables.has_next_inv hp hj hs
      have hfront := ih (Nat.le_of_succ_le hj) (fun i hi => hright i (Nat.lt_succ_of_lt hi)) h hs
      exact Tables.has_next_succ hg.toInRange hq ((hright j (Nat.lt_succ_self j)).trans hx) hfront

end

/-! ## Reasons -/

/-- A terminal that is held back is behind the first part of a production only if that part is a
production of its own. -/
def Grammar.Holds (g : Grammar) (held : Nat → Prop) : Prop :=
  ∀ p ∈ g.numbered, ∀ j y, p.production.right[j + 1]? = some y → held y →
    ∃ q ∈ g.numbered, q.production.left = p.production.left ∧
      q.production.right = p.production.right.take (j + 1)

/-- The symbol stands behind a dot of the state, and no terminal that is held back behind it: at the
start, or since the dot was moved there, or since the left side of its production is wanted. -/
inductive Wanted (g : Grammar) (held : Nat → Prop) (s : Bits) : Nat → Prop
  | first {q : Numbered} {x : Nat} (hq : q ∈ g.numbered) (hindex : q.index = 0)
      (hx : q.production.right[0]? = some x) (hs : Bits.has s q.base) : Wanted g held s x
  | moved {q : Numbered} {j x : Nat} (hq : q ∈ g.numbered)
      (hx : q.production.right[j + 1]? = some x) (hs : Bits.has s (q.base + (j + 1)))
      (hheld : ∀ y, q.production.right[j + 2]? = some y → ¬held y) : Wanted g held s x
  | brought {q : Numbered} {x : Nat} (hq : q ∈ g.numbered)
      (h : Wanted g held s q.production.left) (hx : q.production.right[0]? = some x)
      (hheld : ∀ y, q.production.right[1]? = some y → ¬held y) : Wanted g held s x

section

variable {g : Grammar} {root start : Nat} {defers : Nat → Nat → Prop} {held : Nat → Prop} {s : Bits}
  {q : Numbered} {j x : Nat} (hg : g.Deterministic root start defers)
include hg

/-- A production, or a shorter one if a terminal that is held back comes next. -/
theorem Grammar.Deterministic.exists_short (hheld : g.Holds held) (hq : q ∈ g.numbered)
    (hindex : q.index ≠ 0) (hx : q.production.right[j]? = some x) :
    ∃ r ∈ g.numbered, r.production.left = q.production.left ∧ r.production.right[j]? = some x ∧
      (∀ y, r.production.right[j + 1]? = some y → ¬held y) ∧
      ∀ s, Reached g s → Bits.has s (q.base + j) → Bits.has s (r.base + j) := by
  by_cases hnext : ∃ y, q.production.right[j + 1]? = some y ∧ held y
  · obtain ⟨y, hy, hyheld⟩ := hnext
    obtain ⟨r, hr, hleft, hright⟩ := hheld q hq j y hy hyheld
    have hget : ∀ i < j + 1, r.production.right[i]? = q.production.right[i]? := by
      intro i hi
      rw [hright, List.getElem?_take_of_lt hi]
    refine ⟨r, hr, hleft, (hget j (Nat.lt_succ_self j)).trans hx, fun z hz => ?_, fun s h hs => ?_⟩
    · rw [hright, List.getElem?_take_eq_none (Nat.le_refl _)] at hz
      cases hz
    · exact h.has_alike hg hq hr hindex hleft (Nat.le_of_lt (List.getElem?_eq_some_iff.1 hx).1)
        (fun i hi => hget i (Nat.lt_succ_of_lt hi)) hs
  · exact ⟨q, hq, rfl, hx, fun y hy hyheld => hnext ⟨y, hy, hyheld⟩, fun s _ hs => hs⟩

/-- What stands behind a dot is wanted. -/
theorem Reached.wanted (hheld : g.Holds held) (h : Reached g s) (hq : q ∈ g.numbered)
    (hx : q.production.right[j]? = some x) (hs : Bits.has s (q.base + j)) : Wanted g held s x := by
  refine (Tables.state_induction (P := fun i => Bits.has s i ∧ ∀ q ∈ g.numbered, ∀ j x,
    i = q.base + j → q.production.right[j]? = some x → Wanted g held s x) h ?_ ?_ ?_ _ hs).2
      q hq j x rfl hx
  · intro hzero
    refine ⟨hzero, fun q hq j x hbase hx => ?_⟩
    obtain rfl : j = 0 := by omega
    have hbase : q.base = 0 := hbase.symm
    exact .first hq (hg.index_eq_zero hq hbase) hx (by rwa [hbase])
  · intro p hp k y hk hs
    refine ⟨hs, fun q hq j x hbase hx => ?_⟩
    have hlt := (List.getElem?_eq_some_iff.1 hk).1
    have hlt' := (List.getElem?_eq_some_iff.1 hx).1
    obtain rfl := Grammar.item_unique hp hq (j := k + 1) hlt (Nat.le_of_lt hlt') hbase
    obtain rfl : k + 1 = j := by omega
    have hindex : p.index ≠ 0 := by
      intro hzero
      rw [hg.production_zero hp hzero] at hx
      cases hx
    obtain ⟨r, hr, -, hrx, hrheld, hrs⟩ := hg.exists_short hheld hp hindex hx
    exact .moved hr hrx (hrs s h hs) hrheld
  · rintro c i ⟨hi, hwanted⟩ hc q hq rfl
    obtain ⟨p, hp, k, hk, rfl⟩ := Tables.exists_of_has_before hc
    refine ⟨h.has_initial hg.toInRange hg.closed hp hq hk hi, fun q' hq' j x hbase hx => ?_⟩
    have hlt := (List.getElem?_eq_some_iff.1 hx).1
    obtain rfl := Grammar.item_unique hq hq' (j := 0) (Nat.zero_le _) (Nat.le_of_lt hlt) hbase
    obtain rfl : j = 0 := by omega
    have hindex := hg.index_ne_zero hq ⟨_, Grammar.mem_of_numbered hp, List.mem_of_getElem? hk⟩
    obtain ⟨r, hr, hleft, hrx, hrheld, -⟩ := hg.exists_short hheld hq hindex hx
    exact .brought hr (hleft ▸ hwanted p hp k _ rfl hk) hrx hrheld

/-- A terminal that is shifted is wanted. -/
theorem Reached.wanted_of_shift (hheld : g.Holds held) (h : Reached g s) {t : Nat}
    (hshift : s &&& g.tables.before.getD t 0 ≠ 0) : Wanted g held s t := by
  obtain ⟨i, hi, hb⟩ := (Bits.and_ne_zero_iff _ _).1 hshift
  obtain ⟨q, hq, j, hj, rfl⟩ := Tables.exists_of_has_before hb
  exact h.wanted hg hheld hq hj hi

/-- Behind the whole text nothing is wanted. -/
theorem not_wanted_behind_start : ¬Wanted g held (g.tables.next s start) x := by
  intro h
  induction h with
  | first hq hindex hx hs =>
    have hoccurs := Tables.has_next_initial hq hs
    rw [hg.production_zero hq hindex] at hoccurs
    exact hg.root_fresh hoccurs
  | @moved q j x hq hx hs hheld =>
    have hlt := (List.getElem?_eq_some_iff.1 hx).1
    obtain ⟨-, hstart⟩ := Tables.has_next_inv hq (Nat.lt_of_succ_lt hlt) hs
    have hone := (hg.start_alone _ (Grammar.mem_of_numbered hq) (List.mem_of_getElem? hstart)).2
    rw [hone] at hlt
    simp at hlt
  | brought hq h hx hheld ih => exact ih

end

end Scriptlet.Lr
