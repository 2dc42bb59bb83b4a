import Mathlib.Order.Basic
import Scriptlet.Machine.Eval
import Scriptlet.Proofs.Braces

/-!
Machines that differ in their scopes only. Braces around a statement open a scope that nothing is bound
in, so a run of the program with braces has scopes that the other run does not have. A `Pairing` keeps the
account: which scope of the second machine is the home of a scope of the first, and which scope of the
first a scope of the second stands for. On paired machines names are found in scopes that belong together.
-/

namespace Scriptlet

/-! ## Values in scopes -/

namespace Scopes

variable {α : Type} {ok : α → Prop} {scopes : Scopes α}

/-- All values that are bound are as they should be. -/
def Hold (ok : α → Prop) (scopes : Scopes α) : Prop :=
  ∀ scope ∈ scopes.all, ∀ binding ∈ scope.bindings, ok binding.2

theorem Hold.push (h : scopes.Hold ok) (parent : Option Nat) : (scopes.push parent).2.Hold ok := by
  intro scope hscope binding hbinding
  simp only [Scopes.push, Array.mem_push] at hscope
  rcases hscope with hscope | rfl
  · exact h scope hscope binding hbinding
  · cases hbinding

theorem mem_setBinding {name : Name} {value : α} {list : List (Name × α)} {binding : Name × α}
    (h : binding ∈ Scope.setBinding name value list) : binding.2 = value ∨ binding ∈ list := by
  induction list with
  | nil =>
    rw [Scope.setBinding, List.mem_singleton] at h
    exact .inl (by rw [h])
  | cons first rest ih =>
    obtain ⟨other, old⟩ := first
    rw [Scope.setBinding] at h
    split at h
    · rcases List.mem_cons.1 h with rfl | h
      · exact .inl rfl
      · exact .inr (List.mem_cons_of_mem _ h)
    · rcases List.mem_cons.1 h with rfl | h
      · exact .inr List.mem_cons_self
      · exact (ih h).imp_right (List.mem_cons_of_mem _)

theorem Hold.define (h : scopes.Hold ok) (s : Nat) (name : Name) {value : α} (hvalue : ok value) :
    (scopes.define s name value).Hold ok := by
  intro scope hscope binding hbinding
  obtain ⟨i, hi, rfl⟩ := Array.mem_iff_getElem.1 hscope
  simp only [Scopes.define, Array.size_modify] at hi
  simp only [Scopes.define, Array.getElem_modify] at hbinding
  split at hbinding
  · rcases mem_setBinding hbinding with heq | hmem
    · rw [heq]
      exact hvalue
    · exact h _ (Array.getElem_mem hi) binding hmem
  · exact h _ (Array.getElem_mem hi) binding hbinding

theorem mem_of_lookup {name : Name} {value : α} {list : List (Name × α)}
    (h : list.lookup name = some value) : ∃ key, (key, value) ∈ list := by
  induction list with
  | nil => cases h
  | cons first rest ih =>
    obtain ⟨key, other⟩ := first
    rw [List.lookup_cons] at h
    split at h
    · cases h
      exact ⟨key, List.mem_cons_self⟩
    · obtain ⟨key', hmem⟩ := ih h
      exact ⟨key', List.mem_cons_of_mem _ hmem⟩

theorem Hold.get? (h : scopes.Hold ok) {s : Nat} {name : Name} {value : α}
    (hget : scopes.get? s name = some value) : ok value := by
  simp only [Scopes.get?, Option.bind_eq_bind, Option.bind_eq_some_iff] at hget
  obtain ⟨found, -, scope, hscope, hget⟩ := hget
  obtain ⟨key, hmem⟩ := mem_of_lookup hget
  exact h scope (Array.mem_of_getElem? hscope) _ hmem

end Scopes

/-! ## Scopes that belong together -/

/-- Which scopes of two machines belong together. Every scope of the first has a home among those of
the second. Every scope of the second stands for one of the first, and if it is not the home of that
scope then it only stands in front of it. -/
structure Pairing where
  home : List Nat
  stands : List Nat

namespace Pairing

/-- More scopes have been opened. -/
instance : Preorder Pairing where
  le P Q := P.home <+: Q.home ∧ P.stands <+: Q.stands
  le_refl _ := ⟨List.prefix_rfl, List.prefix_rfl⟩
  le_trans _ _ _ h h' := ⟨h.1.trans h'.1, h.2.trans h'.2⟩

/-- What is listed stays listed. -/
theorem getElem?_of_prefix {α : Type} {xs ys : List α} (h : xs <+: ys) {i : Nat} {a : α}
    (ha : xs[i]? = some a) : ys[i]? = some a := by
  obtain ⟨hi, rfl⟩ := List.getElem?_eq_some_iff.1 ha
  exact List.prefix_iff_getElem?.1 h i hi

theorem getElem?_concat {xs : List Nat} {a i x : Nat} :
    (xs ++ [a])[i]? = some x ↔ xs[i]? = some x ∨ i = xs.length ∧ x = a := by
  rcases Nat.lt_trichotomy i xs.length with hi | rfl | hi
  · rw [List.getElem?_append_left hi]
    simp [Nat.ne_of_lt hi]
  · simp [eq_comm]
  · rw [List.getElem?_eq_none (by simp; omega), List.getElem?_eq_none (by omega)]
    simp [Nat.ne_of_gt hi]

variable {P Q : Pairing} {s s' : Nat}

theorem home_mono (h : P ≤ Q) (hs : P.home[s]? = some s') : Q.home[s]? = some s' :=
  getElem?_of_prefix h.1 hs

theorem stands_mono (h : P ≤ Q) (hs : P.stands[s']? = some s) : Q.stands[s']? = some s :=
  getElem?_of_prefix h.2 hs

/-- A scope more on both sides. -/
theorem le_concat (P : Pairing) {n n' : Nat} : P ≤ ⟨P.home ++ [n'], P.stands ++ [n]⟩ :=
  ⟨List.prefix_append .., List.prefix_append ..⟩

/-- A scope more that only stands in front of another. -/
theorem le_spare (P : Pairing) (s : Nat) : P ≤ ⟨P.home, P.stands ++ [s]⟩ :=
  ⟨List.prefix_rfl, List.prefix_append ..⟩

end Pairing

/-- Functions with the same code, declared in scopes that belong together. -/
structure Closure.Like (P : Pairing) (f f' : Closure) : Prop where
  id : f.id = f'.id
  name : f.name = f'.name
  scope : P.home[f.scope]? = some f'.scope
  params : ∃ (params params' : List Ident), f.params = .list (params.map Ident.toTree) ∧
    f'.params = .list (params'.map Ident.toTree) ∧
    List.Forall₂ (fun id id' : Ident => id.name = id'.name) params params'
  body : ∃ (body body' : List Stmt) (span span' : Span),
    f.body = span.node .blockStatement [.list (Stmt.toTrees body)] ∧
    f'.body = span'.node .blockStatement [.list (Stmt.toTrees body')] ∧
    List.Forall₂ Stmt.Like body body'

/-! ## Values and bindings -/

/-- The same value, or functions that are alike. -/
inductive Value.Like (P : Pairing) : Value → Value → Prop
  | scalar (s : Scalar) : Like P (.scalar s) (.scalar s)
  | native (f : Native) : Like P (.native f) (.native f)
  | closure {f f' : Closure} (h : f.Like P f') : Like P (.closure f) (.closure f')

namespace Value.Like

variable {P Q : Pairing} {v v' : Value}

theorem mono (hle : P ≤ Q) (h : v.Like P v') : v.Like Q v' := by
  cases h with
  | scalar s => exact .scalar s
  | native f => exact .native f
  | closure h => exact .closure { h with scope := Pairing.home_mono hle h.scope }

theorem shown (h : v.Like P v') : v.shown = v'.shown := by
  cases h with
  | scalar | native => rfl
  | closure h => simp only [Value.shown, Closure.text, h.name]

end Value.Like

/-- Bindings of the same names to values that are alike, in the same order. -/
def BindingsLike (P : Pairing) (xs ys : List (Name × Value)) : Prop :=
  List.Forall₂ (fun x y => x.1 = y.1 ∧ x.2.Like P y.2) xs ys

namespace BindingsLike

variable {P Q : Pairing} {xs ys : List (Name × Value)}

theorem mono (hle : P ≤ Q) (h : BindingsLike P xs ys) : BindingsLike Q xs ys :=
  List.Forall₂.imp (fun _ _ h => ⟨h.1, h.2.mono hle⟩) h

theorem any_eq (h : BindingsLike P xs ys) (name : Name) :
    xs.any (·.1 == name) = ys.any (·.1 == name) := by
  induction h with
  | nil => rfl
  | cons h _ ih => rw [List.any_cons, List.any_cons, ih, h.1]

theorem lookup (h : BindingsLike P xs ys) (name : Name) :
    Option.Rel (Value.Like P) (xs.lookup name) (ys.lookup name) := by
  induction h with
  | nil => exact .none
  | @cons x y xs ys h _ ih =>
    obtain ⟨key, v⟩ := x
    obtain ⟨key', v'⟩ := y
    obtain ⟨rfl, hv⟩ := h
    rw [List.lookup_cons, List.lookup_cons]
    dsimp only
    cases name == key with
    | true => exact .some hv
    | false => exact ih

theorem setBinding (h : BindingsLike P xs ys) (name : Name) {v v' : Value} (hv : v.Like P v') :
    BindingsLike P (Scope.setBinding name v xs) (Scope.setBinding name v' ys) := by
  induction h with
  | nil => exact .cons ⟨rfl, hv⟩ .nil
  | @cons x y xs ys h hrest ih =>
    obtain ⟨key, u⟩ := x
    obtain ⟨key', u'⟩ := y
    obtain ⟨rfl, hu⟩ := h
    rw [Scope.setBinding, Scope.setBinding]
    split
    · exact .cons ⟨rfl, hv⟩ hrest
    · exact .cons ⟨rfl, hu⟩ ih

end BindingsLike

/-- A scope and its home: the same names are bound, and the parents belong together. A parent is older
than its children. -/
structure ScopesLike (P : Pairing) (s s' : Nat) (a b : Scope Value) : Prop where
  bindings : BindingsLike P a.bindings b.bindings
  parent : a.parent = none ∧ b.parent = none ∨ ∃ p p', a.parent = some p ∧ b.parent = some p' ∧
    P.stands[p']? = some p ∧ p < s ∧ p' < s'

theorem ScopesLike.mono {P Q : Pairing} {s s' : Nat} {a b : Scope Value} (hle : P ≤ Q)
    (h : ScopesLike P s s' a b) : ScopesLike Q s s' a b where
  bindings := h.bindings.mono hle
  parent := by
    rcases h.parent with hnone | ⟨p, p', hp, hp', hstands, hlt⟩
    · exact .inl hnone
    · exact .inr ⟨p, p', hp, hp', Pairing.stands_mono hle hstands, hlt⟩

theorem getElem?_push {scopes : Array (Scope Value)} {s : Nat} {a b : Scope Value}
    (h : scopes[s]? = some a) : (scopes.push b)[s]? = some a := by
  rw [Array.getElem?_push, if_neg]
  · exact h
  · rintro rfl
    simp at h

/-! ## Machines -/

/-- Two machines that differ in their scopes only, as a pairing tells. -/
structure Paired (P : Pairing) (m m' : Machine) : Prop where
  size : P.home.length = m.scopes.all.size
  size' : P.stands.length = m'.scopes.all.size
  stands {s s' : Nat} : P.home[s]? = some s' → P.stands[s']? = some s
  scope {s s' : Nat} : P.home[s]? = some s' → ∃ a b, m.scopes.all[s]? = some a ∧
    m'.scopes.all[s']? = some b ∧ ScopesLike P s s' a b
  spare {s s' : Nat} : P.stands[s']? = some s → P.home[s]? ≠ some s' →
    ∃ p, m'.scopes.all[s']? = some ⟨some p, []⟩ ∧ P.stands[p]? = some s ∧ p < s'
  valid {s s' : Nat} : P.stands[s']? = some s → s < m.scopes.all.size
  others : ∃ scopes, m' = { m with scopes }

namespace Paired

variable {P : Pairing} {m m' : Machine} (h : Paired P m m')
include h

/-- A change that has nothing to do with scopes. -/
theorem update {f : Machine → Machine}
    (hf : ∀ (m : Machine) scopes, f { m with scopes } = { f m with scopes }) :
    Paired P (f m) (f m') := by
  have hscopes : ∀ m, (f m).scopes = m.scopes := by
    intro m
    have heq : f m = { f m with scopes := m.scopes } := hf m m.scopes
    rw [heq]
  obtain ⟨scopes, rfl⟩ := h.others
  exact
    { size := (hscopes m) ▸ h.size
      size' := (hscopes { m with scopes }) ▸ h.size'
      stands := h.stands
      scope := by
        rw [hscopes, hscopes]
        exact h.scope
      spare := by
        rw [hscopes]
        exact h.spare
      valid := by
        rw [hscopes]
        exact h.valid
      others := ⟨scopes, hf m scopes⟩ }

variable {s s' p p' : Nat}

/-- A name is found in scopes that belong together, or in none. -/
theorem findWithin (name : Name) (hs : P.stands[s']? = some s) {n n' : Nat} (hn : s < n) (hn' : s' < n') :
    Option.Rel (fun k k' => P.home[k]? = some k') (m.scopes.findWithin name n s)
      (m'.scopes.findWithin name n' s') := by
  induction s' using Nat.strong_induction_on generalizing s n n' with
  | _ s' ih =>
    obtain ⟨n', rfl⟩ : ∃ k, n' = k + 1 := ⟨n' - 1, by omega⟩
    by_cases hhome : P.home[s]? = some s'
    · obtain ⟨a, b, ha, hb, hlike⟩ := h.scope hhome
      obtain ⟨n, rfl⟩ : ∃ k, n = k + 1 := ⟨n - 1, by omega⟩
      have hbinds : a.binds name = b.binds name := hlike.bindings.any_eq name
      rw [Scopes.findWithin, Scopes.findWithin, ha, hb]
      dsimp only
      by_cases hname : b.binds name = true
      · rw [if_pos (hbinds.trans hname), if_pos hname]
        exact .some hhome
      · rw [if_neg (hbinds ▸ hname), if_neg hname]
        rcases hlike.parent with ⟨hp, hp'⟩ | ⟨p, p', hp, hp', hstands, hlt, hlt'⟩
        · rw [hp, hp']
          exact .none
        · rw [hp, hp']
          exact ih p' hlt' hstands (by omega) (by omega)
    · -- A scope that only stands in front of another binds nothing.
      obtain ⟨p, hb, hstands, hlt⟩ := h.spare hs hhome
      rw [Scopes.findWithin, hb]
      exact ih p hlt hstands hn (by omega)

theorem find? (name : Name) (hs : P.stands[s']? = some s) :
    Option.Rel (fun k k' => P.home[k]? = some k') (m.scopes.find? s name) (m'.scopes.find? s' name) :=
  h.findWithin name hs (h.valid hs) (h.size' ▸ (List.getElem?_eq_some_iff.1 hs).1)

theorem get? (name : Name) (hs : P.stands[s']? = some s) :
    Option.Rel (Value.Like P) (m.scopes.get? s name) (m'.scopes.get? s' name) := by
  have hfind := h.find? name hs
  rw [Scopes.get?, Scopes.get?]
  generalize m.scopes.find? s name = found at hfind
  generalize m'.scopes.find? s' name = found' at hfind
  cases hfind with
  | none => exact .none
  | @some k k' hk =>
    obtain ⟨a, b, ha, hb, hlike⟩ := h.scope hk
    simp only [Option.bind_eq_bind, Option.bind_some, ha, hb]
    exact hlike.bindings.lookup name

/-- Names are bound in a scope and in its home. -/
theorem define (hs : P.home[s]? = some s') (name : Name) {v v' : Value} (hv : v.Like P v') :
    Paired P { m with scopes := m.scopes.define s name v }
      { m' with scopes := m'.scopes.define s' name v' } where
  size := h.size.trans (Array.size_modify ..).symm
  size' := h.size'.trans (Array.size_modify ..).symm
  stands := h.stands
  scope {k k'} hk := by
    obtain ⟨a, b, ha, hb, hlike⟩ := h.scope hk
    simp only [Scopes.define, Array.getElem?_modify, ha, hb, Option.map_some]
    by_cases heq : s = k
    · -- The home of a scope is no other scope's home.
      obtain rfl : s' = k' := by
        subst heq
        exact Option.some.inj (hs.symm.trans hk)
      simp only [heq, if_pos]
      exact ⟨_, _, rfl, rfl, hlike.bindings.setBinding name hv, hlike.parent⟩
    · have hne : s' ≠ k' := by
        rintro rfl
        exact heq (Option.some.inj ((h.stands hs).symm.trans (h.stands hk)))
      simp only [heq, hne, if_false]
      exact ⟨_, _, rfl, rfl, hlike⟩
  spare {k k'} hk hne := by
    obtain ⟨p, hb, hstands, hlt⟩ := h.spare hk hne
    refine ⟨p, ?_, hstands, hlt⟩
    have hother : s' ≠ k' := by
      rintro rfl
      obtain rfl := Option.some.inj ((h.stands hs).symm.trans hk)
      exact hne hs
    simp only [Scopes.define, Array.getElem?_modify, hb, hother, if_false]
  valid hk := by
    simp only [Scopes.define, Array.size_modify]
    exact h.valid hk
  others := by
    obtain ⟨scopes, rfl⟩ := h.others
    exact ⟨_, rfl⟩

/-- A scope is opened on both sides. -/
theorem open_both (hp : P.stands[p']? = some p) :
    Paired ⟨P.home ++ [m'.scopes.all.size], P.stands ++ [m.scopes.all.size]⟩
      { m with scopes := (m.scopes.push (some p)).2 }
      { m' with scopes := (m'.scopes.push (some p')).2 } where
  size := by simp [Scopes.push, h.size]
  size' := by simp [Scopes.push, h.size']
  stands {s s'} hs := by
    rcases Pairing.getElem?_concat.1 hs with hs | ⟨rfl, rfl⟩
    · exact Pairing.getElem?_concat.2 (.inl (h.stands hs))
    · exact Pairing.getElem?_concat.2 (.inr ⟨h.size'.symm, h.size⟩)
  scope {s s'} hs := by
    rcases Pairing.getElem?_concat.1 hs with hs | ⟨rfl, rfl⟩
    · obtain ⟨a, b, ha, hb, hlike⟩ := h.scope hs
      exact ⟨a, b, getElem?_push ha, getElem?_push hb, hlike.mono P.le_concat⟩
    · refine ⟨⟨some p, []⟩, ⟨some p', []⟩, ?_, ?_, .nil, .inr ⟨p, p', rfl, rfl, ?_, ?_, ?_⟩⟩
      · simp [Scopes.push, h.size]
      · simp [Scopes.push]
      · exact Pairing.stands_mono P.le_concat hp
      · exact h.size ▸ h.valid hp
      · exact h.size' ▸ (List.getElem?_eq_some_iff.1 hp).1
  spare {s s'} hs hne := by
    rcases Pairing.getElem?_concat.1 hs with hs | ⟨rfl, rfl⟩
    · obtain ⟨q, hb, hstands, hlt⟩ := h.spare hs fun hhome =>
        hne (Pairing.getElem?_concat.2 (.inl hhome))
      exact ⟨q, getElem?_push hb, Pairing.stands_mono P.le_concat hstands, hlt⟩
    · exact (hne (Pairing.getElem?_concat.2 (.inr ⟨h.size.symm, h.size'⟩))).elim
  valid {s s'} hs := by
    simp only [Scopes.push, Array.size_push]
    rcases Pairing.getElem?_concat.1 hs with hs | ⟨rfl, rfl⟩
    · exact Nat.lt_succ_of_lt (h.valid hs)
    · exact Nat.lt_succ_self _
  others := by
    obtain ⟨scopes, rfl⟩ := h.others
    exact ⟨_, rfl⟩

/-- A scope is opened that only stands in front of another. -/
theorem open_spare (hp : P.stands[p']? = some p) :
    Paired ⟨P.home, P.stands ++ [p]⟩ m { m' with scopes := (m'.scopes.push (some p')).2 } where
  size := h.size
  size' := by simp [Scopes.push, h.size']
  stands hs := Pairing.getElem?_concat.2 (.inl (h.stands hs))
  scope hs := by
    obtain ⟨a, b, ha, hb, hlike⟩ := h.scope hs
    exact ⟨a, b, ha, getElem?_push hb, hlike.mono (P.le_spare p)⟩
  spare {s s'} hs hne := by
    rcases Pairing.getElem?_concat.1 hs with hs | ⟨rfl, rfl⟩
    · obtain ⟨q, hb, hstands, hlt⟩ := h.spare hs hne
      exact ⟨q, getElem?_push hb, Pairing.stands_mono (P.le_spare p) hstands, hlt⟩
    · refine ⟨p', ?_, Pairing.stands_mono (P.le_spare _) hp, (List.getElem?_eq_some_iff.1 hp).1⟩
      simp [Scopes.push, h.size']
  valid {s s'} hs := by
    rcases Pairing.getElem?_concat.1 hs with hs | ⟨rfl, rfl⟩
    · exact h.valid hs
    · exact h.valid hp
  others := by
    obtain ⟨scopes, rfl⟩ := h.others
    exact ⟨_, rfl⟩

end Paired

end Scriptlet
