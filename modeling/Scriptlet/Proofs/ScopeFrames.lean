import Scriptlet.Proofs.Effects

/-!
No binding leaks out of a scope. Of the changes that a run makes to its machine only two touch a scope
that was there before: a name is bound in a scope that the computation owns, or a name that is bound
gets another value, which leaves the names of all scopes as they are. So an expression, a block and a
`for` loop leave the names of every scope alone, and any other statement adds names to no scope but the
one that it is carried out in.

The scopes may hold anything, also functions whose scopes do not exist, and the trees may be malformed.
-/

namespace Scriptlet

/-- The names that a scope binds, in the order in which they were first bound. -/
def Machine.names (m : Machine) (i : Nat) : List Name :=
  (m.scopes.bindings i).map (·.1)

/-! ## Scopes -/

/-- A name that is bound is not bound a second time. -/
theorem Scope.setBinding_names {α : Type} {name : Name} {list : List (Name × α)}
    (h : list.any (·.1 == name) = true) (value : α) :
    (Scope.setBinding name value list).map (·.1) = list.map (·.1) := by
  induction list with
  | nil => cases h
  | cons first rest ih =>
    obtain ⟨other, old⟩ := first
    unfold Scope.setBinding
    by_cases hsame : (other == name) = true
    · rw [if_pos hsame]
      rfl
    · rw [if_neg hsame, List.map_cons, List.map_cons]
      rw [List.any_cons, Bool.of_not_eq_true hsame, Bool.false_or] at h
      rw [ih h]

/-- A search ends in a scope that binds the name. -/
theorem Scopes.binds_of_findWithin {α : Type} {scopes : Scopes α} {name : Name} {bound s found : Nat}
    (h : scopes.findWithin name bound s = some found) :
    ∃ scope, scopes.all[found]? = some scope ∧ scope.binds name = true := by
  induction bound generalizing s with
  | zero => cases h
  | succ bound ih =>
    unfold Scopes.findWithin at h
    split at h
    · cases h
    · rename_i scope hscope
      split at h
      · rename_i hbinds
        cases h
        exact ⟨scope, hscope, hbinds⟩
      · split at h
        · cases h
        · exact ih h

/-- Binding a name in one scope leaves the others alone. -/
theorem Scopes.bindings_define_of_ne {α : Type} {s i : Nat} (h : s ≠ i) (scopes : Scopes α)
    (name : Name) (value : α) : (scopes.define s name value).bindings i = scopes.bindings i := by
  unfold Scopes.bindings Scopes.define
  rw [Array.getElem?_modify, if_neg h]

theorem Scopes.bindings_define_self {α : Type} {scopes : Scopes α} {s : Nat} {scope : Scope α}
    (h : scopes.all[s]? = some scope) (name : Name) (value : α) :
    (scopes.define s name value).bindings s = Scope.setBinding name value scope.bindings := by
  unfold Scopes.bindings Scopes.define
  rw [Array.getElem?_modify, if_pos rfl, h]
  rfl

/-! ## Changes -/

variable {own : Nat → Prop} {i : Nat}

theorem Effect.names_eq {m m' : Machine} (h : Effect own m m') (hi : i < m.scopes.all.size)
    (hown : ¬ own i) : m'.names i = m.names i := by
  cases h with
  | write | readLine | readClock | record | endTrace | depth | number => rfl
  | openScope parent =>
    unfold Machine.names Scopes.bindings Scopes.push
    dsimp only
    rw [Array.getElem?_push_lt hi, Array.getElem?_eq_getElem hi]
  | @define s hs _ name value =>
    have hne : s ≠ i := fun heq => hown (heq ▸ hs)
    unfold Machine.names
    rw [Scopes.bindings_define_of_ne hne]
  | @assign _ s found name hfind value =>
    unfold Machine.names
    by_cases heq : found = i
    · subst heq
      obtain ⟨scope, hscope, hbinds⟩ := Scopes.binds_of_findWithin hfind
      have hbindings : m.scopes.bindings found = scope.bindings := by
        unfold Scopes.bindings
        rw [hscope]
      rw [Scopes.bindings_define_self hscope, hbindings]
      exact Scope.setBinding_names hbinds value
    · rw [Scopes.bindings_define_of_ne heq]

theorem Effects.names_eq {m m' : Machine} (h : Effects own m m') (hi : i < m.scopes.all.size)
    (hown : ¬ own i) : m'.names i = m.names i := by
  induction h with
  | refl => rfl
  | tail before step ih =>
    have hsize := Nat.lt_of_lt_of_le hi (Effects.size_le before)
    exact (step.names_eq hsize hown).trans ih

/-- A computation that does not own a scope leaves its names alone. -/
theorem Affects.names_eq {α : Type} {x : Eval α} (h : Affects (· ≠ i) x) {m : Machine}
    (hi : i < m.scopes.all.size) : (x.left m).names i = m.names i := by
  have hopened : ∀ j, m.scopes.all.size ≤ j → j ≠ i := by
    intro j hj heq
    omega
  exact (h m hopened).names_eq hi fun hne => hne rfl

/-! ## Statements and programs -/

/-- However the body of a program ends, the file of messages is closed behind it. -/
theorem Eval.left_program (cfg : Config) (s : Nat) (t : Tree) (m : Machine) :
    (Eval.program cfg s t).left m =
      (Eval.left (do Eval.executeAll cfg cfg.room s (← Eval.need t.body?)) m).endTrace := by
  simp only [Eval.left, Eval.program]
  cases (do Eval.executeAll cfg cfg.room s (← Eval.need t.body?) : Eval Completion) m with
  | ok done m' => cases done <;> rfl
  | error interrupt m' => cases interrupt <;> rfl

theorem Affects.program (cfg : Config) (own : Nat → Prop) {s : Nat} (hs : own s) (t : Tree) :
    Affects own (Eval.program cfg s t) := by
  have hbody : Affects own (do Eval.executeAll cfg cfg.room s (← Eval.need t.body?)) :=
    (Affects.quiet (.need _)).bind fun body => .job cfg cfg.room (.executeAll s body) (.inl hs)
  intro m hm
  rw [Eval.left_program]
  exact (hbody m hm).tail (.endTrace _)

theorem Machine.run_left (m : Machine) (cfg : Config) (t : Tree) (s : Nat) :
    (m.run cfg t s).2 = (Eval.program cfg s t).left m := by
  unfold Machine.run Eval.left
  cases Eval.program cfg s t m <;> rfl

/-- Whatever the outcome, an expression, a block or a `for` loop leaves the names of every scope that
was there before as they are, the scope that it is run in included; any other statement, and a whole
program, leaves the names of all scopes but this one as they are. -/
theorem names_kept (cfg : Config) (room s : Nat) (m : Machine) (i : Nat)
    (hi : i < m.scopes.all.size) :
    (∀ e : Tree, ((Eval.evaluate cfg room s e).left m).names i = m.names i) ∧
    (∀ t : Tree, t.ownsScope = true →
      ((Eval.execute cfg room s t).left m).names i = m.names i) ∧
    (i ≠ s → ∀ t : Tree, ((Eval.execute cfg room s t).left m).names i = m.names i ∧
      (m.run cfg t s).2.names i = m.names i) := by
  constructor
  · intro e
    exact (Affects.job cfg room (.evaluate s e) trivial).names_eq hi
  constructor
  · intro t ht
    exact (Affects.job cfg room (.execute s t) (.inr ht)).names_eq hi
  · intro hne t
    have hs : s ≠ i := Ne.symm hne
    have hstmt : Affects (· ≠ i) (Eval.execute cfg room s t) :=
      .job cfg room (.execute s t) (.inl hs)
    have hprogram := Affects.program cfg (· ≠ i) hs t
    rw [Machine.run_left]
    exact ⟨hstmt.names_eq hi, hprogram.names_eq hi⟩

/-- A loop variable, and a variable declared by a loop body without braces, stay in the loop. -/
theorem names_kept_for_loop :
    ((Eval.execute { fuel := 5 } 9 0 (Stmt.forLoop
        (some (.variables [⟨⟨"i", ⟨9, 10⟩⟩, some (.literal (.bool true) ⟨13, 17⟩), ⟨9, 17⟩⟩] ⟨5, 17⟩))
        (some (.ident ⟨"i", ⟨19, 20⟩⟩))
        (some (.assign .set ⟨"i", ⟨22, 23⟩⟩ (.literal (.bool false) ⟨26, 31⟩) ⟨22, 31⟩))
        (.variables [⟨⟨"x", ⟨37, 38⟩⟩, none, ⟨37, 38⟩⟩] ⟨33, 39⟩) ⟨0, 39⟩).toTree).left
      (.initial "")).names 0 = (Machine.initial "").names 0 :=
  (names_kept { fuel := 5 } 9 0 (.initial "") 0 (by decide)).2.1 _ rfl

end Scriptlet
