import Scriptlet.Proofs.PairedScopes

/-!
Machines whose scopes are laid out differently. A layout says where each scope of a machine has its home
on another machine, which can have more scopes, and which scope of the first each scope of the second
stands for. A scope that is nobody's home is spare: nothing is bound in it, and it stands for the same
scope as its parent does.

On such machines names are found in the same places (`Moved.find?`), and functions differ only in the
number of the scope that they were declared in. The scopes to come are laid out side by side, so a layout
stays what it is when both machines open a scope. When only the second opens one, it becomes a spare one
and the layout changes behind it (`Moved.open_spare`).
-/

namespace Scriptlet

structure Layout where
  home : Nat → Nat
  stands : Nat → Nat
  stands_home (s : Nat) : stands (home s) = s

variable {L : Layout}

theorem Layout.home_inj {s k : Nat} (h : L.home s = L.home k) : s = k := by
  rw [← L.stands_home s, h, L.stands_home]

/-! ## Values -/

namespace Value

/-- A function is declared in the home of its scope. -/
def moved (L : Layout) : Value → Value
  | .closure f => .closure { f with scope := L.home f.scope }
  | v => v

/-- Only the home of the scope of a function matters. -/
theorem moved_congr {L' : Layout} {v : Value}
    (h : ∀ f, v = .closure f → L'.home f.scope = L.home f.scope) : v.moved L' = v.moved L := by
  cases v with
  | scalar | native | data => rfl
  | closure f => rw [moved, moved, h f rfl]

end Value

def Completion.moved (L : Layout) : Completion → Completion
  | .normal => .normal
  | .returned value statement => .returned (value.moved L) statement

/-! ## Bindings -/

/-- The bindings of a scope in its home. -/
def Layout.bindings (L : Layout) (list : List (Name × Value)) : List (Name × Value) :=
  list.map fun binding => (binding.1, binding.2.moved L)

namespace Layout

theorem any_bindings (L : Layout) (list : List (Name × Value)) (name : Name) :
    (L.bindings list).any (·.1 == name) = list.any (·.1 == name) := by
  simp [bindings, Function.comp_def]

theorem lookup_bindings (L : Layout) (list : List (Name × Value)) (name : Name) :
    (L.bindings list).lookup name = (list.lookup name).map (·.moved L) := by
  induction list with
  | nil => rfl
  | cons binding rest ih =>
    have hcons : L.bindings (binding :: rest) = (binding.1, binding.2.moved L) :: L.bindings rest := rfl
    rw [hcons, List.lookup_cons, List.lookup_cons, ih]
    cases name == binding.1 <;> rfl

theorem setBinding_bindings (L : Layout) (name : Name) (value : Value) (list : List (Name × Value)) :
    Scope.setBinding name (value.moved L) (L.bindings list) =
      L.bindings (Scope.setBinding name value list) := by
  induction list with
  | nil => rfl
  | cons binding rest ih =>
    obtain ⟨other, old⟩ := binding
    have hcons : L.bindings ((other, old) :: rest) = (other, old.moved L) :: L.bindings rest := rfl
    rw [hcons, Scope.setBinding, Scope.setBinding, ih]
    split <;> rfl

/-- The parents of a scope and of its home. A parent is older than its children. -/
inductive Parents (L : Layout) (s : Nat) : Option Nat → Option Nat → Prop
  | none : Parents L s none none
  | some {p p' : Nat} (h : L.stands p' = p) (hp : p < s) (hp' : p' < L.home s) :
      Parents L s (some p) (some p')

theorem Parents.congr {L' : Layout} {s : Nat} {parent parent' : Option Nat}
    (h : L.Parents s parent parent') (hhome : L'.home s = L.home s)
    (hstands : ∀ p' < L.home s, L'.stands p' = L.stands p') : L'.Parents s parent parent' := by
  cases h with
  | none => exact .none
  | some h hp hp' => exact .some ((hstands _ hp').trans h) hp (hhome ▸ hp')

end Layout

/-! ## Machines -/

/-- The scopes that a machine refers to exist. -/
structure Machine.Closed (m : Machine) : Prop where
  /-- A parent is older than its children. -/
  older {s : Nat} {scope : Scope Value} {parent : Nat} (hscope : m.scopes.all[s]? = some scope)
    (hparent : scope.parent = some parent) : parent < s
  /-- A function that is bound was declared in a scope that exists, and has its number. -/
  declared {s : Nat} {scope : Scope Value} {binding : Name × Value} {f : Closure}
    (hscope : m.scopes.all[s]? = some scope) (hbinding : binding ∈ scope.bindings)
    (hf : binding.2 = .closure f) : f.scope < m.scopes.all.size ∧ f.id < m.nextClosure

/-- The second machine is the first with its scopes laid out differently. -/
structure Moved (L : Layout) (m m' : Machine) : Prop where
  others : ∃ scopes, m' = { m with scopes }
  /-- The scopes that will be opened lie side by side. -/
  next (k : Nat) : L.home (m.scopes.all.size + k) = m'.scopes.all.size + k
  scope {s : Nat} {a : Scope Value} (h : m.scopes.all[s]? = some a) :
    ∃ parent, m'.scopes.all[L.home s]? = some ⟨parent, L.bindings a.bindings⟩ ∧
      L.Parents s a.parent parent
  spare {s' : Nat} (h : s' < m'.scopes.all.size) (hspare : L.home (L.stands s') ≠ s') :
    ∃ p, m'.scopes.all[s']? = some ⟨some p, []⟩ ∧ L.stands p = L.stands s' ∧ p < s'

namespace Moved

variable {m m' : Machine} (h : Moved L m m')
include h

variable {s' s : Nat}

theorem home_lt (hs : s < m.scopes.all.size) : L.home s < m'.scopes.all.size := by
  obtain ⟨parent, hscope, -⟩ := h.scope (Array.getElem?_eq_getElem hs)
  exact (Array.getElem?_eq_some_iff.1 hscope).1

theorem le_home (hs : m.scopes.all.size ≤ s) : m'.scopes.all.size ≤ L.home s := by
  obtain ⟨k, rfl⟩ := Nat.exists_eq_add_of_le hs
  rw [h.next]
  omega

/-- Scopes that exist stand for scopes that exist. -/
theorem stands_lt (hs : s' < m'.scopes.all.size) : L.stands s' < m.scopes.all.size := by
  induction s' using Nat.strong_induction_on with
  | _ s' ih =>
    by_cases hspare : L.home (L.stands s') = s'
    · by_contra hlt
      have hle := h.le_home (Nat.le_of_not_lt hlt)
      omega
    · obtain ⟨p, -, hstands, hp⟩ := h.spare hs hspare
      rw [← hstands]
      exact ih p hp (by omega)

theorem lt_of_stands_lt (hs : L.stands s' < m.scopes.all.size) :
    s' < m'.scopes.all.size := by
  by_contra hlt
  obtain ⟨k, rfl⟩ := Nat.exists_eq_add_of_le (Nat.le_of_not_lt hlt)
  rw [← h.next, L.stands_home] at hs
  omega

/-! ### Names -/

theorem findWithin (name : Name) {n n' : Nat} (hs : s' < m'.scopes.all.size) (hn : L.stands s' < n)
    (hn' : s' < n') :
    m'.scopes.findWithin name n' s' = (m.scopes.findWithin name n (L.stands s')).map L.home := by
  induction s' using Nat.strong_induction_on generalizing n n' with
  | _ s' ih =>
    obtain ⟨n', rfl⟩ : ∃ k, n' = k + 1 := ⟨n' - 1, by omega⟩
    by_cases hspare : L.home (L.stands s') = s'
    · obtain ⟨n, rfl⟩ : ∃ k, n = k + 1 := ⟨n - 1, by omega⟩
      obtain ⟨⟨parent, bindings⟩, ha⟩ : ∃ a, m.scopes.all[L.stands s']? = some a :=
        ⟨_, Array.getElem?_eq_getElem (h.stands_lt hs)⟩
      obtain ⟨parent', hb, hparent⟩ := h.scope ha
      rw [hspare] at hb
      have hbinds : Scope.binds ⟨parent', L.bindings bindings⟩ name =
          Scope.binds ⟨parent, bindings⟩ name := L.any_bindings bindings name
      rw [Scopes.findWithin, Scopes.findWithin, ha, hb]
      dsimp only
      rw [hbinds]
      by_cases hname : Scope.binds ⟨parent, bindings⟩ name = true
      · rw [if_pos hname, if_pos hname, Option.map_some, hspare]
      · rw [if_neg hname, if_neg hname]
        cases hparent with
        | none => rfl
        | some hstands hp hp' =>
          rw [hspare] at hp'
          subst hstands
          exact ih _ hp' (by omega) (by omega) (by omega)
    · -- Nothing is bound in a spare scope.
      obtain ⟨p, hb, hstands, hp⟩ := h.spare hs hspare
      rw [Scopes.findWithin, hb, ← hstands]
      rw [← hstands] at hn
      exact ih p hp (by omega) hn (by omega)

theorem find? (name : Name) (hs : s' < m'.scopes.all.size) :
    m'.scopes.find? s' name = (m.scopes.find? (L.stands s') name).map L.home :=
  h.findWithin name hs (h.stands_lt hs) hs

theorem get? (name : Name) (hs : s' < m'.scopes.all.size) :
    m'.scopes.get? s' name = (m.scopes.get? (L.stands s') name).map (·.moved L) := by
  rw [Scopes.get?, Scopes.get?, h.find? name hs]
  cases m.scopes.find? (L.stands s') name with
  | none => rfl
  | some found =>
    cases ha : m.scopes.all[found]? with
    | none =>
      have hb : m'.scopes.all[L.home found]? = none :=
        Array.getElem?_eq_none (h.le_home (Array.getElem?_eq_none_iff.1 ha))
      simp [ha, hb]
    | some a =>
      obtain ⟨parent, hb, -⟩ := h.scope ha
      simp only [Option.bind_eq_bind, Option.map_some, Option.bind_some, ha, hb]
      exact L.lookup_bindings a.bindings name

/-! ### Changes -/

/-- A change that has nothing to do with scopes. -/
theorem update {n n' : Machine} (hn : n.scopes = m.scopes) (hn' : n'.scopes = m'.scopes)
    (hothers : ∃ scopes, n' = { n with scopes }) : Moved L n n' where
  others := hothers
  next k := by
    rw [hn, hn']
    exact h.next k
  scope ha := by
    rw [hn'] at *
    rw [hn] at ha
    exact h.scope ha
  spare hs := by
    rw [hn'] at *
    exact h.spare hs

/-- Names are bound in a scope and in its home. -/
theorem define (s : Nat) (name : Name) (value : Value) :
    Moved L { m with scopes := m.scopes.define s name value }
      { m' with scopes := m'.scopes.define (L.home s) name (value.moved L) } where
  others := by
    obtain ⟨scopes, rfl⟩ := h.others
    exact ⟨_, rfl⟩
  next k := by
    simp only [Scopes.define, Array.size_modify]
    exact h.next k
  scope {k b} hb := by
    simp only [Scopes.define, Array.getElem?_modify] at hb ⊢
    by_cases hk : s = k
    · subst hk
      rw [if_pos rfl] at hb ⊢
      obtain ⟨a, ha, rfl⟩ := Option.map_eq_some_iff.1 hb
      obtain ⟨parent, hhome, hparent⟩ := h.scope ha
      refine ⟨parent, ?_, hparent⟩
      rw [hhome, Option.map_some, Scope.set, Scope.set, L.setBinding_bindings]
    · rw [if_neg hk] at hb
      rw [if_neg (hk ∘ Layout.home_inj)]
      exact h.scope hb
  spare {s'} hs hspare := by
    simp only [Scopes.define, Array.size_modify] at hs
    obtain ⟨p, hb, hp⟩ := h.spare hs hspare
    refine ⟨p, ?_, hp⟩
    have hother : L.home s ≠ s' := by
      rintro rfl
      rw [L.stands_home] at hspare
      exact hspare rfl
    simp only [Scopes.define, Array.getElem?_modify, hb, hother, if_false]

/-- A scope is opened on both machines, in scopes that belong together. -/
theorem open_both {p' : Nat} (hp : p' < m'.scopes.all.size) :
    Moved L { m with scopes := (m.scopes.push (some (L.stands p'))).2 }
      { m' with scopes := (m'.scopes.push (some p')).2 } where
  others := by
    obtain ⟨scopes, rfl⟩ := h.others
    exact ⟨_, rfl⟩
  next k := by
    simp only [Scopes.push, Array.size_push]
    have hnext := h.next (1 + k)
    rwa [← Nat.add_assoc, ← Nat.add_assoc] at hnext
  scope {s a} ha := by
    simp only [Scopes.push, Array.getElem?_push] at ha ⊢
    have hnew := h.next 0
    rw [Nat.add_zero, Nat.add_zero] at hnew
    by_cases hs : s = m.scopes.all.size
    · subst hs
      rw [if_pos rfl, Option.some.injEq] at ha
      subst ha
      rw [if_pos hnew]
      refine ⟨some p', rfl, .some rfl (h.stands_lt hp) ?_⟩
      omega
    · rw [if_neg hs] at ha
      have hlt := h.home_lt (Array.getElem?_eq_some_iff.1 ha).1
      rw [if_neg (Nat.ne_of_lt hlt)]
      exact h.scope ha
  spare {s'} hs hspare := by
    simp only [Scopes.push, Array.size_push] at hs ⊢
    have hold : s' < m'.scopes.all.size := by
      by_contra hge
      have hnew : L.home m.scopes.all.size = s' := by
        rw [← Nat.add_zero m.scopes.all.size, h.next]
        omega
      rw [← hnew, L.stands_home] at hspare
      exact hspare rfl
    obtain ⟨p, hb, hp⟩ := h.spare hold hspare
    exact ⟨p, getElem?_push hb, hp⟩

end Moved

/-! ### Spare scopes -/

/-- The layout when the second machine opens a scope and the first does not. The new scope stands for the
same one as its parent, and the homes of scopes that are yet to be opened come after it. -/
def Moved.layout {m m' : Machine} (h : Moved L m m') (p' : Nat) : Layout where
  home s := if s < m.scopes.all.size then L.home s else L.home s + 1
  stands s' :=
    if s' < m'.scopes.all.size then L.stands s'
    else if s' = m'.scopes.all.size then L.stands p'
    else L.stands (s' - 1)
  stands_home s := by
    by_cases hs : s < m.scopes.all.size
    · rw [if_pos hs, if_pos (h.home_lt hs), L.stands_home]
    · have hle := h.le_home (Nat.le_of_not_lt hs)
      rw [if_neg hs, if_neg (by omega), if_neg (by omega), Nat.add_sub_cancel, L.stands_home]

namespace Moved

variable {m m' : Machine} (h : Moved L m m') (p' : Nat)

theorem home_layout {s : Nat} (hs : s < m.scopes.all.size) : (h.layout p').home s = L.home s :=
  if_pos hs

theorem stands_layout {s' : Nat} (hs : s' < m'.scopes.all.size) :
    (h.layout p').stands s' = L.stands s' :=
  if_pos hs

theorem stands_layout_new : (h.layout p').stands m'.scopes.all.size = L.stands p' := by
  show (if _ then _ else if _ then _ else _) = _
  rw [if_neg (Nat.lt_irrefl _), if_pos rfl]

include h in
/-- The second machine opens a scope for itself. -/
theorem open_spare (hclosed : m.Closed) (hp : p' < m'.scopes.all.size) :
    Moved (h.layout p') m { m' with scopes := (m'.scopes.push (some p')).2 } where
  others := by
    obtain ⟨scopes, rfl⟩ := h.others
    exact ⟨_, rfl⟩
  next k := by
    simp only [Scopes.push, Array.size_push, layout]
    rw [if_neg (by omega), h.next]
    omega
  scope {s a} ha := by
    have hs := (Array.getElem?_eq_some_iff.1 ha).1
    obtain ⟨parent, hb, hparent⟩ := h.scope ha
    have hbindings : (h.layout p').bindings a.bindings = L.bindings a.bindings := by
      refine List.map_congr_left fun binding hbinding => ?_
      rw [Value.moved_congr fun f hf => h.home_layout p' (hclosed.declared ha hbinding hf).1]
    rw [h.home_layout p' hs, hbindings]
    refine ⟨parent, getElem?_push hb, hparent.congr (h.home_layout p' hs) fun q hq => ?_⟩
    exact h.stands_layout p' (Nat.lt_trans hq (h.home_lt hs))
  spare {s'} hs hspare := by
    simp only [Scopes.push, Array.size_push] at hs ⊢
    by_cases hold : s' < m'.scopes.all.size
    · rw [h.stands_layout p' hold] at hspare ⊢
      rw [h.home_layout p' (h.stands_lt hold)] at hspare
      obtain ⟨q, hb, hstands, hq⟩ := h.spare hold hspare
      refine ⟨q, getElem?_push hb, ?_, hq⟩
      rw [h.stands_layout p' (by omega), hstands]
    · obtain rfl : s' = m'.scopes.all.size := by omega
      refine ⟨p', by simp, ?_, hp⟩
      rw [h.stands_layout_new, h.stands_layout p' hp]

end Moved

/-! ### The same layout -/

def Layout.same : Layout where
  home := id
  stands := id
  stands_home _ := rfl

theorem Value.moved_same (v : Value) : v.moved .same = v := by
  cases v <;> rfl

theorem Moved.refl {m : Machine} (hclosed : m.Closed) : Moved .same m m where
  others := ⟨m.scopes, rfl⟩
  next _ := rfl
  scope {s a} ha := by
    have hbindings : Layout.same.bindings a.bindings = a.bindings := by
      refine (List.map_congr_left fun binding _ => ?_).trans (List.map_id _)
      rw [Value.moved_same]
      rfl
    rw [hbindings]
    refine ⟨a.parent, ha, ?_⟩
    cases hparent : a.parent with
    | none => exact .none
    | some p => exact .some rfl (hclosed.older ha hparent) (hclosed.older ha hparent)
  spare _ hspare := absurd rfl hspare

end Scriptlet
