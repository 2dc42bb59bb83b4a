import Scriptlet.Proofs.ScopeStore

/-!
Scopes are nested maps. A forest of scopes is built from the outermost one by opening scopes, binding
names and assigning to them. What a name means from a scope can be said from the history alone: it is
the value last given to the name in the innermost scope, on the way outwards, in which it was bound.
-/

namespace Scriptlet

namespace Scopes

/-- What can be done to a forest of scopes. -/
inductive Step (α : Type) where
  | new (parent : Option Nat)
  | define (s : Nat) (name : String) (value : α)
  | assign (s : Nat) (name : String) (value : α)

variable {α : Type} {past : List (Step α)} {step : Step α} {scopes : Scopes α} {n : String}

/-- An assignment to a name that is not bound does nothing. -/
def perform (scopes : Scopes α) : Step α → Scopes α
  | .new parent => (scopes.push parent).2
  | .define s name value => scopes.define s (.word name) value
  | .assign s name value => (scopes.assign? s (.word name) value).getD scopes

/-- The step is about scopes that exist. -/
def Step.Valid (scopes : Scopes α) : Step α → Prop
  | .new parent => ∀ p ∈ parent, p < scopes.all.size
  | .define s _ _ | .assign s _ _ => s < scopes.all.size

instance (scopes : Scopes α) : (step : Step α) → Decidable (step.Valid scopes)
  | .new parent => inferInstanceAs (Decidable (∀ p ∈ parent, p < scopes.all.size))
  | .define s _ _ | .assign s _ _ => inferInstanceAs (Decidable (s < scopes.all.size))

/-- The scopes that a history leaves, which has the latest step first. -/
inductive After : List (Step α) → Scopes α → Prop
  | start : After [] root
  | step {past : List (Step α)} {scopes : Scopes α} {step : Step α} (hpast : After past scopes)
      (hvalid : step.Valid scopes) : After (step :: past) (scopes.perform step)

/-! ## What a history says -/

/-- The parents of the scopes, in the order in which the scopes were opened. -/
def parents : List (Step α) → List (Option Nat)
  | [] => [none]
  | .new parent :: past => parents past ++ [parent]
  | _ :: past => parents past

/-- A name was bound in a scope. -/
def Bound (past : List (Step α)) (s : Nat) (name : String) : Prop :=
  ∃ value, .define s name value ∈ past

/-- The way outwards from a scope comes to another one before any that binds the name. -/
inductive Reaches (past : List (Step α)) (name : String) : Nat → Nat → Prop
  | refl (s : Nat) : Reaches past name s s
  | outwards {s parent k : Nat} (hbound : ¬ Bound past s name)
      (hparent : (parents past)[s]? = some (some parent)) (hrest : Reaches past name parent k) :
      Reaches past name s k

/-- The innermost scope, on the way outwards, that binds the name. -/
def Innermost (past : List (Step α)) (name : String) (s k : Nat) : Prop :=
  Reaches past name s k ∧ Bound past k name

/-- A step gives a value to a name in a scope. -/
inductive Gives (past : List (Step α)) : Step α → Nat → String → α → Prop
  | define (k : Nat) (name : String) (value : α) : Gives past (.define k name value) k name value
  | assign {s k : Nat} {name : String} (hfound : Innermost past name s k) (value : α) :
      Gives past (.assign s name value) k name value

inductive LastGiven : List (Step α) → Nat → String → α → Prop
  | now {past : List (Step α)} {step : Step α} {k : Nat} {name : String} {value : α}
      (h : Gives past step k name value) : LastGiven (step :: past) k name value
  | earlier {past : List (Step α)} {step : Step α} {k : Nat} {name : String} {value : α}
      (h : LastGiven past k name value) (hother : ∀ other, ¬ Gives past step k name other) :
      LastGiven (step :: past) k name value

/-- Where two histories agree on the way outwards from a scope, they agree on the innermost scope. -/
theorem Innermost.of_agree {past' : List (Step α)} (hparents : parents past' = parents past)
    (agree : Nat → Prop) (hbound : ∀ i, agree i → (Bound past' i n ↔ Bound past i n))
    (hnext : ∀ i parent, agree i → ¬ Bound past i n → (parents past)[i]? = some (some parent) →
      agree parent) {s k : Nat} (hs : agree s) :
    Innermost past' n s k ↔ Innermost past n s k := by
  constructor
  · rintro ⟨hreach, hk⟩
    induction hreach with
    | refl => exact ⟨.refl _, (hbound _ hs).1 hk⟩
    | outwards hfree hparent _ ih =>
      rw [hparents] at hparent
      have hfree := hfree ∘ (hbound _ hs).2
      obtain ⟨hreach, hk⟩ := ih (hnext _ _ hs hfree hparent) hk
      exact ⟨.outwards hfree hparent hreach, hk⟩
  · rintro ⟨hreach, hk⟩
    induction hreach with
    | refl => exact ⟨.refl _, (hbound _ hs).2 hk⟩
    | outwards hfree hparent _ ih =>
      obtain ⟨hreach, hk⟩ := ih (hnext _ _ hs hfree hparent) hk
      exact ⟨.outwards (hfree ∘ (hbound _ hs).1) (hparents ▸ hparent) hreach, hk⟩

theorem bound_assign {s t : Nat} {name : String} {value : α} :
    Bound (.assign t name value :: past) s n ↔ Bound past s n := by
  simp [Bound]

/-- An assignment changes neither the way outwards nor what is bound on it. -/
theorem innermost_assign {s t k : Nat} {name : String} {value : α} :
    Innermost (.assign t name value :: past) n s k ↔ Innermost past n s k := by
  have hparents : parents (.assign t name value :: past) = parents past := rfl
  refine Innermost.of_agree hparents (fun _ => True) (fun _ _ => bound_assign) ?_ trivial
  intros
  trivial

theorem bound_define {s t : Nat} {name : String} {value : α} :
    Bound (.define t name value :: past) s n ↔ s = t ∧ n = name ∨ Bound past s n := by
  simp [Bound, exists_or]

theorem Reaches.of_define {s t k : Nat} {value : α}
    (h : Reaches (.define t n value :: past) n s k) : Reaches past n s k := by
  induction h with
  | refl => exact .refl _
  | outwards hfree hparent _ ih =>
    exact .outwards (fun hbound => hfree (bound_define.2 (.inr hbound))) hparent ih

/-- A binding is seen from where the way outwards comes to it first. -/
theorem innermost_define_self {s t : Nat} {value : α} :
    Innermost (.define t n value :: past) n s t ↔ Reaches past n s t := by
  constructor
  · rintro ⟨hreach, -⟩
    exact hreach.of_define
  · intro hreach
    refine ⟨?_, value, List.mem_cons_self⟩
    induction hreach with
    | refl => exact .refl _
    | @outwards s parent t hfree hparent _ ih =>
      by_cases hs : s = t
      · rw [hs]
        exact .refl _
      · refine .outwards ?_ hparent ih
        rw [bound_define]
        rintro (⟨h, -⟩ | h)
        · exact hs h
        · exact hfree h

/-- From elsewhere it makes no difference. -/
theorem innermost_define {s t k : Nat} {name : String} {value : α}
    (h : ¬ (n = name ∧ Reaches past name s t)) :
    Innermost (.define t name value :: past) n s k ↔ Innermost past n s k := by
  have hparents : parents (.define t name value :: past) = parents past := rfl
  refine Innermost.of_agree hparents (fun i => ¬ (n = name ∧ Reaches past name i t)) ?_ ?_ h
  · intro i hi
    rw [bound_define, or_iff_right]
    rintro ⟨rfl, hn⟩
    exact hi ⟨hn, .refl _⟩
  · rintro i parent hi hfree hparent ⟨rfl, hreach⟩
    exact hi ⟨rfl, .outwards hfree hparent hreach⟩

/-! ## What the scopes hold -/

/-- The value of a name in a scope itself. -/
def own (scopes : Scopes α) (s : Nat) (name : String) : Option α :=
  (scopes.bindings s).lookup (.word name)

theorem get?_eq (scopes : Scopes α) (s : Nat) (name : String) :
    scopes.get? s (.word name) = (scopes.find? s (.word name)).bind (scopes.own · name) := by
  unfold get? own bindings
  cases scopes.find? s (.word name) with
  | none => rfl
  | some found => cases hscope : scopes.all[found]? <;> simp [hscope, Scope.get?]

theorem binds_iff_own {s : Nat} {scope : Scope α} (h : scopes.all[s]? = some scope) :
    scope.binds (.word n) = true ↔ (scopes.own s n).isSome := by
  have hown : scopes.own s n = scope.get? (.word n) := by simp [own, bindings, h, Scope.get?]
  rw [hown]
  constructor
  · intro hbinds
    exact Option.isSome_iff_exists.2 (Scope.get?_of_binds hbinds)
  · intro hsome
    obtain ⟨binding, hmem, hname⟩ := List.lookup_isSome_iff.1 hsome
    exact List.any_eq_true.2 ⟨binding, hmem, Name.beq_word.2 (Name.word_beq.1 hname)⟩

theorem own_push (scopes : Scopes α) (parent : Option Nat) (s : Nat) :
    (scopes.push parent).2.own s n = scopes.own s n := by
  simp only [own, bindings, push, Array.getElem?_push]
  by_cases hs : s = scopes.all.size
  · simp [hs]
  · simp [hs]

theorem lookup_setBinding_self (value : α) (list : List (Name × α)) :
    (Scope.setBinding (.word n) value list).lookup (.word n) = some value := by
  induction list with
  | nil => simp [Scope.setBinding, List.lookup_cons, Name.word_beq.2]
  | cons first rest ih =>
    obtain ⟨other, old⟩ := first
    rw [Scope.setBinding]
    split
    · rename_i hsame
      simp [List.lookup_cons, Name.beq_word.1 hsame, Name.word_beq.2]
    · rename_i hother
      have hword : (Name.word n == other) = false :=
        Bool.of_not_eq_true (hother ∘ Name.beq_word.2 ∘ Name.word_beq.1)
      rw [List.lookup_cons, hword, ih]

open Classical in
theorem own_define {t : Nat} (ht : t < scopes.all.size) (name : String) (value : α) (s : Nat) :
    (scopes.define t (.word name) value).own s n =
      if s = t ∧ n = name then some value else scopes.own s n := by
  unfold own
  by_cases hs : s = t
  · subst hs
    have hscope := Array.getElem?_eq_getElem ht
    rw [bindings_define_self hscope]
    by_cases hn : n = name
    · rw [hn, if_pos ⟨rfl, rfl⟩, lookup_setBinding_self]
    · rw [if_neg fun h => hn h.2, Scope.lookup_setBinding fun h => hn (Name.word.inj h).symm]
      simp [bindings, hscope]
  · rw [bindings_define_of_ne (Ne.symm hs), if_neg fun h => hs h.1]

/-- What the scopes hold is what the history says. -/
structure Follows (past : List (Step α)) (scopes : Scopes α) : Prop where
  parents_eq : scopes.all.toList.map (·.parent) = parents past
  older (i parent : Nat) (h : (parents past)[i]? = some (some parent)) : parent < i
  bound (s : Nat) (name : String) : (scopes.own s name).isSome ↔ Bound past s name
  own_iff (s : Nat) (name : String) (value : α) :
    scopes.own s name = some value ↔ LastGiven past s name value

namespace Follows

variable {s k : Nat}

theorem parent_eq (h : Follows past scopes) {scope : Scope α} (hscope : scopes.all[s]? = some scope) :
    (parents past)[s]? = some scope.parent := by
  rw [← h.parents_eq, List.getElem?_map, Array.getElem?_toList, hscope]
  rfl

theorem lt_of_bound (h : Follows past scopes) (hbound : Bound past s n) :
    s < scopes.all.size := by
  have hsome := (h.bound s n).2 hbound
  by_contra hs
  rw [own, bindings, Array.getElem?_eq_none (by omega)] at hsome
  cases hsome

theorem lt_of_innermost (h : Follows past scopes) (hk : Innermost past n s k) :
    s < scopes.all.size := by
  obtain ⟨hreach, hbound⟩ := hk
  cases hreach with
  | refl => exact h.lt_of_bound hbound
  | outwards _ hparent =>
    rw [← h.parents_eq] at hparent
    obtain ⟨hs, -⟩ := List.getElem?_eq_some_iff.1 hparent
    simpa using hs

theorem innermost_of_resolves (h : Follows past scopes) {r : Option Nat}
    (hwalk : scopes.Resolves (.word n) s r) (k : Nat) : r = some k ↔ Innermost past n s k := by
  have hbinds {s : Nat} {scope : Scope α} (hscope : scopes.all[s]? = some scope) :
      scope.binds (.word n) = true ↔ Bound past s n :=
    (binds_iff_own hscope).trans (h.bound s n)
  induction hwalk with
  | @here s scope hscope hb =>
    have hb := (hbinds hscope).1 hb
    constructor
    · rintro ⟨⟩
      exact ⟨.refl _, hb⟩
    · rintro ⟨hreach, -⟩
      cases hreach with
      | refl => rfl
      | outwards hfree => exact absurd hb hfree
  | @outside s scope hscope hb hparent =>
    have hb := mt (hbinds hscope).2 (by rw [hb]; exact Bool.false_ne_true)
    refine ⟨fun h => (by cases h), ?_⟩
    rintro ⟨hreach, hk⟩
    cases hreach with
    | refl => exact absurd hk hb
    | outwards _ hother =>
      rw [h.parent_eq hscope, hparent] at hother
      cases hother
  | @outwards s parent scope r hscope hb hparent _ ih =>
    have hb := mt (hbinds hscope).2 (by rw [hb]; exact Bool.false_ne_true)
    have hup := h.parent_eq hscope
    rw [hparent] at hup
    refine ih.trans ⟨?_, ?_⟩
    · rintro ⟨hreach, hk⟩
      exact ⟨.outwards hb hup hreach, hk⟩
    · rintro ⟨hreach, hk⟩
      cases hreach with
      | refl => exact absurd hk hb
      | outwards _ hother hreach =>
        rw [hup] at hother
        cases hother
        exact ⟨hreach, hk⟩

theorem find?_iff (h : Follows past scopes) (s k : Nat) :
    scopes.find? s (.word n) = some k ↔ Innermost past n s k := by
  by_cases hs : s < scopes.all.size
  · refine h.innermost_of_resolves (resolves_findWithin ?_ _ hs hs) k
    intro i scope parent hscope hparent
    exact h.older i parent (hparent ▸ h.parent_eq hscope)
  · have hnone : scopes.find? s (.word n) = none := by
      unfold find?
      cases scopes.all.size with
      | zero => rfl
      | succ size => simp [findWithin, hs]
    rw [hnone]
    exact ⟨fun h => (by cases h), fun hk => absurd (h.lt_of_innermost hk) hs⟩

theorem assign?_of_innermost (h : Follows past scopes) (hk : Innermost past n s k) (value : α) :
    scopes.assign? s (.word n) value = some (scopes.define k (.word n) value) := by
  rw [assign?, (h.find?_iff s k).2 hk]

theorem find?_of_none (h : Follows past scopes) (hnone : ∀ k, ¬ Innermost past n s k) :
    scopes.find? s (.word n) = none := by
  cases hfind : scopes.find? s (.word n) with
  | none => rfl
  | some k => exact absurd ((h.find?_iff s k).1 hfind) (hnone k)

theorem assign?_of_none (h : Follows past scopes) (hnone : ∀ k, ¬ Innermost past n s k) (value : α) :
    scopes.assign? s (.word n) value = none := by
  rw [assign?, h.find?_of_none hnone]

/-- A step opens a scope, gives one name a value in one scope, or does nothing. -/
theorem perform_cases (h : Follows past scopes) (hvalid : step.Valid scopes) :
    (∃ parent, step = .new parent) ∨
      (parents (step :: past) = parents past ∧
        ((∃ t name value, t < scopes.all.size ∧
          scopes.perform step = scopes.define t (.word name) value ∧
          (∀ k m, Bound (step :: past) k m ↔ k = t ∧ m = name ∨ Bound past k m) ∧
          ∀ k m v, Gives past step k m v ↔ (k = t ∧ m = name) ∧ v = value) ∨
        (scopes.perform step = scopes ∧ (∀ k m, Bound (step :: past) k m ↔ Bound past k m) ∧
          ∀ k m v, ¬ Gives past step k m v))) := by
  cases step with
  | new parent => exact .inl ⟨parent, rfl⟩
  | define t name value =>
    refine .inr ⟨rfl, .inl ⟨t, name, value, hvalid, rfl, fun _ _ => bound_define, fun k m v => ?_⟩⟩
    constructor
    · rintro ⟨⟩
      exact ⟨⟨rfl, rfl⟩, rfl⟩
    · rintro ⟨⟨rfl, rfl⟩, rfl⟩
      exact .define k m v
  | assign s name value =>
    refine .inr ⟨rfl, ?_⟩
    by_cases hfound : ∃ k, Innermost past name s k
    · obtain ⟨t, ht⟩ := hfound
      refine .inl ⟨t, name, value, h.lt_of_bound ht.2, ?_, fun k m => ?_, fun k m v => ?_⟩
      · rw [perform, h.assign?_of_innermost ht]
        rfl
      · rw [bound_assign, iff_or_self]
        rintro ⟨rfl, rfl⟩
        exact ht.2
      · constructor
        · rintro ⟨⟩
          rename_i hk
          have hsame := ((h.find?_iff s k).2 hk).symm.trans ((h.find?_iff s t).2 ht)
          exact ⟨⟨Option.some.inj hsame, rfl⟩, rfl⟩
        · rintro ⟨⟨rfl, rfl⟩, rfl⟩
          exact .assign ht v
    · refine .inr ⟨?_, fun _ _ => bound_assign, ?_⟩
      · rw [perform, h.assign?_of_none fun k hk => hfound ⟨k, hk⟩]
        rfl
      · rintro k m v ⟨⟩
        exact hfound ⟨k, ‹_›⟩

theorem lastGiven_cons (h : ∀ s m v, scopes.own s m = some v ↔ LastGiven past s m v) {value : α} :
    LastGiven (step :: past) k n value ↔
      Gives past step k n value ∨ scopes.own k n = some value ∧ ∀ v, ¬ Gives past step k n v := by
  constructor
  · rintro (hnow | ⟨hearlier, hother⟩)
    · exact .inl hnow
    · exact .inr ⟨(h _ _ _).2 hearlier, hother⟩
  · rintro (hnow | ⟨hearlier, hother⟩)
    · exact .now hnow
    · exact .earlier ((h _ _ _).1 hearlier) hother

theorem perform (h : Follows past scopes) (hvalid : step.Valid scopes) :
    Follows (step :: past) (scopes.perform step) := by
  obtain ⟨parent, rfl⟩ |
    ⟨hparents, ⟨t, name, value, ht, hperform, hbound, hgives⟩ | ⟨hperform, hbound, hgives⟩⟩ :=
    h.perform_cases hvalid
  · have hown (s : Nat) (m : String) : (scopes.perform (.new parent)).own s m = scopes.own s m :=
      own_push scopes parent s
    refine ⟨?_, fun i p hp => ?_, fun s m => ?_, fun s m v => ?_⟩
    · simp [Scopes.perform, push, parents, h.parents_eq]
    · rw [parents, List.getElem?_append] at hp
      split at hp
      · exact h.older i p hp
      · have hlength := congrArg List.length h.parents_eq
        obtain ⟨hi, hparent⟩ := List.getElem?_eq_some_iff.1 hp
        have hp := hvalid p (by simpa using hparent)
        simp at hlength hi
        omega
    · rw [hown, h.bound]
      simp [Bound]
    · have hgives (w : α) : ¬ Gives past (.new parent) s m w := by rintro ⟨⟩
      simp [hown, lastGiven_cons h.own_iff, hgives]
  · refine ⟨?_, hparents ▸ h.older, fun s m => ?_, fun s m v => ?_⟩
    · rw [hperform, parents_define, hparents, h.parents_eq]
    · rw [hperform, own_define ht, hbound, ← h.bound]
      split <;> simp [*]
    · rw [hperform, own_define ht, lastGiven_cons h.own_iff]
      simp only [hgives]
      split <;> rename_i hs
      · simp [hs, eq_comm]
      · simp [hs]
  · refine ⟨?_, hparents ▸ h.older, fun s m => ?_, fun s m v => ?_⟩
    · rw [hperform, hparents, h.parents_eq]
    · rw [hperform, hbound, h.bound]
    · rw [hperform, lastGiven_cons h.own_iff]
      simp [hgives]

theorem get?_iff (h : Follows past scopes) (s : Nat) (value : α) :
    scopes.get? s (.word n) = some value ↔
      ∃ k, Innermost past n s k ∧ LastGiven past k n value := by
  rw [get?_eq, Option.bind_eq_some_iff]
  exact exists_congr fun k => and_congr (h.find?_iff s k) (h.own_iff k n value)

end Follows

theorem After.follows (h : After past scopes) : Follows past scopes := by
  induction h with
  | start =>
    have hown (s : Nat) (m : String) : (root : Scopes α).own s m = none := by
      cases s <;> rfl
    refine ⟨rfl, fun i parent hi => ?_, fun s m => ?_, fun s m v => ?_⟩
    · cases i with
      | zero => cases hi
      | succ => cases hi
    · simp [hown, Bound]
    · rw [hown]
      exact ⟨fun h => (by cases h), fun h => (by cases h)⟩
  | step _ hvalid ih => exact ih.perform hvalid

/-- The value seen is the new one for the pairs of a scope and a name that are affected, and what it was
for all others. -/
def Updated (scopes scopes' : Scopes α) (value : α) (affected : Nat → String → Prop) : Prop :=
  ∀ s name, (affected s name → scopes'.get? s (.word name) = some value) ∧
    (¬ affected s name → scopes'.get? s (.word name) = scopes.get? s (.word name))

/-- A value that a name is given in a scope is seen where that scope is now the innermost, provided that
elsewhere the innermost scope is the same as before. -/
theorem Follows.updated {past' : List (Step α)} {t : Nat} {value : α} (h : Follows past scopes)
    (ht : t < scopes.all.size) (h' : Follows past' (scopes.define t (.word n) value))
    (hother : ∀ s m, ¬ (m = n ∧ Innermost past' n s t) →
      ∀ k, Innermost past' m s k ↔ Innermost past m s k) :
    Updated scopes (scopes.define t (.word n) value) value
      (fun s m => m = n ∧ Innermost past' n s t) := by
  intro s m
  rw [get?_eq, get?_eq]
  constructor
  · rintro ⟨rfl, hfound⟩
    rw [(h'.find?_iff s t).2 hfound, Option.bind_some, own_define ht, if_pos ⟨rfl, rfl⟩]
  · intro hs
    have hfind : (scopes.define t (.word n) value).find? s (.word m) = scopes.find? s (.word m) := by
      refine Option.ext fun k => ?_
      exact (h'.find?_iff s k).trans ((hother s m hs k).trans (h.find?_iff s k).symm)
    rw [hfind]
    refine Option.bind_congr fun k hk => ?_
    rw [own_define ht, if_neg]
    rintro ⟨rfl, rfl⟩
    exact hs ⟨rfl, (h'.find?_iff s k).1 (hfind.trans hk)⟩

theorem Follows.assign_updated (h : Follows past scopes) {s k : Nat} (hk : Innermost past n s k)
    (value : α) : Updated scopes (scopes.define k (.word n) value) value
      (fun s₂ m => m = n ∧ Innermost past n s₂ k) := by
  have h' := h.perform (show (Step.assign s n value).Valid scopes from h.lt_of_innermost hk)
  rw [Scopes.perform, h.assign?_of_innermost hk] at h'
  have hupdated := h.updated (h.lt_of_bound hk.2) h' fun _ _ _ _ => innermost_assign
  simpa only [innermost_assign] using hupdated

theorem Follows.define_updated (h : Follows past scopes) {s : Nat} (hs : s < scopes.all.size)
    (value : α) : Updated scopes (scopes.define s (.word n) value) value
      (fun s₂ m => m = n ∧ Reaches past n s₂ s) := by
  have h' : Follows (.define s n value :: past) _ := h.perform hs
  have hupdated := h.updated hs h' fun s₂ m hm k =>
    innermost_define (by simpa only [innermost_define_self] using hm)
  simpa only [innermost_define_self] using hupdated

/-- Giving a bound name another value leaves the names of all scopes as they are. -/
theorem Follows.names_define (h : Follows past scopes) {k : Nat} (hk : Bound past k n) (value : α)
    (i : Nat) : ((scopes.define k (.word n) value).bindings i).map (·.1) =
      (scopes.bindings i).map (·.1) := by
  by_cases hi : k = i
  · subst hi
    have hscope := Array.getElem?_eq_getElem (h.lt_of_bound hk)
    have hbinds := (binds_iff_own hscope).2 ((h.bound k n).2 hk)
    rw [bindings_define_self hscope, Scope.setBinding_names hbinds]
    simp [bindings, hscope]
  · rw [bindings_define_of_ne hi]

/-- A name means, from a scope, the value last given to it in the innermost scope that binds it. An
assignment is seen from where that scope is the innermost, and it binds no names; a binding is seen from
where its scope is reached before any other that binds the name. If no scope on the way outwards binds the
name, asking for it and assigning to it fail and leave all scopes as they are. -/
theorem nested_maps {past : List (Step Value)} {m : Machine} (h : After past m.scopes) {s : Nat}
    (hs : s < m.scopes.all.size) (n : String) :
    (∀ v, m.scopes.get? s (.word n) = some v ↔ ∃ k, Innermost past n s k ∧ LastGiven past k n v) ∧
    (∀ k, Innermost past n s k → ∀ v, ∃ scopes', m.scopes.assign? s (.word n) v = some scopes' ∧
      Updated m.scopes scopes' v (fun s₂ n₂ => n₂ = n ∧ Innermost past n s₂ k) ∧
      ∀ i, (scopes'.bindings i).map (·.1) = (m.scopes.bindings i).map (·.1)) ∧
    (∀ v, Updated m.scopes (m.scopes.define s (.word n) v) v
      (fun s₂ n₂ => n₂ = n ∧ Reaches past n s₂ s)) ∧
    ((∀ k, ¬ Innermost past n s k) →
      Eval.lookup s (.text n) m = .error (.error { cause := .undefinedVariable n }) m ∧
      ∀ v, m.scopes.assign? s (.word n) v = none ∧
        Eval.assign s (.text n) v m = .error (.error { cause := .undefinedVariable n }) m) := by
  have h := h.follows
  refine ⟨h.get?_iff s, fun k hk v => ?_, h.define_updated hs, fun hnone => ?_⟩
  · exact ⟨_, h.assign?_of_innermost hk v, h.assign_updated hk v, h.names_define hk.2 v⟩
  · have hget : m.scopes.get? s (.word n) = none := by
      rw [get?_eq, h.find?_of_none hnone]
      rfl
    exact ⟨Eval.lookup_of_none rfl hget, fun v =>
      ⟨h.assign?_of_none hnone v, Eval.assign_of_none rfl (h.find?_of_none hnone) v⟩⟩

/-- Two scopes lie within the outermost one; the first binds the name again, and from the second the
outermost binding is given another value. -/
theorem nested_maps_of_siblings :
    let past : List (Step Value) := [.assign 2 "x" (.text "c"), .define 1 "x" (.text "b"),
      .new (some 0), .new (some 0), .define 0 "x" (.text "a")]
    let m : Machine := { scopes := past.foldr (fun step scopes => scopes.perform step) root }
    After past m.scopes ∧ 2 < m.scopes.all.size ∧ m.scopes.get? 1 (.word "x") = some (.text "b") ∧
      (∃ k, Innermost past "x" 2 k ∧ LastGiven past k "x" (.text "c")) ∧
      Eval.lookup 2 (.text "y") m = .error (.error { cause := .undefinedVariable "y" }) m := by
  intro past m
  have hafter : After past m.scopes :=
    .step (.step (.step (.step (.step .start (by decide)) (by decide)) (by decide))
      (by decide)) (by decide)
  have hsize : 2 < m.scopes.all.size := by decide
  have hx := (nested_maps hafter hsize "x").1
  have hy := nested_maps hafter hsize "y"
  refine ⟨hafter, hsize, rfl, (hx _).1 rfl, (hy.2.2.2 fun k hk => ?_).1⟩
  obtain ⟨value, hbound⟩ := hk.2
  simp [past] at hbound

end Scopes

end Scriptlet
