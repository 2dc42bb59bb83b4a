import Scriptlet.Proofs.StoreContract

/-!
The store of scopes stays well formed, whatever programs are run on a machine, one after the other, and
however they end. At every moment the parent of a scope is older than the scope, so a walk outwards from
any scope comes to an end; and a function that is bound or handed around has a scope that exists and
existed when it was declared, although functions leave their scopes through results, arguments and
assignments. Parents never change, and a scope that is opened has a number that stood for nothing before.
-/

namespace Scriptlet

/-! ## What is there at a moment -/

/-- The values that a rule is applied to. -/
def Job.values : Job → List Value
  | .call _ f args => f :: args
  | .evaluate .. | .executeAll .. | .execute .. => []

/-- The value that a rule gives or a `return` carries on. -/
def Job.given : (job : Job) → EStateM.Result Interrupt Machine job.Result → List Value
  | .evaluate .., .ok v _ | .call .., .ok v _ => [v]
  | .executeAll .., .ok (.returned v _) _ | .execute .., .ok (.returned v _) _ => [v]
  | _, _ => []

/-- The scopes that a rule works in. -/
def Job.scopes : Job → List Nat
  | .evaluate s _ | .executeAll s _ | .execute s _ => [s]
  | .call .. => []

def Access.values : Access → List Value
  | .define _ _ v | .assign _ _ _ v => [v]
  | .native _ args => args
  | .openScope _ | .lookup .. | .number | .debug .. => []

def Access.scopes : Access → List Nat
  | .openScope s | .define s _ _ | .lookup _ s _ | .assign _ s _ _ => [s]
  | .number | .native .. | .debug .. => []

namespace Moment

/-- The values that are handed over or given. -/
def values : Moment → List Value
  | .begins job _ | .enters job _ => job.values
  | .does access _ _ => access.values
  | .ends job r => job.given r
  | .leaves .. | .rests _ => []

/-- The scopes that are worked in. -/
def scopes : Moment → List Nat
  | .begins job _ | .enters job _ => job.scopes
  | .does access _ _ => access.scopes
  | .ends .. | .leaves .. | .rests _ => []

/-- A value is bound, handed over or given. -/
def Carries (x : Moment) (v : Value) : Prop :=
  v ∈ x.values ∨ ∃ scope ∈ x.machine.scopes.all, ∃ binding ∈ scope.bindings, binding.2 = v

/-- How many scopes there are. -/
def size (x : Moment) : Nat :=
  x.machine.scopes.all.size

/-- The parent of a scope that exists. -/
def parent? (x : Moment) (i : Nat) : Option (Option Nat) :=
  x.machine.scopes.all[i]?.map (·.parent)

end Moment

/-! ## Walks outwards -/

/-- The walk from a scope outwards ends at the first scope that binds a name, or outside of all. -/
inductive Scopes.Resolves {α : Type} (scopes : Scopes α) (name : Name) : Nat → Option Nat → Prop
  | here {s : Nat} {scope : Scope α} (hscope : scopes.all[s]? = some scope)
      (hbinds : scope.binds name = true) : Resolves scopes name s (some s)
  | outside {s : Nat} {scope : Scope α} (hscope : scopes.all[s]? = some scope)
      (hbinds : scope.binds name = false) (hparent : scope.parent = none) :
      Resolves scopes name s none
  | outwards {s parent : Nat} {scope : Scope α} {r : Option Nat} (hscope : scopes.all[s]? = some scope)
      (hbinds : scope.binds name = false) (hparent : scope.parent = some parent)
      (hrest : Resolves scopes name parent r) : Resolves scopes name s r

/-- Where parents are older than their children, every walk ends, and a bound beyond the scope it starts
from does not cut it short. -/
theorem Scopes.resolves_findWithin {α : Type} {scopes : Scopes α}
    (holder : ∀ (i : Nat) (scope : Scope α) (parent : Nat),
      scopes.all[i]? = some scope → scope.parent = some parent → parent < i)
    (name : Name) {s bound : Nat} (hs : s < scopes.all.size) (hbound : s < bound) :
    scopes.Resolves name s (scopes.findWithin name bound s) := by
  induction bound generalizing s with
  | zero => cases hbound
  | succ bound ih =>
    have hscope := Array.getElem?_eq_getElem hs
    unfold Scopes.findWithin
    rw [hscope]
    dsimp only
    cases hbinds : scopes.all[s].binds name with
    | true => exact .here hscope hbinds
    | false =>
      simp only [Bool.false_eq_true, if_false]
      cases hparent : scopes.all[s].parent with
      | none => exact .outside hscope hbinds hparent
      | some parent =>
        have hlt := holder s _ parent hscope hparent
        exact .outwards hscope hbinds hparent (ih (by omega) (by omega))

theorem Scope.get?_of_binds {α : Type} {scope : Scope α} {word : String}
    (h : scope.binds (.word word) = true) : ∃ value, scope.get? (.word word) = some value := by
  obtain ⟨⟨name, value⟩, hmem, hname⟩ := List.any_eq_true.1 h
  have hsome : (scope.bindings.lookup (.word word)).isSome := by
    rw [List.lookup_isSome_iff]
    exact ⟨_, hmem, Name.word_beq.2 (Name.beq_word.1 hname)⟩
  exact Option.isSome_iff_exists.1 hsome

/-- A word has a value in the scope where the walk ends, and can be given another there; if the walk ends
outside of all scopes, asking for the word and assigning to it are errors that change nothing. -/
inductive Machine.Finds (m : Machine) (s : Nat) (word : String) : Prop
  | bound {found : Nat} {scope : Scope Value} {value : Value}
      (hwalk : m.scopes.Resolves (.word word) s (some found))
      (hscope : m.scopes.all[found]? = some scope) (hvalue : scope.get? (.word word) = some value)
      (hlookup : Eval.lookup s (.text word) m = .ok value m)
      (hassign : ∀ v, Eval.assign s (.text word) v m =
        .ok v { m with scopes := m.scopes.define found (.word word) v })
  | undefined (hwalk : m.scopes.Resolves (.word word) s none)
      (hlookup : Eval.lookup s (.text word) m =
        .error (.error { cause := .undefinedVariable word }) m)
      (hassign : ∀ v, Eval.assign s (.text word) v m =
        .error (.error { cause := .undefinedVariable word }) m)

theorem Machine.finds_of_resolves {m : Machine} {s : Nat} {word : String}
    (h : m.scopes.Resolves (.word word) s (m.scopes.find? s (.word word))) : m.Finds s word := by
  cases hfind : m.scopes.find? s (.word word) with
  | none =>
    have hget : m.scopes.get? s (.word word) = none := by
      rw [Scopes.get?, hfind]
      rfl
    rw [hfind] at h
    exact .undefined h (Eval.lookup_of_none rfl hget) (Eval.assign_of_none rfl hfind)
  | some found =>
    obtain ⟨scope, hscope, hbinds⟩ := Scopes.binds_of_findWithin hfind
    obtain ⟨value, hvalue⟩ := Scope.get?_of_binds hbinds
    have hget : m.scopes.get? s (.word word) = some value := by
      simp only [Scopes.get?, hfind, hscope, hvalue, Option.bind_eq_bind, Option.bind_some]
    rw [hfind] at h
    exact .bound h hscope hvalue (Eval.lookup_of_some rfl hget) (Eval.assign_of_some rfl hfind)

/-! ## Well-formed moments -/

namespace Moment

structure WellScoped (x : Moment) : Prop where
  /-- A parent is older than its children. -/
  parent_lt (i parent : Nat) (h : x.parent? i = some (some parent)) : parent < i
  /-- Rules are applied, and accesses made, in scopes that exist. -/
  scope_lt (s : Nat) (h : s ∈ x.scopes) : s < x.size
  /-- The scope of a function exists, and the function has got its number. -/
  closure_lt (f : Closure) (h : x.Carries (.closure f)) :
    f.scope < x.size ∧ f.id < x.machine.nextClosure
  /-- An opened scope comes after all others, and it is empty. -/
  opens (parent s : Nat) (m m' : Machine) (h : x = .does (.openScope parent) m (.ok s m')) :
    s = x.size ∧ m'.scopes.all = x.machine.scopes.all.push ⟨some parent, []⟩
  /-- Walks end, with or without a bound on their steps. -/
  walk (s : Nat) (h : s < x.size) (name : Name) :
    x.machine.scopes.Resolves name s (x.machine.scopes.find? s name)
  finds (s : Nat) (h : s < x.size) (word : String) : x.machine.Finds s word

/-- What is kept from one moment to a later one. -/
structure Before (x y : Moment) : Prop where
  size_le : x.size ≤ y.size
  /-- Parents never change. -/
  parent_eq (i : Nat) (h : i < x.size) : y.parent? i = x.parent? i
  /-- A function that was declared by the first moment has a scope that existed by then. -/
  closure_lt (f : Closure) (h : y.Carries (.closure f)) (hdeclared : f.id < x.machine.nextClosure) :
    f.scope < x.size
  /-- A scope that is opened later is new. -/
  opens (parent s : Nat) (m m' : Machine) (h : y = .does (.openScope parent) m (.ok s m')) :
    x.size ≤ s

end Moment

/-- No word is kept: any tree may be run. -/
abbrev anyWord : Keepsakes := fun _ => none

variable {w w' : Ledger} {x y : Moment}

theorem Contract.Holds.describes (h : (storeContract anyWord).Holds w x) :
    w.Describes anyWord x.machine :=
  h.sound

variable {v : Value}

theorem Job.held_of_fits {job : Job} (h : (storeContract anyWord).Fits w job) (hv : v ∈ job.values) :
    v.Held anyWord w := by
  cases job with
  | evaluate | executeAll | execute => cases hv
  | call t f args =>
    rcases List.mem_cons.1 hv with rfl | hv
    · exact h.1
    · exact h.2 v hv

theorem Access.held_of_allows {access : Access} (h : (storeContract anyWord).Allows w access)
    (hv : v ∈ access.values) : v.Held anyWord w := by
  cases access with
  | openScope | lookup | number | debug => cases hv
  | define | assign =>
    rw [List.mem_singleton.1 hv]
    exact h.2.1
  | native f args => exact h v hv

theorem Job.held_of_lands {job : Job} {r : EStateM.Result Interrupt Machine job.Result}
    (h : (storeContract anyWord).Lands w ((storeContract anyWord).Yields · job) r) (hv : v ∈ job.given r) :
    v.Held anyWord w := by
  cases r with
  | error => cases job <;> cases hv
  | ok a m =>
    cases job with
    | evaluate | call =>
      rw [List.mem_singleton.1 hv]
      exact h.2
    | executeAll | execute =>
      cases a with
      | normal => cases hv
      | returned value statement =>
        rw [List.mem_singleton.1 hv]
        exact h.2

/-- Whatever a moment carries can be held. -/
theorem held_of_carries (h : (storeContract anyWord).Holds w x) (hv : x.Carries v) :
    v.Held anyWord w := by
  rcases hv with hv | ⟨scope, hscope, binding, hbinding, rfl⟩
  · cases x with
    | leaves | rests => cases hv
    | begins | enters => exact Job.held_of_fits h.2 hv
    | does => exact Access.held_of_allows h.2.1 hv
    | ends => exact Job.held_of_lands h hv
  · exact h.describes.held scope hscope binding hbinding

theorem has_of_mem_scopes {s : Nat} (h : (storeContract anyWord).Holds w x) (hs : s ∈ x.scopes) :
    w.Has s := by
  cases x with
  | leaves | rests | ends => cases hs
  | begins job | enters job =>
    cases job with
    | call => cases hs
    | evaluate | executeAll | execute =>
      rw [List.mem_singleton.1 hs]
      exact h.2.1
  | does access =>
    cases access with
    | number | native | debug => cases hs
    | openScope | lookup =>
      rw [List.mem_singleton.1 hs]
      exact h.2.1
    | define | assign =>
      rw [List.mem_singleton.1 hs]
      exact h.2.1.1

theorem Ledger.Describes.parent?_eq (h : w.Describes anyWord x.machine) (i : Nat) :
    x.parent? i = w.parents[i]? := by
  rw [← h.parents, List.getElem?_map, Array.getElem?_toList]
  rfl

/-- A function that can be held was declared in one of the scopes that there were then. -/
theorem Value.Held.scope_lt {f : Closure} (h : (Value.closure f).Held anyWord w') (hle : w ≤ w')
    (hid : f.id < w.births.length) : w.Has f.scope := by
  obtain ⟨⟨born, hborn, hscope⟩, -⟩ := h
  have hlisted := List.prefix_iff_getElem?.1 hle.2 f.id hid
  rw [hborn, Option.some.injEq] at hlisted
  exact Nat.lt_of_lt_of_le hscope (w.born born (hlisted ▸ List.getElem_mem hid))

theorem Moment.wellScoped_of_holds (h : (storeContract anyWord).Holds w x) : x.WellScoped := by
  have hsize : x.size = w.parents.length := h.describes.size
  have holder : ∀ i parent : Nat, x.parent? i = some (some parent) → parent < i := by
    intro i parent hparent
    rw [h.describes.parent?_eq] at hparent
    exact w.older i parent hparent
  have hwalk : ∀ s, s < x.size → ∀ name,
      x.machine.scopes.Resolves name s (x.machine.scopes.find? s name) := by
    intro s hs name
    refine Scopes.resolves_findWithin (fun i scope parent hscope hparent => ?_) name hs hs
    exact holder i parent (by simp [Moment.parent?, hscope, hparent])
  refine ⟨holder, fun s hs => hsize ▸ has_of_mem_scopes h hs, fun f hf => ?_, ?_, hwalk,
    fun s hs word => Machine.finds_of_resolves (hwalk s hs _)⟩
  · have hheld := held_of_carries h hf
    obtain ⟨⟨born, hborn, -⟩, -⟩ := id hheld
    have hid := (List.getElem?_eq_some_iff.1 hborn).1
    exact ⟨hsize ▸ hheld.scope_lt le_rfl hid, h.describes.births ▸ hid⟩
  · rintro parent s m m' rfl
    obtain ⟨cfg, hr⟩ := h.2.2.1
    cases hr
    exact ⟨rfl, rfl⟩

theorem Moment.before_of_holds (hle : w ≤ w') (hx : (storeContract anyWord).Holds w x)
    (hy : (storeContract anyWord).Holds w' y) : x.Before y := by
  have hx_size : x.size = w.parents.length := hx.describes.size
  have hy_size : y.size = w'.parents.length := hy.describes.size
  have hsize : x.size ≤ y.size := by
    rw [hx_size, hy_size]
    exact hle.1.length_le
  refine ⟨hsize, fun i hi => ?_, fun f hf hdeclared => ?_, fun parent s m m' hopens => ?_⟩
  · rw [hx_size] at hi
    rw [hx.describes.parent?_eq, hy.describes.parent?_eq, List.getElem?_eq_getElem hi]
    exact List.prefix_iff_getElem?.1 hle.1 i hi
  · rw [hx_size]
    exact (held_of_carries hy hf).scope_lt hle (hx.describes.births ▸ hdeclared)
  · rw [((Moment.wellScoped_of_holds hy).opens parent s m m' hopens).1]
    exact hsize

/-! ## Sessions -/

/-- All moments of a session keep to the contract. -/
theorem Session.along {input : String} {moments : List Moment} {m : Machine}
    (h : Session (.initial input) moments m) :
    ∃ w, (storeContract anyWord).Along .initial moments w ∧ w.Describes anyWord m := by
  generalize hfirst : Machine.initial input = first at h
  induction h with
  | start =>
    subst hfirst
    have hinitial := Ledger.describes_initial anyWord input nofun
    exact ⟨.initial, .single le_rfl hinitial, hinitial⟩
  | run before cfg t hs ih =>
    obtain ⟨w, halong, hm⟩ := ih
    obtain ⟨w', hrun, hleft⟩ := (storeContract.keeps anyWord cfg).run (t := t) hm fun body _ =>
      ⟨hm.size ▸ hs, fun _ _ => rfl, fun _ _ _ => rfl⟩
    exact ⟨w', halong.append hrun, hleft⟩

/-- Whatever programs are run on a machine one after the other, and however they end, the store is well
formed at every moment, and what was there at one moment is kept at all later ones. -/
theorem session_wellScoped {input : String} {moments : List Moment} {m : Machine}
    (h : Session (.initial input) moments m) :
    (∀ x ∈ moments, x.WellScoped) ∧ moments.Pairwise Moment.Before := by
  obtain ⟨w, halong, -⟩ := h.along
  constructor
  · intro x hx
    obtain ⟨v, -, hholds⟩ := halong.holds hx
    exact Moment.wellScoped_of_holds hholds
  · refine halong.pairwise.imp fun {x y} hxy => ?_
    obtain ⟨v, v', hle, hx, hy⟩ := hxy
    exact Moment.before_of_holds hle hx hy

/-- A program fails in a block in which it has declared a function; the next is run in the scope of that
block, where the function is still bound, calls it and binds its result. -/
theorem session_wellScoped_failed_block :
    let failing := Program.toTree ⟨[.block [.function ⟨"f", ⟨6, 7⟩⟩ []
      [.ret (some (.ident ⟨"f", ⟨19, 20⟩⟩)) ⟨12, 21⟩] ⟨10, 23⟩ ⟨2, 23⟩,
      .expr (.assign .set ⟨"g", ⟨24, 25⟩⟩ (.ident ⟨"f", ⟨28, 29⟩⟩) ⟨24, 29⟩) ⟨24, 30⟩] ⟨0, 32⟩], ⟨0, 32⟩⟩
    let calling := Program.toTree ⟨[.variables [⟨⟨"h", ⟨4, 5⟩⟩,
      some (.call (.ident ⟨"f", ⟨8, 9⟩⟩) [] ⟨8, 11⟩), ⟨4, 11⟩⟩] ⟨0, 12⟩], ⟨0, 12⟩⟩
    let failed := (Machine.initial "").run { fuel := 5 } failing 0
    let called := failed.2.run { fuel := 5 } calling 1
    failed.1 = .stopped (.error ⟨.undefinedVariable "g", some (.ofNat 24, .ofNat 29)⟩) ∧
      ∃ moments, Session (.initial "") moments called.2 ∧ called.2.scopes.all.size = 3 ∧
        called.2.names 1 = [.word "f", .word "h"] ∧
        (∀ x ∈ moments, x.WellScoped) ∧ moments.Pairwise Moment.Before := by
  intro failing calling failed called
  have hsession := Session.run (.run (.start (.initial "")) { fuel := 5 } failing (s := 0) (by decide))
    { fuel := 5 } calling (s := 1) (by decide)
  exact ⟨rfl, _, hsession, by decide, rfl, session_wellScoped hsession⟩

end Scriptlet
