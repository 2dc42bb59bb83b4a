import Mathlib.Logic.Relation
import Mathlib.Order.CompleteBooleanAlgebra
import Mathlib.Order.CompletePartialOrder
import Scriptlet.Proofs.SameTrees

/-!
Everything that a run does to its machine. `Effect` lists the single changes: text is written, a line
is read, the clock is read, a message is traced, the file of messages is closed, the depth of calls
changes, a function gets its number, a scope is opened, a name is bound in a scope, a name that is bound
already gets a value. A computation leads through such changes from the machine it is run on to the
machine it leaves, whether it gives a result or is interrupted, and for any tree, well formed or not.

New names are bound only in scopes that the computation owns. A scope that it opens is its own, and a
statement owns the scope that it is carried out in; an expression owns no scope that was there before.
-/

namespace Scriptlet

/-- One change of a machine by a computation that owns some of the scopes. -/
inductive Effect (own : Nat → Prop) : Machine → Machine → Prop
  | write (m : Machine) (text : String) : Effect own m { m with output := m.output ++ text }
  | readLine (m : Machine) :
      Effect own m { m with
        input := (m.input.dropWhile (· != '\n')).drop 1
        linesRead := m.linesRead + 1 }
  | readClock (m : Machine) : Effect own m { m with clockReads := m.clockReads + 1 }
  | record (m : Machine) (message : Message) : Effect own m (m.record message)
  | endTrace (m : Machine) : Effect own m m.endTrace
  | depth (m : Machine) (n : Nat) : Effect own m { m with callDepth := n }
  | number (m : Machine) (id : Nat) : Effect own m { m with nextClosure := id }
  | openScope (m : Machine) (parent : Nat) :
      Effect own m { m with scopes := (m.scopes.push (some parent)).2 }
  | define {s : Nat} (hs : own s) (m : Machine) (name : Name) (value : Value) :
      Effect own m { m with scopes := m.scopes.define s name value }
  | assign {m : Machine} {s found : Nat} {name : Name} (h : m.scopes.find? s name = some found)
      (value : Value) : Effect own m { m with scopes := m.scopes.define found name value }

/-- A sequence of changes. -/
abbrev Effects (own : Nat → Prop) : Machine → Machine → Prop :=
  Relation.ReflTransGen (Effect own)

variable {own : Nat → Prop}

theorem Effect.effects {m m' : Machine} (h : Effect own m m') : Effects own m m' :=
  .single h

theorem Effect.size_le {m m' : Machine} (h : Effect own m m') :
    m.scopes.all.size ≤ m'.scopes.all.size := by
  cases h with
  | write | readLine | readClock | record | endTrace | depth | number => exact Nat.le_refl _
  | openScope => simp [Scopes.push]
  | define => simp [Scopes.define]
  | assign => simp [Scopes.define]

/-- Scopes are never given up. -/
theorem Effects.size_le {m m' : Machine} (h : Effects own m m') :
    m.scopes.all.size ≤ m'.scopes.all.size := by
  induction h with
  | refl => exact Nat.le_refl _
  | tail _ step ih => exact Nat.le_trans ih step.size_le

/-! ## Runs -/

/-- Whether carrying out a statement opens a scope for all of it: so do blocks and `for` loops. -/
def Tree.ownsScope : Tree → Bool
  | .node .blockStatement .. | .node .forStatement .. => true
  | _ => false

/-- Runs on a machine that started from a given one belong together with themselves: they have made none
but these changes so far, and all scopes still to be opened are their own. A statement owns the scope that
it is carried out in, or opens one for all of it. Interrupts are of a kind that is allowed. -/
def owning (own : Nat → Prop) (first : Machine) (allowed : Interrupt → Prop) : Kinship Unit where
  Sound _ m m' := m = m' ∧ Effects own first m ∧ ∀ i, m.scopes.all.size ≤ i → own i
  Values _ := Eq
  Views _ := Eq
  Opened _ s s' := s = s' ∧ own s
  Binds _ s s' _ := s = s' ∧ own s
  Exprs := Eq
  Stmts _ s s' t t' := t = t' ∧ s = s' ∧ (own s ∨ t.ownsScope = true)
  Bodies _ s s' t t' := t = t' ∧ s = s' ∧ (own s ∨ t.ownsScope = true)
  Stops i i' := i = i' ∧ allowed i

namespace owning

variable {first : Machine} {allowed : Interrupt → Prop}

theorem basics (h : ∀ i, Interrupt.Ordinary i → allowed i) : (owning own first allowed).Basics where
  values_mono _ := id
  views_mono _ := id
  opened_mono _ := id
  binds_mono _ := id
  stmts_mono _ := id
  stmts_views h := h.2.1
  opened_binds h _ := h
  scalar := rfl
  twin := by
    rintro w v _ ⟨⟩
    exact .same v
  noFuel := ⟨rfl, h _ trivial⟩
  raised := by
    rintro t _ cause rfl hcause
    exact ⟨rfl, h _ (Interrupt.Ordinary.atNode (e := { cause }) hcause t)⟩

theorem sameTrees (h : ∀ i, Interrupt.Ordinary i → allowed i) :
    (owning own first allowed).SameTrees (fun _ => True)
      fun _ s s' t => s = s' ∧ (own s ∨ t.ownsScope = true) where
  exprs := ⟨fun h => ⟨h, trivial⟩, And.left⟩
  stmts := Iff.rfl
  bodies := Iff.rfl
  nodes := rfl
  names := trivial
  faults := ⟨rfl, h _ trivial⟩
  data := rfl
  part _ _ := trivial
  item _ _ _ := trivial
  init _ _ := trivial
  target _ _ := trivial
  expr _ := trivial
  branch := by
    rintro w s s' t u ⟨hs, hown⟩ hu
    refine ⟨hs, .inl (hown.resolve_right fun h => ?_)⟩
    cases hu with
    | consequent | alternate | whileBody | doBody => cases h
    | item hlist =>
      unfold Tree.items? at hlist
      split at hlist
      · cases h
      · cases h
      · cases hlist
  opened h _ := ⟨h.1, .inl h.2⟩
  introduces := by
    rintro w s s' t name ⟨hs, hown⟩ hname
    refine ⟨hs, hown.resolve_right fun h => ?_⟩
    cases hname <;> cases h
  function := by
    rintro w s _ start stop w' n _ name id params body ⟨rfl, -⟩ - rfl
    rfl

theorem lawful (h : ∀ i, Interrupt.Ordinary i → allowed i) : (owning own first allowed).Lawful := by
  refine (sameTrees h).lawful (basics h) ?_
  rintro w f _ ⟨⟩
  exact
    { scope := rfl
      params := (sameTrees h).items fun _ _ _ _ => (sameTrees h).named fun _ _ => trivial
      body := fun _ hs => (sameTrees h).need fun _ _ => ⟨rfl, hs.1, .inl hs.2⟩ }

theorem steady (h : ∀ i, Interrupt.Ordinary i → allowed i) : (owning own first allowed).Steady where
  others := by
    rintro w m _ ⟨rfl, -⟩
    exact ⟨m.scopes, rfl⟩
  aside := by
    rintro f w m _ hf ⟨rfl, hm, hown⟩
    cases hf with
    | write text => exact ⟨rfl, hm.tail (.write m text), hown⟩
    | readLine => exact ⟨rfl, hm.tail (.readLine m), hown⟩
    | readClock => exact ⟨rfl, hm.tail (.readClock m), hown⟩
    | record message => exact ⟨rfl, hm.tail (.record m message), hown⟩
    | depth change => exact ⟨rfl, hm.tail (.depth m _), hown⟩
  push := by
    rintro w m _ s _ ⟨rfl, hm, hown⟩ rfl
    have hstep : Effect own m _ := .openScope m s
    refine ⟨w, le_rfl, ⟨rfl, hown _ (Nat.le_refl _)⟩, rfl, hm.tail hstep, fun i hi => ?_⟩
    exact hown i (Nat.le_trans hstep.size_le hi)
  define := by
    rintro w m _ s _ name key v _ ⟨rfl, hm, hown⟩ ⟨rfl, hs⟩ - rfl
    have hstep := Effect.define hs m key v
    exact ⟨rfl, hm.tail hstep, fun i hi => hown i (Nat.le_trans hstep.size_le hi)⟩
  get := by
    rintro w m _ s _ ⟨rfl, -⟩ rfl key
    cases m.scopes.get? s key with
    | none => exact .none
    | some v => exact .some rfl
  assign := by
    rintro w m _ s _ name key v _ ⟨rfl, hm, hown⟩ rfl - - rfl
    cases hfind : m.scopes.find? s key with
    | none => exact .none
    | some found =>
      have hstep : Effect own m _ := .assign hfind v
      exact .some ⟨rfl, hm.tail hstep, fun i hi => hown i (Nat.le_trans hstep.size_le hi)⟩
  number := by
    rintro w m _ ⟨rfl, hm, hown⟩
    exact ⟨w, le_rfl, rfl, rfl, hm.tail (.number m _), hown⟩
  unnamed _ _ := ⟨rfl, h _ trivial⟩

theorem calls : (owning own first fun _ => True).Calls where
  toSteady := steady fun _ _ => trivial
  tooDeep := by
    rintro t _ limit rfl
    exact ⟨rfl, trivial⟩
  called := by
    rintro t _ i _ rfl ⟨rfl, -⟩
    exact ⟨rfl, trivial⟩
  out := False.elim

end owning

/-! ## Computations -/

variable {α β : Type}

/-- The computation does nothing but these changes, if all scopes still to be opened are its own. -/
def Affects (own : Nat → Prop) (x : Eval α) : Prop :=
  ∀ m : Machine, (∀ i, m.scopes.all.size ≤ i → own i) → Effects own m (x.left m)

/-- A rule may be applied by a computation that owns some scopes. -/
def Job.Owned (own : Nat → Prop) : Job → Prop
  | .evaluate .. | .call .. => True
  | .executeAll s t | .execute s t => own s ∨ t.ownsScope = true

namespace Affects

/-- What belongs together with itself does nothing but these changes. -/
theorem of_ends {m : Machine} {stops : Interrupt → Interrupt → Prop} {R : Unit → α → α → Prop}
    {r : EStateM.Result Interrupt Machine α}
    (h : (owning own m fun _ => True).Ends stops R () r r) : Effects own m (Eval.machineOf r) := by
  cases h with
  | ok _ hn => exact hn.2.1
  | error _ hn => exact hn.2.1
  | outLeft h => exact h.elim
  | outRight h => exact h.elim

theorem job (cfg : Config) (room : Nat) (job : Job) (h : job.Owned own) :
    Affects own (job.run cfg room) := by
  intro m hm
  have hall : ∀ i, Interrupt.Ordinary i → True := fun _ _ => trivial
  have hfits : (owning own m fun _ => True).Fits () job job := by
    cases job with
    | evaluate s t => exact .evaluate rfl rfl
    | call t f args => exact .call rfl rfl (List.forall₂_same.2 fun _ _ => rfl)
    | executeAll s t => exact .executeAll ⟨rfl, rfl, h⟩
    | execute s t => exact .execute ⟨rfl, rfl, h⟩
  have hruns : (owning own m fun _ => True).Runs cfg room room :=
    (owning.sameTrees hall).runs (owning.lawful hall) owning.calls ⟨rfl, trivial⟩ cfg room
  exact of_ends (hruns ⟨rfl, .refl, hm⟩ hfits)

theorem pure (a : α) : Affects own (pure a : Eval α) :=
  fun _ _ => .refl

theorem throw (i : Interrupt) : Affects own (throw i : Eval α) :=
  fun _ _ => .refl

variable {x : Eval α}

theorem talks {traces : Prop} {throws : Interrupt → Prop} {wanted : α → Prop}
    (h : x.Talks traces throws wanted) : Affects own x :=
  fun _ hm => of_ends ((owning.steady fun _ _ => trivial).talks h ⟨rfl, .refl, hm⟩)

theorem quiet (h : x.Quiet) : Affects own x :=
  talks (.quiet h : x.Talks True _ _)

theorem bind {f : α → Eval β} (h : Affects own x) (hf : ∀ a, Affects own (f a)) :
    Affects own (x >>= f) := by
  intro m hm
  have hleft := h m hm
  unfold Eval.left
  cases hr : x m with
  | ok a m' =>
    rw [Eval.left_of_ok hr] at hleft
    have hm' : ∀ i, m'.scopes.all.size ≤ i → own i :=
      fun i hi => hm i (Nat.le_trans hleft.size_le hi)
    rw [Eval.bind_of_ok hr]
    exact hleft.trans (hf a m' hm')
  | error i m' =>
    rw [Eval.left_of_error hr] at hleft
    rw [Eval.bind_of_error hr]
    exact hleft

theorem deeper (t : Tree) (h : Affects own x) : Affects own (Eval.deeper t x) := by
  intro m hm
  have hinner := h { m with callDepth := m.callDepth + 1 } hm
  have hleft : (Eval.deeper t x).left m =
      { x.left { m with callDepth := m.callDepth + 1 } with
        callDepth := (x.left { m with callDepth := m.callDepth + 1 }).callDepth - 1 } := by
    simp only [Eval.left, Eval.deeper]
    cases hr : x { m with callDepth := m.callDepth + 1 } <;> rfl
  rw [hleft]
  exact ((Effect.depth m _).effects.trans hinner).tail (.depth _ _)

theorem ite {p : Prop} [Decidable p] {y : Eval α} (hx : Affects own x) (hy : Affects own y) :
    Affects own (if p then x else y) := by
  split
  · exact hx
  · exact hy

theorem get : Affects own (get : Eval Machine) :=
  fun _ _ => .refl

theorem debug (cfg : Config) (topic : Topic) (text : Unit → String) :
    Affects own (Eval.debug cfg topic text) :=
  talks (.debug trivial cfg topic text : Eval.Talks True (fun _ => True) _ _)

end Affects

end Scriptlet
