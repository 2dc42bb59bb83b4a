import Scriptlet.Proofs.ScopeFrames

/-!
Timelines: all that happens in a run, moment by moment. A rule begins, enters its plan if it has room and
its checks pass, accesses the machine or waits for other rules, leaves its plan and ends. Each moment
holds the machine of that moment, so the moments of a run show every state that it goes through, those
before an error included.

A contract says in a world what a machine looks like, what rules and accesses may be applied to and what
they give. Worlds grow along a run. If every single access and every plan keeps to a contract, then so
do the moments of all runs, with a world for each that grows from one to the next (`Keeps.timeline`).
-/

namespace Scriptlet

variable {α β : Type}

/-! ## What leaves the store alone -/

/-- Two machines have the same scopes, and the next function gets the same number. -/
structure Machine.SameStore (m m' : Machine) : Prop where
  scopes : m'.scopes = m.scopes
  number : m'.nextClosure = m.nextClosure

/-- What talks leaves the store and the depth of calls alone. -/
theorem Eval.Talks.left_alone {traces : Prop} {throws : Interrupt → Prop} {wanted : α → Prop}
    {x : Eval α} (h : x.Talks traces throws wanted) (m : Machine) :
    m.SameStore (x.left m) ∧ (x.left m).callDepth = m.callDepth := by
  induction h generalizing m with
  | pure | throw | write | readLine | readClock => exact ⟨⟨rfl, rfl⟩, rfl⟩
  | debug =>
    unfold Eval.left Eval.debug
    split <;> exact ⟨⟨rfl, rfl⟩, rfl⟩
  | depth _ ih => exact ih m.callDepth m
  | @bind _ _ _ _ x f hx _ ihx ihf =>
    obtain ⟨hstore, hdepth⟩ := ihx m
    cases hr : x m with
    | error i m' =>
      rw [Eval.left_of_error hr] at hstore hdepth
      rw [Eval.left_of_error (Eval.bind_of_error hr)]
      exact ⟨hstore, hdepth⟩
    | ok a m' =>
      rw [Eval.left_of_ok hr] at hstore hdepth
      obtain ⟨hstore', hdepth'⟩ := ihf a (hx.gives hr) m'
      rw [Eval.left_bind_of_ok hr]
      exact ⟨⟨hstore'.scopes.trans hstore.scopes, hstore'.number.trans hstore.number⟩,
        hdepth'.trans hdepth⟩

/-! ## Moments -/

inductive Moment where
  | begins (job : Job) (m : Machine)
  /-- The rule has room, and its checks are passed. -/
  | enters (job : Job) (m : Machine)
  | does (access : Access) (m : Machine) (r : EStateM.Result Interrupt Machine access.Result)
  | leaves (job : Job) (m : Machine)
  | ends (job : Job) (r : EStateM.Result Interrupt Machine job.Result)
  /-- No program is run. -/
  | rests (m : Machine)

/-- The machine at a moment; before it is accessed where it is. -/
def Moment.machine : Moment → Machine
  | .begins _ m | .enters _ m | .does _ m _ | .leaves _ m | .rests m => m
  | .ends _ r => Eval.machineOf r

/-- The moments of a plan, where those of a rule are given. -/
def Plan.timeline (cfg : Config) (room : Nat) (moments : Job → Machine → List Moment) :
    Plan α → Machine → List Moment
  | .give _, _ | .stop _, _ => []
  | .ask job next, m =>
    moments job m ++
      match job.run cfg room m with
      | .ok r m' => (next r).timeline cfg room moments m'
      | .error _ _ => []
  | .act access next, m =>
    .does access m (access.run cfg m) ::
      match access.run cfg m with
      | .ok r m' => (next r).timeline cfg room moments m'
      | .error _ _ => []

def Job.timeline (cfg : Config) : Nat → Job → Machine → List Moment
  | 0, job, m => [.begins job m, .ends job (job.run cfg 0 m)]
  | room + 1, job, m =>
    .begins job m ::
      (match job.enter cfg m with
        | none => []
        | some inside =>
          .enters job inside ::
            ((job.plan cfg).timeline cfg room (timeline cfg room) inside ++
              [.leaves job (((job.plan cfg).run cfg room).left inside)])) ++
      [.ends job (job.run cfg (room + 1) m)]

/-- The moments of the run of a program. -/
def Machine.timeline (m : Machine) (cfg : Config) (t : Tree) (s : Nat) : List Moment :=
  match t.body? with
  | none => []
  | some body => (Job.executeAll s body).timeline cfg cfg.room m

/-- A run leaves the machine that the statements of the program leave, with the file of messages
closed. -/
theorem Machine.run_executeAll (m : Machine) (cfg : Config) (t : Tree) (s : Nat) :
    (m.run cfg t s).2 = Machine.endTrace (match t.body? with
      | none => m
      | some body => (Eval.executeAll cfg cfg.room s body).left m) := by
  rw [Machine.run_left, Eval.left_program]
  cases t.body? with
  | none => rfl
  | some body => rfl

/-- Programs are run on a machine one after the other, each in a scope that exists by then, whatever the
outcome of those before. -/
inductive Session : Machine → List Moment → Machine → Prop
  | start (m : Machine) : Session m [.rests m] m
  | run {m m' : Machine} {moments : List Moment} (before : Session m moments m') (cfg : Config)
      (t : Tree) {s : Nat} (hs : s < m'.scopes.all.size) :
      Session m (moments ++ (m'.timeline cfg t s ++ [.rests (m'.run cfg t s).2])) (m'.run cfg t s).2

/-! ## Contracts -/

structure Contract (W : Type) where
  /-- What a machine looks like. -/
  Sound : W → Machine → Prop
  /-- What a rule may be applied to. -/
  Fits : W → Job → Prop
  Yields : W → (job : Job) → job.Result → Prop
  /-- What an access may be. -/
  Allows : W → Access → Prop
  Brings : W → (access : Access) → access.Result → Prop

namespace Contract

variable {W : Type} {C : Contract W} {cfg : Config}

/-- How a computation ends. -/
def Lands (C : Contract W) (w : W) (wanted : W → α → Prop) :
    EStateM.Result Interrupt Machine α → Prop
  | .ok a m => C.Sound w m ∧ wanted w a
  | .error _ m => C.Sound w m

theorem Lands.sound {w : W} {wanted : W → α → Prop} {r : EStateM.Result Interrupt Machine α}
    (h : C.Lands w wanted r) : C.Sound w (Eval.machineOf r) := by
  cases r with
  | ok a m => exact h.1
  | error i m => exact h

variable [Preorder W]

/-- A plan asks for what fits and does what is allowed, in whatever worlds it gets its answers, and gives
what is wanted. -/
def Follows (C : Contract W) (wanted : W → α → Prop) : Plan α → W → Prop
  | .give a, w => wanted w a
  | .stop _, _ => True
  | .ask job next, w =>
    C.Fits w job ∧ ∀ w' r, w ≤ w' → C.Yields w' job r → Follows C wanted (next r) w'
  | .act access next, w =>
    C.Allows w access ∧ ∀ w' r, w ≤ w' → C.Brings w' access r → Follows C wanted (next r) w'

/-- The rules and the accesses keep to a contract. -/
structure Keeps (C : Contract W) (cfg : Config) : Prop where
  /-- Only the store matters. -/
  store {w : W} {m m' : Machine} (hstore : m.SameStore m') (h : C.Sound w m) : C.Sound w m'
  access {w : W} {m : Machine} (access : Access) (h : C.Sound w m) (ha : C.Allows w access) :
    ∃ w', w ≤ w' ∧ C.Lands w' (C.Brings · access) (access.run cfg m)
  job {w : W} (job : Job) (h : C.Fits w job) : C.Follows (C.Yields · job) (job.plan cfg) w

/-- What a contract says of a moment. -/
def Holds (C : Contract W) (w : W) : Moment → Prop
  | .begins job m | .enters job m => C.Sound w m ∧ C.Fits w job
  | .does access m r =>
    C.Sound w m ∧ C.Allows w access ∧ (∃ cfg, r = access.run cfg m) ∧
      ∃ w', w ≤ w' ∧ C.Lands w' (C.Brings · access) r
  | .leaves _ m | .rests m => C.Sound w m
  | .ends job r => C.Lands w (C.Yields · job) r

/-- A contract holds of moments in turn, in worlds that grow from the first given to the second. -/
inductive Along (C : Contract W) : W → List Moment → W → Prop
  | nil {w w' : W} (h : w ≤ w') : Along C w [] w'
  | cons {w w₁ w' : W} {x : Moment} {rest : List Moment} (h : w ≤ w₁) (hx : C.Holds w₁ x)
      (hrest : Along C w₁ rest w') : Along C w (x :: rest) w'

variable {w w' w₁ : W} {x : Moment}

theorem Along.le {moments : List Moment} (h : C.Along w moments w') : w ≤ w' := by
  induction h with
  | nil h => exact h
  | cons h _ _ ih => exact h.trans ih

theorem Along.weaken {moments : List Moment} (hle : w ≤ w₁) (h : C.Along w₁ moments w') :
    C.Along w moments w' := by
  cases h with
  | nil h => exact .nil (hle.trans h)
  | cons h hx hrest => exact .cons (hle.trans h) hx hrest

theorem Along.append {xs ys : List Moment} (hx : C.Along w xs w₁) (hy : C.Along w₁ ys w') :
    C.Along w (xs ++ ys) w' := by
  induction hx with
  | nil h => exact hy.weaken h
  | cons h hx _ ih => exact .cons h hx (ih hy)

theorem Along.single (hle : w ≤ w') (h : C.Holds w' x) : C.Along w [x] w' :=
  .cons hle h (.nil le_rfl)

/-- Each moment has its world. -/
theorem Along.holds {moments : List Moment} (h : C.Along w moments w') (hx : x ∈ moments) :
    ∃ v, w ≤ v ∧ C.Holds v x := by
  induction h with
  | nil => cases hx
  | @cons w w₁ _ first rest hle hfirst _ ih =>
    rcases List.mem_cons.1 hx with rfl | hx
    · exact ⟨w₁, hle, hfirst⟩
    · obtain ⟨v, hv, hholds⟩ := ih hx
      exact ⟨v, hle.trans hv, hholds⟩

/-- A later moment has a world that is at least as large. -/
theorem Along.pairwise {moments : List Moment} (h : C.Along w moments w') :
    moments.Pairwise fun x y => ∃ v v', v ≤ v' ∧ C.Holds v x ∧ C.Holds v' y := by
  induction h with
  | nil => exact .nil
  | @cons w w₁ _ x rest hle hx hrest ih =>
    refine .cons (fun y hy => ?_) ih
    obtain ⟨v, hv, hholds⟩ := hrest.holds hy
    exact ⟨w₁, v, hv, hx, hholds⟩

theorem Holds.sound (h : C.Holds w x) : C.Sound w x.machine := by
  cases x with
  | begins | enters | does => exact h.1
  | leaves | rests => exact h
  | ends job r =>
    have hlands : C.Lands w (C.Yields · job) r := h
    exact hlands.sound

/-! ### Plans -/

namespace Follows

variable {wanted : W → α → Prop} {wanted' : W → β → Prop} {w : W}

theorem act {access : Access} (h : C.Allows w access) :
    C.Follows (C.Brings · access) (.act access .give) w :=
  ⟨h, fun _ _ _ hr => hr⟩

end Follows

/-! ### Timelines -/

theorem enter_sameStore {job : Job} {m inside : Machine} (h : job.enter cfg m = some inside) :
    m.SameStore inside := by
  cases job with
  | evaluate | executeAll | execute =>
    cases h
    exact ⟨rfl, rfl⟩
  | call t f args =>
    have hcheck := ((Eval.Talks.checkCall cfg t f args).left_alone m).1
    cases hr : Eval.checkCall cfg t f args m with
    | error i m' => simp only [Job.enter, hr, reduceCtorEq] at h
    | ok _ m' =>
      simp only [Job.enter, hr, Option.some.injEq] at h
      rw [Eval.left_of_ok hr] at hcheck
      subst h
      exact ⟨hcheck.scopes, hcheck.number⟩

namespace Keeps

variable (hC : C.Keeps cfg) {w : W} {m : Machine}
include hC

/-- Around its plan a rule changes nothing that matters, and it gives what its plan gives. -/
theorem around {room : Nat} {job : Job} {inside : Machine} (henter : job.enter cfg m = some inside)
    (h : C.Lands w (C.Yields · job) ((job.plan cfg).run cfg room inside)) :
    C.Lands w (C.Yields · job) (job.run cfg (room + 1) m) := by
  rw [Job.run_succ]
  cases job with
  | evaluate | executeAll | execute =>
    cases henter
    exact h
  | call t f args =>
    cases hr : Eval.checkCall cfg t f args m with
    | error i m' => simp only [Job.enter, hr, reduceCtorEq] at henter
    | ok _ m' =>
      simp only [Job.enter, hr, Option.some.injEq] at henter
      show C.Lands w _ ((Eval.checkCall cfg t f args >>= fun _ => Eval.deeper t _) m)
      rw [Eval.bind_of_ok hr]
      unfold Eval.deeper
      rw [henter]
      revert h
      cases ((Job.call t f args).plan cfg).run cfg room inside with
      | ok v m'' => exact fun h => ⟨hC.store (m := m'') ⟨rfl, rfl⟩ h.1, h.2⟩
      | error i m'' => exact fun h => hC.store (m := m'') ⟨rfl, rfl⟩ h

/-- Where its checks fail, a rule gives nothing and changes nothing that matters. -/
theorem turned_away (room : Nat) {job : Job} (henter : job.enter cfg m = none)
    (h : C.Sound w m) : C.Lands w (C.Yields · job) (job.run cfg (room + 1) m) := by
  cases job with
  | evaluate | executeAll | execute => cases henter
  | call t f args =>
    have hcheck := ((Eval.Talks.checkCall cfg t f args).left_alone m).1
    rw [Job.run_succ]
    cases hr : Eval.checkCall cfg t f args m with
    | ok _ m' => simp only [Job.enter, hr, reduceCtorEq] at henter
    | error i m' =>
      rw [Eval.left_of_error hr] at hcheck
      show C.Lands w _ ((Eval.checkCall cfg t f args >>= fun _ => Eval.deeper t _) m)
      rw [Eval.bind_of_error hr]
      exact hC.store hcheck h

/-- What a plan does, if the rules in the room it is carried out in keep to the contract. -/
theorem plan {room : Nat} {moments : Job → Machine → List Moment}
    (hjobs : ∀ job w m, C.Sound w m → C.Fits w job →
      ∃ w', C.Along w (moments job m) w' ∧ C.Lands w' (C.Yields · job) (job.run cfg room m))
    {wanted : W → α → Prop} {plan : Plan α} (hplan : C.Follows wanted plan w) (hm : C.Sound w m) :
    ∃ w', C.Along w (plan.timeline cfg room moments m) w' ∧
      C.Lands w' wanted (plan.run cfg room m) := by
  induction plan generalizing w m with
  | give a => exact ⟨w, .nil le_rfl, hm, hplan⟩
  | stop i => exact ⟨w, .nil le_rfl, hm⟩
  | ask job next ih =>
    obtain ⟨w₁, halong, hlands⟩ := hjobs job w m hm hplan.1
    simp only [Plan.timeline, Plan.run]
    cases hr : job.run cfg room m with
    | error i m' =>
      rw [hr] at hlands
      rw [Eval.bind_of_error hr]
      exact ⟨w₁, halong.append (.nil le_rfl), hlands⟩
    | ok r m' =>
      rw [hr] at hlands
      rw [Eval.bind_of_ok hr]
      obtain ⟨w₂, hrest, hend⟩ := ih r (hplan.2 w₁ r halong.le hlands.2) hlands.1
      exact ⟨w₂, halong.append hrest, hend⟩
  | act access next ih =>
    obtain ⟨w₁, hle, hlands⟩ := hC.access access hm hplan.1
    have hdoes : C.Holds w (.does access m (access.run cfg m)) :=
      ⟨hm, hplan.1, ⟨cfg, rfl⟩, w₁, hle, hlands⟩
    simp only [Plan.timeline, Plan.run]
    cases hr : access.run cfg m with
    | error i m' =>
      rw [hr] at hlands hdoes
      rw [Eval.bind_of_error hr]
      exact ⟨w₁, .cons le_rfl hdoes (.nil hle), hlands⟩
    | ok r m' =>
      rw [hr] at hlands hdoes
      rw [Eval.bind_of_ok hr]
      obtain ⟨w₂, hrest, hend⟩ := ih r (hplan.2 w₁ r hle hlands.2) hlands.1
      exact ⟨w₂, .cons le_rfl hdoes (hrest.weaken hle), hend⟩

/-- The moments of a rule keep to a contract that the rules keep to, and so does the end. -/
theorem timeline (room : Nat) (job : Job) (hm : C.Sound w m) (hfits : C.Fits w job) :
    ∃ w', C.Along w (job.timeline cfg room m) w' ∧
      C.Lands w' (C.Yields · job) (job.run cfg room m) := by
  induction room generalizing job w m with
  | zero =>
    have hlands : C.Lands w (C.Yields · job) (job.run cfg 0 m) := by
      rw [Job.run_zero]
      exact hm
    exact ⟨w, .cons le_rfl ⟨hm, hfits⟩ (.single le_rfl hlands), hlands⟩
  | succ room ih =>
    unfold Job.timeline
    cases henter : job.enter cfg m with
    | none =>
      have hlands := hC.turned_away room henter hm
      exact ⟨w, .cons le_rfl ⟨hm, hfits⟩ (.single le_rfl hlands), hlands⟩
    | some inside =>
      have hinside := hC.store (enter_sameStore henter) hm
      obtain ⟨w', halong, hplan⟩ :=
        hC.plan (fun job w m hm hfits => ih job hm hfits) (hC.job job hfits) hinside
      have hlands := hC.around henter hplan
      have hleaves : C.Holds w' (.leaves job (((job.plan cfg).run cfg room).left inside)) :=
        hplan.sound
      refine ⟨w', .cons le_rfl ⟨hm, hfits⟩ (.append ?_ (.single le_rfl hlands)), hlands⟩
      exact .cons le_rfl ⟨hinside, hfits⟩ (halong.append (.single le_rfl hleaves))

/-- The moments of the run of a program, and the machine that it leaves. -/
theorem run {t : Tree} {s : Nat} (hm : C.Sound w m)
    (hfits : ∀ body, t.body? = some body → C.Fits w (.executeAll s body)) :
    ∃ w', C.Along w (m.timeline cfg t s ++ [.rests (m.run cfg t s).2]) w' ∧
      C.Sound w' (m.run cfg t s).2 := by
  rw [Machine.run_executeAll]
  unfold Machine.timeline
  cases hbody : t.body? with
  | none =>
    have hend : C.Sound w m.endTrace := hC.store (m := m) ⟨rfl, rfl⟩ hm
    exact ⟨w, .single le_rfl hend, hend⟩
  | some body =>
    obtain ⟨w', halong, hlands⟩ := hC.timeline cfg.room _ hm (hfits body hbody)
    have hend : C.Sound w' ((Eval.executeAll cfg cfg.room s body).left m).endTrace :=
      hC.store (m := (Eval.executeAll cfg cfg.room s body).left m) ⟨rfl, rfl⟩ hlands.sound
    exact ⟨w', halong.append (.single le_rfl hend), hend⟩

end Keeps

end Contract

end Scriptlet
