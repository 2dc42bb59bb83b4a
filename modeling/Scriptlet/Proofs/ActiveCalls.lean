import Scriptlet.Proofs.OrdinaryErrors
import Scriptlet.Proofs.Timelines

/-!
Calls that are under way. A call is under way from the moment when its function is entered, after the
checks, to the moment when the function is left, whether it gives a value or fails. The machine keeps no
list of these calls, only a depth, which is raised and lowered in one place; recursion, arguments that are
calls themselves and errors from any depth have to leave it right for the runs that follow.

`underWay` reads the list off the moments of a session, and at every moment the depth is its length. So
the limit is on the number of calls under way: a function is entered below the limit, and the error of too
deep nesting is raised by a call that passes the other checks with that many calls under way, and by
nothing else.
-/

namespace Scriptlet

variable {α β : Type}

/-! ## The depth is kept -/

/-- The computation leaves the depth of calls as it finds it, with a result or interrupted. -/
def Eval.KeepsDepth (x : Eval α) : Prop :=
  ∀ m, (x.left m).callDepth = m.callDepth

namespace Eval.KeepsDepth

theorem pure (a : α) : (pure a : Eval α).KeepsDepth :=
  fun _ => rfl

theorem throw (i : Interrupt) : (throw i : Eval α).KeepsDepth :=
  fun _ => rfl

variable {x : Eval α} {f : α → Eval β}

theorem bind (h : x.KeepsDepth) (hf : ∀ a, (f a).KeepsDepth) : (x >>= f).KeepsDepth := by
  intro m
  rw [← h m]
  cases hr : x m with
  | error i m' => rw [Eval.left_of_error hr, Eval.left_of_error (Eval.bind_of_error hr)]
  | ok a m' =>
    rw [Eval.left_of_ok hr, Eval.left_bind_of_ok hr]
    exact hf a m'

theorem located (t : Tree) (h : x.KeepsDepth) : (located t x).KeepsDepth := by
  intro m
  rw [← h m]
  unfold Eval.left Eval.located
  cases x m with
  | ok a m' => rfl
  | error i m' => cases i <;> rfl

theorem get : (get : Eval Machine).KeepsDepth :=
  fun _ => rfl

theorem talks {traces : Prop} {throws : Interrupt → Prop} {wanted : α → Prop}
    (h : x.Talks traces throws wanted) : x.KeepsDepth :=
  fun m => (h.left_alone m).2

theorem nameOf (t : Tree) : (nameOf t).KeepsDepth :=
  talks (.quiet (.nameOf t) : Talks True _ _ _)

theorem lookup (s : Nat) (name : Tree) : (lookup s name).KeepsDepth := by
  apply (nameOf name).bind
  intro key
  apply get.bind
  intro m
  split
  · exact pure _
  · exact throw _

theorem assign (s : Nat) (name : Tree) (value : Value) : (assign s name value).KeepsDepth := by
  apply (nameOf name).bind
  intro key
  apply get.bind
  intro m
  split
  · exact fun _ => rfl
  · exact throw _

theorem access (cfg : Config) (access : Access) : (access.run cfg).KeepsDepth := by
  cases access with
  | openScope | number => exact fun _ => rfl
  | define s name value => exact (nameOf name).bind fun _ _ => rfl
  | lookup t s name => exact located t (lookup s name)
  | assign t s name value => exact located t (assign s name value)
  | native f args => exact talks (.native cfg f args)
  | debug topic text => exact talks (.debug trivial cfg topic fun _ => text : Talks True (fun _ => True) _ _)

end Eval.KeepsDepth

/-! ## The checks before a call -/

/-- The value is a function that takes as many arguments as there are. -/
def Value.Accepts (args : List Value) : Value → Prop
  | .native f => ∀ n, f.arity? = some n → args.length = n
  | .closure f => ∃ params, f.params.items? = some params ∧ args.length = params.length
  | .scalar _ | .data _ => False

/-- How the checks come out. -/
inductive Checked (limit : Option Int) (t : Tree) (f : Value) (args : List Value) (m : Machine) :
    EStateM.Result Interrupt Machine Unit → Prop
  | passed {m' : Machine} (hf : f.Accepts args) (hbelow : ∀ n, limit = some n → m.callDepth < n)
      (hdepth : m'.callDepth = m.callDepth) : Checked limit t f args m (.ok () m')
  | tooDeep {n : Int} (hf : f.Accepts args) (hlimit : limit = some n) (hn : n ≤ m.callDepth) :
      Checked limit t f args m
        (.error (.error (RuntimeError.atNode { cause := .callDepth n } t)) m)
  | rejected {i : Interrupt} (hf : ¬ f.Accepts args) (hi : i.Ordinary) :
      Checked limit t f args m (.error i m)

variable {cfg : Config} {t : Tree} {f : Value} {args : List Value} {m : Machine}

/-- The depth is checked last. -/
theorem Checked.checkDepth (hf : f.Accepts args) (name : String) :
    Checked cfg.maxCallDepth t f args m (Eval.checkDepth cfg t name args m) := by
  have hdebug : ∀ text, ∃ m', Eval.debug cfg .call text m = .ok () m' ∧
      m'.callDepth = m.callDepth := by
    intro text
    unfold Eval.debug
    split
    · exact ⟨_, rfl, rfl⟩
    · exact ⟨m, rfl, rfl⟩
  obtain ⟨m', hm', hdepth⟩ := hdebug fun _ =>
    "call " ++ name ++ "(" ++ ", ".intercalate (args.map Value.shown) ++ ")"
  unfold Eval.checkDepth
  cases hlimit : cfg.maxCallDepth with
  | none =>
    dsimp only
    rw [hm']
    exact .passed hf (by simp) hdepth
  | some n =>
    dsimp only
    rw [Eval.depthCheck_eq, hm']
    by_cases hn : n ≤ m.callDepth
    · rw [if_pos hn]
      exact .tooDeep hf rfl hn
    · rw [if_neg hn]
      refine .passed hf ?_ hdepth
      rintro _ ⟨⟩
      omega

/-- A function that tells its name and how many arguments it takes. -/
theorem Checked.of_signature {name : String} {arity : Option Nat}
    (hsignature : Eval.signature t f = pure (name, arity))
    (haccepts : f.Accepts args ↔ ∀ n, arity = some n → args.length = n) :
    Checked cfg.maxCallDepth t f args m (Eval.checkCall cfg t f args m) := by
  unfold Eval.checkCall
  rw [hsignature, pure_bind]
  cases arity with
  | none => exact Checked.checkDepth (haccepts.2 (by simp)) name
  | some expected =>
    by_cases hlength : args.length = expected
    · simp only [hlength, ne_eq, not_true_eq_false, if_false]
      exact Checked.checkDepth (haccepts.2 (by simpa using hlength)) name
    · simp only [hlength, ne_eq, not_false_eq_true, if_true]
      apply Checked.rejected
      · simpa [haccepts] using hlength
      · exact Interrupt.Ordinary.atNode (e := { cause := .wrongCount name expected args.length }) trivial t

theorem Checked.checkCall (cfg : Config) (t : Tree) (f : Value) (args : List Value) (m : Machine) :
    Checked cfg.maxCallDepth t f args m (Eval.checkCall cfg t f args m) := by
  have hother : ∀ v : Value, (Interrupt.error
      (RuntimeError.atNode { cause := .notCallable v.typeName } t)).Ordinary := fun v =>
    Interrupt.Ordinary.atNode (e := { cause := .notCallable v.typeName }) trivial t
  cases f with
  | scalar s => exact .rejected id (hother _)
  | data u => exact .rejected id (hother _)
  | native f => exact .of_signature rfl Iff.rfl
  | closure f =>
    have hsignature : Eval.signature t (.closure f) = do
        return (f.name.display, some (← Eval.items f.params).length) := rfl
    cases hitems : f.params.items? with
    | none =>
      have hfault : Eval.items f.params = Eval.fault .wrongKind := by
        unfold Eval.items
        rw [hitems]
      unfold Eval.checkCall
      rw [hsignature, hfault]
      exact .rejected (by simp [Value.Accepts, hitems]) trivial
    | some params =>
      have hpure : Eval.items f.params = pure params := by
        unfold Eval.items
        rw [hitems]
      rw [hpure, pure_bind] at hsignature
      exact .of_signature hsignature (by simp [Value.Accepts, hitems])

theorem Checked.depth_eq {limit : Option Int} {r : EStateM.Result Interrupt Machine Unit}
    (h : Checked limit t f args m r) : (Eval.machineOf r).callDepth = m.callDepth := by
  cases h with
  | passed _ _ hdepth => exact hdepth
  | tooDeep | rejected => rfl

/-! ## Rules -/

/-- Within a call the depth is raised by one and afterwards lowered by one. -/
theorem Eval.KeepsDepth.deeper (t : Tree) {x : Eval α} (h : x.KeepsDepth) :
    (Eval.deeper t x).KeepsDepth := by
  intro m
  have hm := h { m with callDepth := m.callDepth + 1 }
  unfold Eval.left at hm ⊢
  unfold Eval.deeper
  cases hr : x { m with callDepth := m.callDepth + 1 } with
  | ok _ m' | error _ m' =>
    rw [hr] at hm
    show m'.callDepth - 1 = m.callDepth
    rw [show m'.callDepth = m.callDepth + 1 from hm, Nat.add_sub_cancel]

theorem Plan.keepsDepth {room : Nat} (hjobs : ∀ job : Job, (job.run cfg room).KeepsDepth)
    (plan : Plan α) : (plan.run cfg room).KeepsDepth := by
  induction plan with
  | give a => exact .pure a
  | stop i => exact .throw i
  | ask job next ih => exact (hjobs job).bind ih
  | act access next ih => exact (Eval.KeepsDepth.access cfg access).bind ih

/-- Every rule leaves the depth as it finds it, whatever its outcome. -/
theorem Job.keepsDepth (cfg : Config) (room : Nat) (job : Job) : (job.run cfg room).KeepsDepth := by
  induction room generalizing job with
  | zero =>
    intro m
    rw [Eval.left_of_error (job.run_zero cfg m)]
  | succ room ih =>
    rw [Job.run_succ]
    have hplan := (job.plan cfg).keepsDepth ih
    cases job with
    | evaluate | executeAll | execute => exact hplan
    | call t f args =>
      exact Eval.KeepsDepth.bind (fun m => (Checked.checkCall cfg t f args m).depth_eq)
        fun _ => hplan.deeper t

theorem Machine.run_callDepth (m : Machine) (cfg : Config) (t : Tree) (s : Nat) :
    (m.run cfg t s).2.callDepth = m.callDepth := by
  rw [Machine.run_executeAll]
  cases t.body? with
  | none => rfl
  | some body => exact (Job.executeAll s body).keepsDepth cfg cfg.room m

/-! ## Calls under way -/

namespace Moment

/-- The calls under way at a moment, where those before it are given. A call is one of them from the
moment when its function is entered. -/
def during (calls : List Job) : Moment → List Job
  | .enters (.call t f args) _ => .call t f args :: calls
  | _ => calls

/-- The calls under way after a moment. When its function is left, a call is over. -/
def after (calls : List Job) : Moment → List Job
  | .enters (.call t f args) _ => .call t f args :: calls
  | .leaves (.call ..) _ => calls.tail
  | _ => calls

end Moment

/-- The calls under way after some moments, the innermost first. -/
def underWay (calls : List Job) (moments : List Moment) : List Job :=
  moments.foldl Moment.after calls

@[simp]
theorem underWay_append (calls : List Job) (xs ys : List Moment) :
    underWay calls (xs ++ ys) = underWay (underWay calls xs) ys :=
  List.foldl_append

/-- What becomes of a call on a machine, where a number of calls are under way, by the moment that
follows its beginning. -/
inductive Decided (limit : Option Int) (active : Nat) (t : Tree) (f : Value) (args : List Value)
    (m : Machine) : Moment → Prop
  | entered {inside : Machine} (hf : f.Accepts args) (hbelow : ∀ n, limit = some n → active < n)
      (hdepth : inside.callDepth = active + 1) :
      Decided limit active t f args m (.enters (.call t f args) inside)
  | tooDeep {n : Int} (hf : f.Accepts args) (hlimit : limit = some n) (hn : n ≤ active) :
      Decided limit active t f args m (.ends (.call t f args)
        (.error (.error (RuntimeError.atNode { cause := .callDepth n } t)) m))
  | rejected {i : Interrupt} (hf : ¬ f.Accepts args) (hi : i.Ordinary) :
      Decided limit active t f args m (.ends (.call t f args) (.error i m))
  /-- Evaluation nests too deeply even to make the checks. -/
  | noRoom : Decided limit active t f args m (.ends (.call t f args) (.error .noRoom m))

/-- What is true of a moment, where the calls under way before it and the moment behind it are given. -/
structure Moment.Counted (limit : Option Int) (calls : List Job) (next : Option Moment)
    (x : Moment) : Prop where
  /-- The depth is the number of calls under way. -/
  depth : x.machine.callDepth = (x.during calls).length
  /-- A function is entered below the limit. -/
  enters (t : Tree) (f : Value) (args : List Value) (m : Machine)
    (h : x = .enters (.call t f args) m) :
    f.Accepts args ∧ ∀ n, limit = some n → calls.length < n
  /-- The function that is left is the one that was entered last. -/
  leaves (t : Tree) (f : Value) (args : List Value) (m : Machine)
    (h : x = .leaves (.call t f args) m) : calls.head? = some (.call t f args)
  begins (t : Tree) (f : Value) (args : List Value) (m : Machine)
    (h : x = .begins (.call t f args) m) :
    ∃ y, next = some y ∧ Decided limit calls.length t f args m y

/-- Moments that are counted, from the calls under way before them. -/
def Counts (limit : Option Int) : List Job → List Moment → Prop
  | _, [] => True
  | calls, x :: rest => x.Counted limit calls rest.head? ∧ Counts limit (x.after calls) rest

variable {limit : Option Int} {calls : List Job}

theorem Counts.append {xs ys : List Moment} (hx : Counts limit calls xs)
    (hy : Counts limit (underWay calls xs) ys) : Counts limit calls (xs ++ ys) := by
  induction xs generalizing calls with
  | nil => exact hy
  | cons x rest ih =>
    refine ⟨?_, ih hx.2 hy⟩
    cases rest with
    | cons y rest => exact hx.1
    | nil =>
      -- The last of the moments has none behind it, so it is not the beginning of a call.
      refine { hx.1 with begins := ?_ }
      intro t f args m h
      obtain ⟨y, hnone, -⟩ := hx.1.begins t f args m h
      cases hnone

/-- Each moment is counted with the calls that are under way after the moments before it. -/
theorem Counts.split {before rest : List Moment} {x : Moment}
    (h : Counts limit calls (before ++ x :: rest)) :
    x.Counted limit (underWay calls before) rest.head? := by
  induction before generalizing calls with
  | nil => exact h.1
  | cons y before ih => exact ih h.2

/-! ## The moments of rules -/

namespace Job

variable {job : Job} {room : Nat} {inside : Machine}

theorem timeline_of_enter (h : job.enter cfg m = some inside) :
    job.timeline cfg (room + 1) m = .begins job m :: .enters job inside ::
      ((job.plan cfg).timeline cfg room (timeline cfg room) inside ++
        [.leaves job (((job.plan cfg).run cfg room).left inside), .ends job (job.run cfg (room + 1) m)]) := by
  unfold Job.timeline
  rw [h]
  simp only [List.cons_append, List.append_assoc, List.nil_append]

theorem timeline_of_none (h : job.enter cfg m = none) :
    job.timeline cfg (room + 1) m = [.begins job m, .ends job (job.run cfg (room + 1) m)] := by
  unfold Job.timeline
  rw [h]
  rfl

theorem timeline_zero : job.timeline cfg 0 m = [.begins job m, .ends job (.error .noRoom m)] := by
  unfold Job.timeline
  rw [Job.run_zero]

/-- A call is not entered if the checks fail, and then their error is the outcome. -/
theorem call_of_error {i : Interrupt} {m' : Machine} (room : Nat)
    (h : Eval.checkCall cfg t f args m = .error i m') :
    (Job.call t f args).enter cfg m = none ∧ (Job.call t f args).run cfg (room + 1) m = .error i m' := by
  constructor
  · simp only [Job.enter, h]
  · rw [Job.run_succ]
    exact Eval.bind_of_error h

theorem call_of_ok {m' : Machine} (h : Eval.checkCall cfg t f args m = .ok () m') :
    (Job.call t f args).enter cfg m = some { m' with callDepth := m'.callDepth + 1 } := by
  simp only [Job.enter, h]

end Job

/-- Moments that are counted and leave as many calls under way as there were. -/
structure Balances (limit : Option Int) (calls : List Job) (moments : List Moment) : Prop where
  counts : Counts limit calls moments
  underWay_eq : underWay calls moments = calls

/-- The moment is about a call that begins, is entered or is left. -/
def Moment.ofCall : Moment → Bool
  | .begins (.call ..) _ | .enters (.call ..) _ | .leaves (.call ..) _ => true
  | _ => false

namespace Balances

variable {xs ys rest : List Moment}

theorem nil : Balances limit calls [] :=
  ⟨trivial, rfl⟩

theorem append (hx : Balances limit calls xs) (hy : Balances limit calls ys) :
    Balances limit calls (xs ++ ys) where
  counts := hx.counts.append (hx.underWay_eq.symm ▸ hy.counts)
  underWay_eq := by rw [underWay_append, hx.underWay_eq, hy.underWay_eq]

/-- Between the beginnings and ends of calls only the depth has to be right. -/
theorem still {x : Moment} (hx : x.ofCall = false) (hdepth : x.machine.callDepth = calls.length)
    (hrest : Balances limit calls rest) : Balances limit calls (x :: rest) := by
  have hduring : x.during calls = calls := by
    unfold Moment.during
    split
    · cases hx
    · rfl
  have hafter : x.after calls = calls := by
    unfold Moment.after
    split
    · cases hx
    · cases hx
    · rfl
  have hcounted : x.Counted limit calls rest.head? := by
    refine ⟨hduring.symm ▸ hdepth, ?_, ?_, ?_⟩ <;>
    · rintro t f args m rfl
      cases hx
  exact ⟨⟨hcounted, hafter.symm ▸ hrest.counts⟩, (congrArg (underWay · rest) hafter).trans hrest.underWay_eq⟩

/-- The moments of a plan, if those of the rules that it asks for are counted. -/
theorem plan {room : Nat} {moments : Job → Machine → List Moment}
    (hjobs : ∀ job m, m.callDepth = calls.length → Balances limit calls (moments job m))
    (plan : Plan α) (hm : m.callDepth = calls.length) :
    Balances limit calls (plan.timeline cfg room moments m) := by
  induction plan generalizing m with
  | give a => exact nil
  | stop i => exact nil
  | ask job next ih =>
    have hkeeps := job.keepsDepth cfg room m
    rw [Plan.timeline]
    refine (hjobs job m hm).append ?_
    cases hr : job.run cfg room m with
    | error i m' => exact nil
    | ok r m' =>
      rw [Eval.left_of_ok hr, hm] at hkeeps
      exact ih r hkeeps
  | act access next ih =>
    have hkeeps := Eval.KeepsDepth.access cfg access m
    rw [Plan.timeline]
    refine still rfl hm ?_
    cases hr : access.run cfg m with
    | error i m' => exact nil
    | ok r m' =>
      rw [Eval.left_of_ok hr, hm] at hkeeps
      exact ih r hkeeps

/-- A call that is not entered. -/
theorem turned_away {r : EStateM.Result Interrupt Machine Value} (hm : m.callDepth = calls.length)
    (hr : (Eval.machineOf r).callDepth = calls.length)
    (hdecided : Decided limit calls.length t f args m (.ends (.call t f args) r)) :
    Balances limit calls [.begins (.call t f args) m, .ends (.call t f args) r] := by
  have hends : Balances limit calls [.ends (.call t f args) r] := still rfl hr nil
  have hbegins : Moment.Counted limit calls (some (.ends (.call t f args) r))
      (.begins (.call t f args) m) := by
    refine ⟨hm, ?_, ?_, ?_⟩ <;> rintro _ _ _ _ ⟨⟩
    exact ⟨_, rfl, hdecided⟩
  exact ⟨⟨hbegins, hends.counts⟩, hends.underWay_eq⟩

/-- A call that is entered is one of the calls under way until it is left. -/
theorem entered {inside left : Machine} (hm : m.callDepth = calls.length) (hf : f.Accepts args)
    (hbelow : ∀ n, limit = some n → m.callDepth < n) (hinside : inside.callDepth = calls.length + 1)
    (hleft : left.callDepth = calls.length + 1)
    (hwithin : Balances limit (.call t f args :: calls) xs) (hrest : Balances limit calls rest) :
    Balances limit calls (.begins (.call t f args) m :: .enters (.call t f args) inside ::
      (xs ++ .leaves (.call t f args) left :: rest)) := by
  rw [hm] at hbelow
  have hbegins : Moment.Counted limit calls (some (.enters (.call t f args) inside))
      (.begins (.call t f args) m) := by
    refine ⟨hm, ?_, ?_, ?_⟩ <;> rintro _ _ _ _ ⟨⟩
    exact ⟨_, rfl, .entered hf hbelow hinside⟩
  have henters : ∀ next, Moment.Counted limit calls next (.enters (.call t f args) inside) := by
    intro next
    refine ⟨hinside, ?_, ?_, ?_⟩ <;> rintro _ _ _ _ ⟨⟩
    exact ⟨hf, hbelow⟩
  have hleaves : ∀ next, Moment.Counted limit (.call t f args :: calls) next
      (.leaves (.call t f args) left) := by
    intro next
    refine ⟨hleft, ?_, ?_, ?_⟩ <;> rintro _ _ _ _ ⟨⟩
    rfl
  constructor
  · have hend : Counts limit (underWay (.call t f args :: calls) xs)
        (.leaves (.call t f args) left :: rest) := by
      rw [hwithin.underWay_eq]
      exact ⟨hleaves _, hrest.counts⟩
    exact ⟨hbegins, henters _, hwithin.counts.append hend⟩
  · show underWay (.call t f args :: calls) (xs ++ .leaves (.call t f args) left :: rest) = calls
    rw [underWay_append, hwithin.underWay_eq]
    exact hrest.underWay_eq

end Balances

/-- All moments of a rule are counted. -/
theorem Job.balances (cfg : Config) (room : Nat) (job : Job) (hm : m.callDepth = calls.length) :
    Balances cfg.maxCallDepth calls (job.timeline cfg room m) := by
  induction room generalizing job m calls with
  | zero =>
    rw [Job.timeline_zero]
    cases job with
    | call t f args => exact .turned_away hm hm .noRoom
    | evaluate | executeAll | execute => exact .still rfl hm (.still rfl hm .nil)
  | succ room ih =>
    have hends := (job.keepsDepth cfg (room + 1) m).trans hm
    have hplan : ∀ {calls : List Job} {inside : Machine}, inside.callDepth = calls.length →
        (((job.plan cfg).run cfg room).left inside).callDepth = calls.length ∧
          Balances cfg.maxCallDepth calls
            ((job.plan cfg).timeline cfg room (Job.timeline cfg room) inside) := by
      intro calls inside hinside
      exact ⟨((job.plan cfg).keepsDepth (Job.keepsDepth cfg room) inside).trans hinside,
        .plan (fun job m hm => ih job hm) _ hinside⟩
    cases job with
    | evaluate | executeAll | execute =>
      obtain ⟨hleft, hwithin⟩ := hplan hm
      rw [Job.timeline_of_enter rfl]
      exact .still rfl hm (.still rfl hm (hwithin.append (.still rfl hleft (.still rfl hends .nil))))
    | call t f args =>
      have hchecked := Checked.checkCall cfg t f args m
      cases hr : Eval.checkCall cfg t f args m with
      | error i m' =>
        obtain ⟨henter, hrun⟩ := Job.call_of_error room hr
        rw [Job.timeline_of_none henter, hrun]
        rw [hr] at hchecked
        cases hchecked with
        | tooDeep hf hlimit hn => exact .turned_away hm hm (.tooDeep hf hlimit (hm ▸ hn))
        | rejected hf hi => exact .turned_away hm hm (.rejected hf hi)
      | ok _ m' =>
        rw [Job.timeline_of_enter (Job.call_of_ok hr)]
        rw [hr] at hchecked
        cases hchecked with
        | passed hf hbelow hdepth =>
          have hinside : Machine.callDepth { m' with callDepth := m'.callDepth + 1 } =
              (Job.call t f args :: calls).length := by
            rw [List.length_cons, ← hm, ← hdepth]
          obtain ⟨hleft, hwithin⟩ := hplan hinside
          exact .entered hm hf hbelow hinside hleft hwithin (.still rfl hends .nil)

/-! ## Calls that are nested too deeply -/

section Errors

variable {room : Nat} {inside m' : Machine} {e : RuntimeError} {n : Int}

/-- An error within a rule is an error of the rule, with the same cause. -/
theorem Job.error_of_plan {job : Job} (henter : job.enter cfg m = some inside)
    (hr : (job.plan cfg).run cfg room inside = .error (.error e) m') :
    ∃ e' left, job.run cfg (room + 1) m = .error (.error e') left ∧ e'.cause = e.cause := by
  rw [Job.run_succ]
  cases job with
  | evaluate | executeAll | execute =>
    cases henter
    exact ⟨e, m', hr, rfl⟩
  | call t f args =>
    cases hcheck : Eval.checkCall cfg t f args m with
    | error i checked => simp [Job.enter, hcheck] at henter
    | ok _ checked =>
      rw [Job.call_of_ok hcheck, Option.some.injEq] at henter
      simp only [Job.around]
      rw [Eval.bind_of_ok hcheck]
      unfold Eval.deeper
      rw [henter, hr]
      exact ⟨_, _, rfl, RuntimeError.atNode_cause e t⟩

/-- An error of a rule that passed its checks is an error within the rule, unless it is that there was no
room within a call. -/
theorem Job.plan_of_error {job : Job} (henter : job.enter cfg m = some inside)
    (hr : job.run cfg (room + 1) m = .error (.error e) m') (he : e.cause ≠ .callRoom) :
    ∃ e' left, (job.plan cfg).run cfg room inside = .error (.error e') left ∧ e'.cause = e.cause := by
  rw [Job.run_succ] at hr
  cases job with
  | evaluate | executeAll | execute =>
    cases henter
    exact ⟨e, m', hr, rfl⟩
  | call t f args =>
    cases hcheck : Eval.checkCall cfg t f args m with
    | error i checked => simp [Job.enter, hcheck] at henter
    | ok _ checked =>
      rw [Job.call_of_ok hcheck, Option.some.injEq] at henter
      simp only [Job.around] at hr
      rw [Eval.bind_of_ok hcheck] at hr
      unfold Eval.deeper at hr
      rw [henter] at hr
      cases hplan : ((Job.call t f args).plan cfg).run cfg room inside with
      | ok a left =>
        rw [hplan] at hr
        cases hr
      | error i left =>
        rw [hplan] at hr
        cases i with
        | error e' =>
          cases hr
          exact ⟨e', left, rfl, (RuntimeError.atNode_cause e' t).symm⟩
        | noRoom =>
          cases hr
          simp at he
        | fault | noFuel => cases hr

/-- Among the moments a call fails at once, with the error that as many calls as the limit allows are
under way. -/
def Refuses (n : Int) (moments : List Moment) : Prop :=
  ∃ (t : Tree) (f : Value) (args : List Value) (m : Machine) (e : RuntimeError),
    [.begins (.call t f args) m, .ends (.call t f args) (.error (.error e) m)] <:+: moments ∧
      e.cause = .callDepth n

theorem Refuses.of_infix {xs ys : List Moment} (h : Refuses n xs) (hle : xs <:+: ys) : Refuses n ys := by
  obtain ⟨t, f, args, m, e, hwithin, he⟩ := h
  exact ⟨t, f, args, m, e, hwithin.trans hle, he⟩

/-- In a plan an error that is not ordinary comes from one of the rules that are asked for. -/
theorem Plan.refuses {moments : Job → Machine → List Moment}
    (hjobs : ∀ job m e m', Job.run cfg room job m = .error (.error e) m' → ¬ e.cause.Ordinary →
      ∃ n, e.cause = .callDepth n ∧ Refuses n (moments job m))
    {plan : Plan α} (hfails : plan.Fails) (h : plan.run cfg room m = .error (.error e) m')
    (he : ¬ e.cause.Ordinary) :
    ∃ n, e.cause = .callDepth n ∧ Refuses n (plan.timeline cfg room moments m) := by
  induction plan generalizing m with
  | give a => cases h
  | stop i =>
    cases h
    exact absurd hfails he
  | ask job next ih =>
    rw [Plan.timeline]
    rw [Plan.run] at h
    cases hr : job.run cfg room m with
    | error i left =>
      rw [Eval.bind_of_error hr] at h
      cases h
      obtain ⟨n, hn, hrefuses⟩ := hjobs job m e m' hr he
      exact ⟨n, hn, hrefuses.of_infix (List.prefix_append _ _).isInfix⟩
    | ok r left =>
      rw [Eval.bind_of_ok hr] at h
      obtain ⟨n, hn, hrefuses⟩ := ih r (hfails r) h
      exact ⟨n, hn, hrefuses.of_infix (List.suffix_append _ _).isInfix⟩
  | act access next ih =>
    rw [Plan.timeline]
    rw [Plan.run] at h
    cases hr : access.run cfg m with
    | error i left =>
      rw [Eval.bind_of_error hr] at h
      cases h
      exact absurd (Access.ordinary_of_error hr) he
    | ok r left =>
      rw [Eval.bind_of_ok hr] at h
      obtain ⟨n, hn, hrefuses⟩ := ih r (hfails r) h
      exact ⟨n, hn, hrefuses.of_infix (List.suffix_cons _ _).isInfix⟩

/-- A rule that ends with an error that is not ordinary has had a call refused. -/
theorem Job.refuses (room : Nat) (job : Job) (h : job.run cfg room m = .error (.error e) m')
    (he : ¬ e.cause.Ordinary) :
    ∃ n, e.cause = .callDepth n ∧ Refuses n (job.timeline cfg room m) := by
  induction room generalizing job m e m' with
  | zero =>
    rw [Job.run_zero] at h
    cases h
  | succ room ih =>
    cases henter : job.enter cfg m with
    | some inside =>
      have hroom : e.cause ≠ .callRoom := by
        intro hroom
        simp [hroom, Cause.Ordinary] at he
      obtain ⟨e', left, hr, he'⟩ := Job.plan_of_error henter h hroom
      rw [← he'] at he
      obtain ⟨n, hn, hrefuses⟩ :=
        Plan.refuses (fun job _ _ _ h he => ih job h he) (.job cfg job) hr he
      rw [Job.timeline_of_enter henter]
      exact ⟨n, he'.symm.trans hn, hrefuses.of_infix ⟨[.begins job m, .enters job inside], _, rfl⟩⟩
    | none =>
      cases job with
      | evaluate | executeAll | execute => cases henter
      | call t f args =>
        have hchecked := Checked.checkCall cfg t f args m
        rw [Job.timeline_of_none henter, h]
        cases hcheck : Eval.checkCall cfg t f args m with
        | ok _ checked =>
          rw [Job.call_of_ok hcheck] at henter
          cases henter
        | error i checked =>
          rw [(Job.call_of_error room hcheck).2] at h
          cases h
          rw [hcheck] at hchecked
          cases hchecked with
          | @tooDeep n =>
            have hcause := RuntimeError.atNode_cause { cause := .callDepth n } t
            exact ⟨n, hcause, t, f, args, m, _, List.infix_rfl, hcause⟩
          | rejected _ hi => exact absurd hi he

/-- Where a rule that a plan asks for ends with an error, so does the plan. -/
theorem Plan.error_of_ends {moments : Job → Machine → List Moment} {inner : Job}
    (hjobs : ∀ job m, Moment.ends inner (.error (.error e) m') ∈ moments job m →
      ∃ e' left, Job.run cfg room job m = .error (.error e') left ∧ e'.cause = e.cause)
    {plan : Plan α}
    (h : Moment.ends inner (.error (.error e) m') ∈ plan.timeline cfg room moments m) :
    ∃ e' left, plan.run cfg room m = .error (.error e') left ∧ e'.cause = e.cause := by
  induction plan generalizing m with
  | give | stop => cases h
  | ask job next ih =>
    rw [Plan.timeline, List.mem_append] at h
    rw [Plan.run]
    rcases h with h | h
    · obtain ⟨e', left, hr, he'⟩ := hjobs job m h
      exact ⟨e', left, Eval.bind_of_error hr, he'⟩
    · cases hr : job.run cfg room m with
      | error i left =>
        rw [hr] at h
        cases h
      | ok r left =>
        rw [hr] at h
        rw [Eval.bind_of_ok hr]
        exact ih r h
  | act access next ih =>
    rw [Plan.timeline, List.mem_cons] at h
    rw [Plan.run]
    rcases h with h | h
    · cases h
    · cases hr : access.run cfg m with
      | error i left =>
        rw [hr] at h
        cases h
      | ok r left =>
        rw [hr] at h
        rw [Eval.bind_of_ok hr]
        exact ih r h

/-- Nothing holds an error up: where a rule ends with one, so does every rule around it. -/
theorem Job.error_of_ends (room : Nat) (job : Job) {inner : Job}
    (h : Moment.ends inner (.error (.error e) m') ∈ job.timeline cfg room m) :
    ∃ e' left, job.run cfg room m = .error (.error e') left ∧ e'.cause = e.cause := by
  induction room generalizing job m with
  | zero =>
    rw [Job.timeline_zero] at h
    simp only [List.mem_cons, List.not_mem_nil, or_false, reduceCtorEq, false_or] at h
    cases h
  | succ room ih =>
    have hself : Moment.ends inner (.error (.error e) m') = .ends job (job.run cfg (room + 1) m) →
        ∃ e' left, job.run cfg (room + 1) m = .error (.error e') left ∧ e'.cause = e.cause := by
      generalize job.run cfg (room + 1) m = r
      rintro ⟨⟩
      exact ⟨e, m', rfl, rfl⟩
    cases henter : job.enter cfg m with
    | none =>
      rw [Job.timeline_of_none henter] at h
      simp only [List.mem_cons, List.not_mem_nil, or_false, reduceCtorEq, false_or] at h
      exact hself h
    | some inside =>
      rw [Job.timeline_of_enter henter] at h
      simp only [List.mem_cons, List.mem_append, List.not_mem_nil, or_false, reduceCtorEq,
        false_or] at h
      rcases h with h | h
      · obtain ⟨e', left, hr, he'⟩ := Plan.error_of_ends (fun job _ h => ih job h) h
        obtain ⟨e'', left', hr', he''⟩ := Job.error_of_plan henter hr
        exact ⟨e'', left', hr', he''.trans he'⟩
      · exact hself h

/-- The statements that a program consists of. -/
theorem Eval.executeAll_body {body : Tree} (hbody : t.body? = some body) (cfg : Config) (s : Nat) :
    (do Eval.executeAll cfg cfg.room s (← Eval.need t.body?)) =
      Eval.executeAll cfg cfg.room s body := by
  rw [hbody]
  rfl

theorem Machine.run_of_body_none (hbody : t.body? = none) (m : Machine) (cfg : Config) (s : Nat) :
    m.run cfg t s = (.stopped (.fault .missingPart), m.endTrace) := by
  unfold Machine.run Eval.program
  rw [hbody]
  rfl

theorem Eval.raiseAt_apply {α : Type} (t : Tree) (cause : Cause) (m : Machine) :
    (Eval.raiseAt t cause : Eval α) m = .error (.error (RuntimeError.atNode { cause } t)) m :=
  rfl

/-- A run stops with the error if the statements of the program do. -/
theorem Machine.exceedsDepth_iff {body : Tree} (hbody : t.body? = some body) (m : Machine) (s : Nat) :
    (m.run cfg t s).1.ExceedsDepth n ↔ ∃ e m', Eval.executeAll cfg cfg.room s body m =
      .error (.error e) m' ∧ e.cause = .callDepth n := by
  unfold Machine.run Eval.program
  rw [Eval.executeAll_body hbody]
  cases hr : Eval.executeAll cfg cfg.room s body m with
  | ok done m' =>
    cases done with
    | normal => simp [Outcome.ExceedsDepth]
    | returned v statement =>
      simp [Outcome.ExceedsDepth, Eval.raiseAt_apply]
  | error i m' =>
    cases i with
    | error e => simp [Outcome.ExceedsDepth]
    | fault | noFuel => simp [Outcome.ExceedsDepth]
    | noRoom =>
      simp [Outcome.ExceedsDepth, Eval.raiseAt_apply]

/-- A run stops with the error if a call fails with it. -/
theorem Machine.exceedsDepth_iff_refuses (m : Machine) (cfg : Config) (t : Tree) (s : Nat) (n : Int) :
    (m.run cfg t s).1.ExceedsDepth n ↔ Refuses n (m.timeline cfg t s) := by
  unfold Machine.timeline
  cases hbody : t.body? with
  | none =>
    rw [Machine.run_of_body_none hbody]
    constructor
    · rintro ⟨⟩
    · rintro ⟨_, _, _, _, _, hwithin, -⟩
      cases List.eq_nil_of_infix_nil hwithin
  | some body =>
    rw [Machine.exceedsDepth_iff hbody]
    constructor
    · rintro ⟨e, m', hr, he⟩
      obtain ⟨n', hn', hrefuses⟩ := (Job.executeAll s body).refuses cfg.room hr (by
        simp [he, Cause.Ordinary])
      cases he.symm.trans hn'
      exact hrefuses
    · rintro ⟨t, f, args, m', e, hwithin, he⟩
      obtain ⟨e', left, hr, he'⟩ := (Job.executeAll s body).error_of_ends cfg.room
        (hwithin.subset (List.mem_cons_of_mem _ (List.mem_singleton_self _)))
      exact ⟨e', left, hr, he'.trans he⟩

end Errors

/-! ## Sessions -/

/-- The moments of programs that are run on a machine one after the other, each in a scope, whatever
the outcome of those before. -/
def Machine.moments (cfg : Config) : List (Tree × Nat) → Machine → List Moment
  | [], m => [.rests m]
  | (t, s) :: rest, m => .rests m :: (m.timeline cfg t s ++ moments cfg rest (m.run cfg t s).2)

theorem Machine.balances_timeline (cfg : Config) (t : Tree) (s : Nat) (hm : m.callDepth = calls.length) :
    Balances cfg.maxCallDepth calls (m.timeline cfg t s) := by
  unfold Machine.timeline
  cases t.body? with
  | none => exact .nil
  | some body => exact (Job.executeAll s body).balances cfg cfg.room hm

theorem Machine.balances_moments (cfg : Config) (programs : List (Tree × Nat))
    (hm : m.callDepth = calls.length) :
    Balances cfg.maxCallDepth calls (m.moments cfg programs) := by
  induction programs generalizing m with
  | nil => exact .still rfl hm .nil
  | cons program rest ih =>
    obtain ⟨t, s⟩ := program
    rw [Machine.moments]
    exact .still rfl hm ((m.balances_timeline cfg t s hm).append
      (ih ((m.run_callDepth cfg t s).trans hm)))

/-- The depth of calls is the number of calls under way, at every moment of every session. The limit is
one on that number, and it is what the error of too deep nesting is about. -/
theorem callDepth_eq_underWay (m : Machine) (hm : m.callDepth = 0) (cfg : Config)
    (programs : List (Tree × Nat)) :
    (∀ before x rest, m.moments cfg programs = before ++ x :: rest →
      x.Counted cfg.maxCallDepth (underWay [] before) rest.head?) ∧
    (∀ (m : Machine) (t : Tree) (s : Nat) (n : Int),
      (m.run cfg t s).1.ExceedsDepth n ↔ Refuses n (m.timeline cfg t s)) ∧
    (∀ (m : Machine) (room : Nat) (t : Tree) (f : Value) (args : List Value),
      ((Eval.call cfg room t f args).left m).callDepth = m.callDepth) ∧
    ∀ (m : Machine) (t : Tree) (s : Nat), (m.run cfg t s).2.callDepth = m.callDepth := by
  have hbalances : Balances cfg.maxCallDepth [] (m.moments cfg programs) :=
    m.balances_moments cfg programs hm
  refine ⟨?_, ?_, ?_, ?_⟩
  · intro before x rest hmoments
    have hcounts := hbalances.counts
    rw [hmoments] at hcounts
    exact hcounts.split
  · intro m t s n
    exact m.exceedsDepth_iff_refuses cfg t s n
  · intro m room t f args
    exact (Job.call t f args).keepsDepth cfg room m
  · intro m t s
    exact m.run_callDepth cfg t s

/-- The recursion is run twice to a depth of two calls. Each time the third call is refused, and no call
stays under way. -/
theorem callDepth_eq_underWay_recursion :
    (Machine.initial "").callDepth = 0 ∧
      (∀ before x rest, (Machine.initial "").moments { maxCallDepth := some 2, fuel := 1 }
          [(recursion.toTree, 0), (recursion.toTree, 0)] = before ++ x :: rest →
        x.Counted (some 2) (underWay [] before) rest.head?) ∧
      Refuses 2 ((Machine.initial "").timeline { maxCallDepth := some 2, fuel := 1 }
        recursion.toTree 0) ∧
      ((Machine.initial "").run { maxCallDepth := some 2, fuel := 1 } recursion.toTree 0).2.callDepth =
        0 := by
  obtain ⟨hcounted, hexceeds, -, hrun⟩ := callDepth_eq_underWay (.initial "") rfl
    { maxCallDepth := some 2, fuel := 1 } [(recursion.toTree, 0), (recursion.toTree, 0)]
  exact ⟨rfl, hcounted, (hexceeds _ _ _ _).1 (by decide +kernel), hrun _ _ _⟩

end Scriptlet
