import Scriptlet.Proofs.ActiveCalls

/-!
Where `return` goes. A `return` statement ends with a signal, and the signal is a result like any other:
each rule around the statement gets it from the rule within and has to pass it on, and a call has to take
it. What a plan does with signals is seen from the plan (`Plan.Forwards`): it makes none of its own, and
those that it gives it got from a statement of the tree that it is for, as the last thing it asked for.

So a signal that reaches the end of a program comes from a `return` that stands in no function
declaration, and from the time when its argument was evaluated nothing happens but that rules are left
(`returnOutside_origin`).
-/

namespace Scriptlet

mutual

/-- The `return` statements of a tree that stand outside of the bodies of all function declarations. -/
def Tree.openReturns : Tree → List Tree
  | .node .functionDeclaration _ _ [name, params, _] => name.openReturns ++ params.openReturns
  | .node .returnStatement start stop fields =>
    .node .returnStatement start stop fields :: openReturnsAll fields
  | .node _ _ _ fields => openReturnsAll fields
  | .list items => openReturnsAll items
  | .scalar _ | .nan _ | .foreign _ => []

def Tree.openReturnsAll : List Tree → List Tree
  | [] => []
  | t :: rest => t.openReturns ++ openReturnsAll rest

end

/-! ## Plans that pass signals on -/

/-- The `return` statements that a rule can get a signal from. -/
def Job.openReturns : Job → List Tree
  | .executeAll _ t | .execute _ t => t.openReturns
  | .evaluate .. | .call .. => []

/-- Values are no signals. -/
def Job.completion : (job : Job) → job.Result → Completion
  | .executeAll .., done | .execute .., done => done
  | .evaluate .., _ | .call .., _ => .normal

variable {α β : Type}

/-- A plan gives a signal only if it gets it from a rule, and then at once. The `return` statements that
the rule can get it from are among those listed. -/
def Plan.Forwards (completion : α → Completion) (statements : List Tree) : Plan α → Prop
  | .give a => completion a = .normal
  | .stop _ => True
  | .ask job next => ∀ r, Forwards completion statements (next r) ∨
      job.openReturns ⊆ statements ∧ ∃ a, next r = .give a ∧ completion a = job.completion r
  | .act _ next => ∀ r, Forwards completion statements (next r)

namespace Plan.Forwards

variable {completion : α → Completion} {completion' : β → Completion} {statements : List Tree}

theorem bind {plan : Plan α} {f : α → Plan β} (h : plan.Forwards completion statements)
    (hnormal : ∀ a, completion a = .normal → (f a).Forwards completion' statements)
    (hreturned : ∀ a, (f a).Forwards completion' statements ∨
      ∃ b, f a = .give b ∧ completion' b = completion a) :
    (plan >>= f).Forwards completion' statements := by
  induction plan with
  | give a => exact hnormal a h
  | stop i => trivial
  | ask job next ih =>
    intro r
    rcases h r with hr | ⟨hjob, a, hnext, ha⟩
    · exact .inl (ih r hr)
    · have hbind : (next r).bind f = f a := by
        rw [hnext]
        rfl
      simp only [hbind]
      rcases hreturned a with hf | ⟨b, hb, hsame⟩
      · exact .inl hf
      · exact .inr ⟨hjob, b, hb, hsame.trans ha⟩
  | act access next ih =>
    intro r
    exact ih r (h r)

/-- A plan for something that is no signal. -/
theorem silent (plan : Plan α) : plan.Forwards (fun _ => .normal) statements := by
  induction plan with
  | give a => rfl
  | stop i => trivial
  | ask job next ih => exact fun r => .inl (ih r)
  | act access next ih => exact ih

/-- What comes before has nothing to do with signals. -/
theorem silent_bind (plan : Plan α) {f : α → Plan β}
    (hf : ∀ a, (f a).Forwards completion' statements) :
    (plan >>= f).Forwards completion' statements :=
  (silent plan).bind (fun a _ => hf a) fun a => .inl (hf a)

theorem execute (s : Nat) {t : Tree} (h : t.openReturns ⊆ statements) :
    (Plan.execute s t).Forwards id statements := by
  intro done
  exact .inr ⟨h, done, rfl, rfl⟩

theorem executeAll (s : Nat) {body : Tree} (h : body.openReturns ⊆ statements) :
    (Plan.executeAll s body).Forwards id statements := by
  intro done
  exact .inr ⟨h, done, rfl, rfl⟩

/-- A signal ends a loop. -/
theorem iterate {once : Plan (Option α)} (n : Nat)
    (h : once.Forwards (·.elim .normal completion) statements) :
    (Plan.iterate once n).Forwards completion statements := by
  induction n with
  | zero => trivial
  | succ n ih =>
    refine h.bind ?_ ?_
    · intro r hr
      cases r with
      | none => exact ih
      | some a => exact hr
    · intro r
      cases r with
      | none => exact .inl ih
      | some a => exact .inr ⟨a, rfl, rfl⟩

theorem runAll (s : Nat) {list : List Tree} (h : Tree.openReturnsAll list ⊆ statements) :
    (Plan.runAll s list).Forwards id statements := by
  induction list with
  | nil => rfl
  | cons t rest ih =>
    rw [Tree.openReturnsAll, List.append_subset] at h
    refine (execute s h.1).bind ?_ ?_
    · rintro done rfl
      exact ih h.2
    · intro done
      cases done with
      | normal => exact .inl (ih h.2)
      | returned => exact .inr ⟨_, rfl, rfl⟩

theorem executingAll (s : Nat) (body : Tree) :
    (Plan.executingAll s body).Forwards id body.openReturns := by
  unfold Plan.executingAll Plan.quiet Eval.items
  cases hitems : body.items? with
  | none => trivial
  | some list =>
    refine runAll s ?_
    cases body with
    | list items =>
      cases hitems
      exact List.Subset.refl _
    | scalar c =>
      -- A text is gone through character by character, and these are no statements.
      cases c with
      | text string =>
        cases hitems
        have hnone : ∀ cs : List Char,
            Tree.openReturnsAll (cs.map fun c => .text c.toString) = [] := by
          intro cs
          induction cs with
          | nil => rfl
          | cons c cs ih => simpa [Tree.openReturnsAll, Tree.openReturns] using ih
        rw [hnone]
        exact List.nil_subset _
      | null | bool | number => cases hitems
    | node | nan | foreign => cases hitems

/-- The last clause of a `for` loop only evaluates. -/
theorem forUpdate (s : Nat) (update : Tree) :
    Forwards (·.elim .normal id) statements (match update with
      | .null => return none
      | update => do
        let _ ← Plan.evaluate s update
        return none) := by
  split
  · rfl
  · exact silent_bind _ fun _ => rfl

section Rounds

variable (s : Nat) {body : Tree} (hbody : body.openReturns ⊆ statements)
include hbody

theorem whileRound (test : Tree) :
    (Plan.whileRound s test body).Forwards (·.elim .normal id) statements := by
  refine silent_bind _ fun v => ?_
  split
  · refine (execute s hbody).bind ?_ ?_
    · rintro done rfl
      rfl
    · intro done
      cases done with
      | normal => exact .inl rfl
      | returned => exact .inr ⟨_, rfl, rfl⟩
  · rfl

theorem doRound (test : Tree) :
    (Plan.doRound s body test).Forwards (·.elim .normal id) statements := by
  have htest : Forwards (·.elim .normal id) statements (do
      if (← Plan.evaluate s test).isTruthy then return none else return some .normal) := by
    refine silent_bind _ fun v => ?_
    split <;> rfl
  refine (execute s hbody).bind ?_ ?_
  · rintro done rfl
    exact htest
  · intro done
    cases done with
    | normal => exact .inl htest
    | returned => exact .inr ⟨_, rfl, rfl⟩

theorem forRound (test update : Tree) :
    (Plan.forRound s test update body).Forwards (·.elim .normal id) statements := by
  refine silent_bind _ fun go => ?_
  unfold Plan.forBody
  split
  · refine (execute s hbody).bind ?_ ?_
    · rintro done rfl
      exact forUpdate s update
    · intro done
      cases done with
      | normal => exact .inl (forUpdate s update)
      | returned => exact .inr ⟨_, rfl, rfl⟩
  · rfl

end Rounds

/-- All statements but `return` pass signals on. -/
theorem executing (fuel s : Nat) {t : Tree}
    (h : ∀ start stop argument, t ≠ .node .returnStatement start stop [argument]) :
    (Plan.executing fuel s t).Forwards id t.openReturns := by
  unfold Plan.executing
  split
  · exact silent_bind _ fun _ => rfl
  · exact silent_bind _ fun list => silent_bind _ fun _ => rfl
  · refine silent_bind _ fun s => executeAll s ?_
    simp [Tree.openReturns, Tree.openReturnsAll]
  · rfl
  · refine silent_bind _ fun v => silent_bind _ fun _ => ?_
    split
    · apply execute
      simp [Tree.openReturns, Tree.openReturnsAll]
    · split
      · rfl
      · apply execute
        simp [Tree.openReturns, Tree.openReturnsAll]
  · refine iterate fuel (whileRound s ?_ _)
    simp [Tree.openReturns, Tree.openReturnsAll]
  · refine iterate fuel (doRound s ?_ _)
    simp [Tree.openReturns, Tree.openReturnsAll]
  · refine silent_bind _ fun s => silent_bind _ fun _ => iterate fuel (forRound s ?_ _ _)
    intro x hx
    simp [Tree.openReturns, Tree.openReturnsAll, hx]
  · exact silent_bind _ fun _ => rfl
  · exact absurd rfl (h _ _ _)
  · trivial

end Plan.Forwards

/-! ## The way of a signal -/

/-- At the moment the argument of a `return` statement has been evaluated, in a scope and to a value,
which leaves a machine. A statement without an argument has only been entered. -/
def Moment.Evaluated (s : Nat) (v : Value) (m : Machine) (statement : Tree) (x : Moment) : Prop :=
  match statement with
  | .node .returnStatement _ _ [.null] => v = .null ∧ x = .enters (.execute s statement) m
  | .node .returnStatement _ _ [argument] => x = .ends (.evaluate s argument) (.ok v m)
  | _ => False

/-- The moment is one of a signal on its way out: a rule is left, or it ends with the signal. -/
inductive Moment.PassesOn (v : Value) (statement : Tree) (m : Machine) : Moment → Prop
  | leaves (job : Job) : PassesOn v statement m (.leaves job m)
  | ends (job : Job) {r : job.Result} (h : job.completion r = .returned v statement) :
      PassesOn v statement m (.ends job (.ok r m))

/-- Moments that end with the way of a signal, from when the argument of the `return` statement has been
evaluated. -/
def Signals (v : Value) (statement : Tree) (m : Machine) (moments : List Moment) : Prop :=
  ∃ before x s after, moments = before ++ x :: .leaves (.execute s statement) m :: after ∧
    x.Evaluated s v m statement ∧ ∀ y ∈ after, y.PassesOn v statement m

/-- Only a `return` statement has its argument evaluated in this way. -/
theorem Moment.Evaluated.eq_node {s : Nat} {v : Value} {m : Machine} {statement : Tree} {x : Moment}
    (h : x.Evaluated s v m statement) :
    ∃ start stop argument, statement = .node .returnStatement start stop [argument] := by
  unfold Moment.Evaluated at h
  split at h
  · exact ⟨_, _, _, rfl⟩
  · exact ⟨_, _, _, rfl⟩
  · cases h

section Ways

variable {cfg : Config} {room : Nat} {m m' : Machine} {v : Value} {statement : Tree}
  {xs ys : List Moment}

theorem Signals.prepend (h : Signals v statement m ys) (xs : List Moment) :
    Signals v statement m (xs ++ ys) := by
  obtain ⟨before, x, s, after, rfl, hx, hafter⟩ := h
  exact ⟨xs ++ before, x, s, after, (List.append_assoc xs before _).symm, hx, hafter⟩

theorem Signals.append (h : Signals v statement m xs) (hys : ∀ y ∈ ys, y.PassesOn v statement m) :
    Signals v statement m (xs ++ ys) := by
  obtain ⟨before, x, s, after, rfl, hx, hafter⟩ := h
  refine ⟨before, x, s, after ++ ys, by simp, hx, ?_⟩
  intro y hy
  rcases List.mem_append.1 hy with hy | hy
  · exact hafter y hy
  · exact hys y hy

/-- A signal that a plan passes on has come the way that it came to the plan. -/
theorem Plan.signals {moments : Job → Machine → List Moment}
    (hjobs : ∀ (job : Job) m r m', job.run cfg room m = .ok r m' →
      job.completion r = .returned v statement →
      statement ∈ job.openReturns ∧ Signals v statement m' (moments job m))
    {completion : α → Completion} {statements : List Tree} {plan : Plan α} {a : α}
    (hplan : plan.Forwards completion statements) (h : plan.run cfg room m = .ok a m')
    (ha : completion a = .returned v statement) :
    statement ∈ statements ∧ Signals v statement m' (plan.timeline cfg room moments m) := by
  induction plan generalizing m with
  | give b =>
    cases h
    cases ha.symm.trans hplan
  | stop i => cases h
  | ask job next ih =>
    rw [Plan.timeline]
    rw [Plan.run] at h
    cases hr : job.run cfg room m with
    | error i left =>
      rw [Eval.bind_of_error hr] at h
      cases h
    | ok r left =>
      rw [Eval.bind_of_ok hr] at h
      rcases hplan r with hforwards | ⟨hjob, b, hnext, hb⟩
      · obtain ⟨hmem, hsignals⟩ := ih r hforwards h
        exact ⟨hmem, hsignals.prepend _⟩
      · rw [hnext] at h
        cases h
        obtain ⟨hmem, hsignals⟩ := hjobs job m r m' hr (hb.symm.trans ha)
        simp only [hnext, Plan.timeline, List.append_nil]
        exact ⟨hjob hmem, hsignals⟩
  | act access next ih =>
    rw [Plan.timeline]
    rw [Plan.run] at h
    cases hr : access.run cfg m with
    | error i left =>
      rw [Eval.bind_of_error hr] at h
      cases h
    | ok r left =>
      rw [Eval.bind_of_ok hr] at h
      obtain ⟨hmem, hsignals⟩ := ih r (hplan r) h
      exact ⟨hmem, hsignals.prepend [_]⟩

/-- The last moment of a rule is its end. -/
theorem Job.timeline_eq_append (cfg : Config) (room : Nat) (job : Job) (m : Machine) :
    ∃ before, job.timeline cfg room m = before ++ [.ends job (job.run cfg room m)] := by
  cases room with
  | zero => exact ⟨[.begins job m], rfl⟩
  | succ room => exact ⟨_ :: _, rfl⟩

/-- A `return` statement with an argument evaluates it and is done. -/
theorem Plan.executing_return (fuel s : Nat) (start stop : Tree) {argument : Tree}
    (h : argument ≠ .null) :
    Plan.executing fuel s (.node .returnStatement start stop [argument]) =
      .ask (.evaluate s argument) fun v =>
        .give (.returned v (.node .returnStatement start stop [argument])) := by
  unfold Plan.executing
  dsimp only
  split
  · exact absurd rfl h
  · rfl

theorem Moment.evaluated_return (s : Nat) (start stop : Tree) {argument : Tree}
    (h : argument ≠ .null) (v : Value) (m : Machine) :
    Moment.Evaluated s v m (.node .returnStatement start stop [argument])
      (.ends (.evaluate s argument) (.ok v m)) := by
  unfold Moment.Evaluated
  split
  · rename_i heq
    cases heq
    exact absurd rfl h
  · rename_i heq
    cases heq
    rfl
  · rename_i hother
    exact absurd rfl (hother _ _ _)

/-- A `return` statement sends a signal when its argument has been evaluated. -/
theorem Job.signals_return (s : Nat) {t start stop argument : Tree}
    (ht : t = .node .returnStatement start stop [argument])
    (h : (Job.execute s t).run cfg (room + 1) m = .ok (.returned v statement) m') :
    statement = t ∧ Signals v statement m' ((Job.execute s t).timeline cfg (room + 1) m) := by
  have hends : Moment.PassesOn v statement m'
      (.ends (.execute s t) (.ok (.returned v statement) m')) := .ends _ rfl
  rw [Job.timeline_of_enter rfl, h]
  rw [Job.run_succ] at h
  have hplan : (Plan.executing cfg.fuel s t).run cfg room m = .ok (.returned v statement) m' := h
  dsimp only [Job.plan]
  rw [Eval.left_of_ok hplan]
  by_cases hnull : argument = .null
  · subst ht hnull
    cases hplan
    exact ⟨rfl, [.begins _ m], .enters _ m, s, [_], rfl, ⟨rfl, rfl⟩, by simpa using hends⟩
  · have hasks := Plan.executing_return cfg.fuel s start stop hnull
    rw [← ht] at hasks
    rw [hasks, Plan.run] at hplan
    cases hr : (Job.evaluate s argument).run cfg room m with
    | error i left =>
      rw [Eval.bind_of_error hr] at hplan
      cases hplan
    | ok w left =>
      rw [Eval.bind_of_ok hr] at hplan
      cases hplan
      have hevaluated := Moment.evaluated_return s start stop hnull v m'
      rw [← ht] at hevaluated
      obtain ⟨before, hbefore⟩ := (Job.evaluate s argument).timeline_eq_append cfg room m
      rw [hr] at hbefore
      refine ⟨rfl, .begins (.execute s statement) m :: .enters (.execute s statement) m :: before,
        _, s, [.ends (.execute s statement) (.ok (.returned v statement) m')], ?_, hevaluated, by
        simpa using hends⟩
      simp [hasks, Plan.timeline, hr, hbefore]

/-- Every signal comes from a `return` statement outside of function declarations, and from there nothing
happens but that it is passed on. -/
theorem Job.signals (room : Nat) (job : Job) {r : job.Result} (h : job.run cfg room m = .ok r m')
    (hr : job.completion r = .returned v statement) :
    statement ∈ job.openReturns ∧ Signals v statement m' (job.timeline cfg room m) := by
  induction room generalizing job m m' with
  | zero =>
    rw [Job.run_zero] at h
    cases h
  | succ room ih =>
    have hforwards : (job.plan cfg).Forwards job.completion job.openReturns → job.enter cfg m = some m →
        (job.plan cfg).run cfg room m = .ok r m' →
        statement ∈ job.openReturns ∧ Signals v statement m' (job.timeline cfg (room + 1) m) := by
      intro hplan henter hrun
      obtain ⟨hmem, hsignals⟩ := Plan.signals (fun job _ _ _ => ih job) hplan hrun hr
      rw [Job.timeline_of_enter henter, h, Eval.left_of_ok hrun]
      refine ⟨hmem, Signals.prepend (hsignals.append ?_) [_, _]⟩
      simp only [List.mem_cons, List.not_mem_nil, or_false]
      rintro y (rfl | rfl)
      · exact .leaves job
      · exact .ends job hr
    have hrun := h
    rw [Job.run_succ] at hrun
    cases job with
    | evaluate | call => cases hr
    | executeAll s body => exact hforwards (.executingAll s body) rfl hrun
    | execute s t =>
      by_cases hreturn : ∃ start stop argument, t = .node .returnStatement start stop [argument]
      · obtain ⟨start, stop, argument, ht⟩ := hreturn
        cases hr
        obtain ⟨rfl, hsignals⟩ := Job.signals_return s ht h
        exact ⟨by simp [ht, Job.openReturns, Tree.openReturns], hsignals⟩
      · have hother : ∀ start stop argument, t ≠ .node .returnStatement start stop [argument] := by
          simpa using hreturn
        exact hforwards (.executing cfg.fuel s hother) rfl hrun

/-- The error of a `return` outside of functions is that of a signal at the end of the program. -/
theorem Machine.signal_of_returnOutside {t body : Tree} {s : Nat} {e : RuntimeError}
    (hbody : t.body? = some body) (h : m.run cfg t s = (.stopped (.error e), m'))
    (he : e.cause = .returnOutside) :
    ∃ v statement left, Eval.executeAll cfg cfg.room s body m = .ok (.returned v statement) left ∧
      e = RuntimeError.atNode { cause := .returnOutside } statement ∧ m' = left.endTrace := by
  unfold Machine.run Eval.program at h
  rw [Eval.executeAll_body hbody] at h
  cases hr : Eval.executeAll cfg cfg.room s body m with
  | ok done left =>
    rw [hr] at h
    cases done with
    | normal => cases h
    | returned v statement =>
      cases h
      exact ⟨v, statement, left, rfl, rfl, rfl⟩
  | error i left =>
    rw [hr] at h
    cases i with
    | fault | noFuel => cases h
    | noRoom =>
      cases h
      simp at he
    | error e' =>
      -- No rule raises the error.
      cases h
      obtain ⟨n, hn, -⟩ := (Job.executeAll s body).refuses cfg.room hr (by simp [he, Cause.Ordinary])
      cases he.symm.trans hn

end Ways

theorem Tree.openReturns_program {first last body : Tree} {fields : List Tree}
    (h : (Tree.node .program first last fields).body? = some body) :
    (Tree.node .program first last fields).openReturns = body.openReturns := by
  cases fields with
  | nil => cases h
  | cons t rest =>
    cases rest with
    | cons => cases h
    | nil =>
      cases h
      simp [Tree.openReturns, Tree.openReturnsAll]

/-- What a run was stopped by, if it was an error of the program. -/
def Outcome.cause? : Outcome → Option Cause
  | .stopped (.error e) => some e.cause
  | .finished | .stopped (.fault _) | .stopped .noRoom | .stopped .noFuel => none

theorem Outcome.eq_stopped_of_cause? {outcome : Outcome} {cause : Cause}
    (h : outcome.cause? = some cause) : ∃ e, outcome = .stopped (.error e) ∧ e.cause = cause := by
  unfold Outcome.cause? at h
  split at h
  · exact ⟨_, rfl, Option.some.inj h⟩
  all_goals cases h

/-- A run that stops with the error of a `return` outside of functions has come to one of the `return`
statements outside of all function declarations. The error is placed there, and the machine is left as it
was when the argument had been evaluated, but for the file of messages. A program without such statements
never gets the error. -/
theorem returnOutside_origin (m : Machine) (cfg : Config) (first last : Tree) (fields : List Tree)
    (s : Nat) :
    (∀ e left, m.run cfg (.node .program first last fields) s = (.stopped (.error e), left) →
      e.cause = .returnOutside →
      ∃ start stop argument v m', e.place = some (start, stop) ∧
        .node .returnStatement start stop [argument] ∈
          (Tree.node .program first last fields).openReturns ∧
        Signals v (.node .returnStatement start stop [argument]) m'
          (m.timeline cfg (.node .program first last fields) s) ∧
        left = { m' with traceFile := m'.traceFile.closed }) ∧
    ((Tree.node .program first last fields).openReturns = [] →
      (m.run cfg (.node .program first last fields) s).1.cause? ≠ some .returnOutside) := by
  refine (and_iff_left_of_imp ?_).2 ?_
  · intro horigin hnone hcause
    obtain ⟨e, hstopped, he⟩ := Outcome.eq_stopped_of_cause? hcause
    obtain ⟨start, stop, argument, v, m', -, hmem, -⟩ := horigin e _ (Prod.ext hstopped rfl) he
    rw [hnone] at hmem
    cases hmem
  · intro e left h he
    cases hbody : (Tree.node .program first last fields).body? with
    | none =>
      rw [Machine.run_of_body_none hbody] at h
      cases h
    | some body =>
      obtain ⟨v, statement, m', hr, rfl, rfl⟩ := Machine.signal_of_returnOutside hbody h he
      obtain ⟨hmem, hsignals⟩ := (Job.executeAll s body).signals cfg.room hr rfl
      obtain ⟨start, stop, argument, rfl⟩ : ∃ start stop argument,
          statement = .node .returnStatement start stop [argument] := by
        obtain ⟨_, _, _, _, -, hevaluated, -⟩ := hsignals
        exact hevaluated.eq_node
      rw [Tree.openReturns_program hbody]
      refine ⟨start, stop, argument, v, m', rfl, hmem, ?_, rfl⟩
      unfold Machine.timeline
      rw [hbody]
      exact hsignals

/-- `def f() { return 1; } for (;;) if (true) return f();` -/
def strayReturn : Program :=
  { body :=
      [.function ⟨"f", ⟨9, 10⟩⟩ [] [.ret (some (.literal (.number (.int 1)) ⟨22, 23⟩)) ⟨15, 24⟩]
        ⟨13, 26⟩ ⟨0, 26⟩,
       .forLoop none none none
        (.ifThen (.literal (.bool true) ⟨40, 44⟩)
          (.ret (some (.call (.ident ⟨"f", ⟨53, 54⟩⟩) [] ⟨53, 56⟩)) ⟨46, 57⟩) ⟨36, 57⟩) ⟨27, 57⟩]
    span := ⟨0, 57⟩ }

/-- The `return` in the loop is the one that the error is about. -/
theorem returnOutside_origin_loop :
    ∃ e left, (Machine.initial "").run { fuel := 1 } strayReturn.toTree 0 = (.stopped (.error e), left) ∧
      e.cause = .returnOutside ∧ e.place = some (.ofNat 46, .ofNat 57) ∧
      ∃ argument v m', Signals v (.node .returnStatement (.ofNat 46) (.ofNat 57) [argument]) m'
          ((Machine.initial "").timeline { fuel := 1 } strayReturn.toTree 0) ∧
        left = { m' with traceFile := m'.traceFile.closed } := by
  have hcause : ((Machine.initial "").run { fuel := 1 } strayReturn.toTree 0).1.cause? =
      some .returnOutside := by
    decide +kernel
  obtain ⟨e, hstopped, he⟩ := Outcome.eq_stopped_of_cause? hcause
  obtain ⟨horigin, -⟩ := returnOutside_origin (.initial "") { fuel := 1 } (.ofNat 0) (.ofNat 57)
    [.list (Stmt.toTrees strayReturn.body)] 0
  obtain ⟨start, stop, argument, v, m', hplace, hmem, hsignals, hleft⟩ :=
    horigin e _ (Prod.ext hstopped rfl) he
  have hopen : Tree.node .returnStatement start stop [argument] ∈
      [Tree.node .returnStatement (.ofNat 46) (.ofNat 57) [_]] := hmem
  cases List.mem_singleton.1 hopen
  exact ⟨e, _, Prod.ext hstopped rfl, he, hplace, _, v, m', hsignals, hleft⟩

end Scriptlet
