import Scriptlet.Proofs.Effects

/-!
Runs that differ in their limits. Two runs of one program go the same way until the first meets its
limit on the depth of calls, or is given up because a loop goes round too often. In the one case it stops
with an error that nothing in the program can hold up, in the other it ends without an answer. The other
run goes on from the same machine, and what it writes comes after what was written up to there.

So the limit on the depth of calls cuts runs short and does nothing else, and more fuel changes no answer.
-/

namespace Scriptlet

/-! ## Output -/

theorem Effect.output_grows {own : Nat → Prop} {m m' : Machine} (h : Effect own m m') :
    ∃ more, m'.output = m.output ++ more := by
  cases h with
  | write _ text => exact ⟨text, rfl⟩
  | readLine | readClock | record | endTrace | depth | number | openScope | define | assign =>
    exact ⟨"", by simp [Machine.record, Machine.endTrace]⟩

/-- What is written stays written. -/
theorem Effects.output_grows {own : Nat → Prop} {m m' : Machine} (h : Effects own m m') :
    ∃ more, m'.output = m.output ++ more := by
  induction h with
  | refl => exact ⟨"", by simp⟩
  | tail _ step ih =>
    obtain ⟨more, hmore⟩ := ih
    obtain ⟨last, hlast⟩ := step.output_grows
    exact ⟨more ++ last, by rw [hlast, hmore, String.append_assoc]⟩

/-- All scopes count as owned where it does not matter which names are bound. -/
abbrev anyScope : Nat → Prop := fun _ => True

variable {α β : Type}

theorem Affects.output_grows {x : Eval α} (h : Affects anyScope x) (m : Machine) :
    ∃ more, (x.left m).output = m.output ++ more :=
  Effects.output_grows (h m fun _ _ => trivial)

/-! ## One run cut short -/

/-- The first result is the second, or it was cut short: the computation was given up, or it stopped with
an error of a certain kind when part of the output was written. -/
inductive CutShort (cut : RuntimeError → Prop) :
    EStateM.Result Interrupt Machine α → EStateM.Result Interrupt Machine α → Prop
  | same (r : EStateM.Result Interrupt Machine α) : CutShort cut r r
  | givenUp (m : Machine) (r : EStateM.Result Interrupt Machine α) :
      CutShort cut (.error .noFuel m) r
  | stopped {e : RuntimeError} {m : Machine} {r : EStateM.Result Interrupt Machine α} {more : String}
      (he : cut e) (h : (Eval.machineOf r).output = m.output ++ more) :
      CutShort cut (.error (.error e) m) r

/-- On every machine the first computation gives a result of the second, or one that is cut short. -/
structure Shortens (cut : RuntimeError → Prop) (x y : Eval α) : Prop where
  results (m : Machine) : CutShort cut (x m) (y m)
  affects : Affects anyScope y

namespace Shortens

variable {cut : RuntimeError → Prop}

theorem same {x : Eval α} (h : Affects anyScope x) : Shortens cut x x :=
  ⟨fun m => .same (x m), h⟩

theorem bind {x y : Eval α} {f g : α → Eval β} (h : Shortens cut x y)
    (hf : ∀ a, Shortens cut (f a) (g a)) : Shortens cut (x >>= f) (y >>= g) := by
  constructor
  · intro m
    have hm := h.results m
    have hy : ∃ more, ((y >>= g).left m).output = (y.left m).output ++ more := by
      unfold Eval.left
      cases hr : y m with
      | ok a m' =>
        rw [Eval.bind_of_ok hr]
        exact (hf a).affects.output_grows m'
      | error i m' =>
        rw [Eval.bind_of_error hr]
        exact ⟨"", String.append_empty.symm⟩
    generalize hx : x m = r at hm
    generalize hr : y m = r' at hm
    cases hm with
    | same =>
      cases r with
      | ok a m' =>
        rw [Eval.bind_of_ok hx, Eval.bind_of_ok hr]
        exact (hf a).results m'
      | error i m' =>
        rw [Eval.bind_of_error hx, Eval.bind_of_error hr]
        exact .same _
    | givenUp m' =>
      rw [Eval.bind_of_error hx]
      exact .givenUp m' _
    | @stopped e m' _ more he hmore =>
      -- The longer run goes on to write what follows.
      obtain ⟨rest, hrest⟩ := hy
      unfold Eval.left at hrest
      rw [hr, hmore, String.append_assoc] at hrest
      rw [Eval.bind_of_error hx]
      exact .stopped he hrest
  · exact h.affects.bind fun a => (hf a).affects

theorem ite {p : Prop} [Decidable p] {x x' y y' : Eval α} (hx : Shortens cut x x')
    (hy : Shortens cut y y') : Shortens cut (if p then x else y) (if p then x' else y') := by
  split
  · exact hx
  · exact hy

theorem deeper (hcut : ∀ e t, cut e → cut (e.atNode t)) (t : Tree) {x y : Eval α}
    (h : Shortens cut x y) : Shortens cut (Eval.deeper t x) (Eval.deeper t y) := by
  constructor
  · intro m
    have hm := h.results { m with callDepth := m.callDepth + 1 }
    unfold Eval.deeper
    generalize x { m with callDepth := m.callDepth + 1 } = r at hm
    generalize y { m with callDepth := m.callDepth + 1 } = r' at hm
    cases hm with
    | same => exact .same _
    | givenUp m' => exact .givenUp _ _
    | stopped he hmore =>
      apply CutShort.stopped (hcut _ t he)
      rw [← hmore]
      split <;> rfl
  · exact .deeper t h.affects

end Shortens

/-! ## Configurations -/

/-- A run under the first configuration may be cut short against one under the second: they agree but for
the fuel and for the checks before a call. -/
structure Tightens (cut : RuntimeError → Prop) (cfg cfg' : Config) : Prop where
  debug (topic : Topic) (text : Unit → String) :
    Eval.debug cfg topic text = Eval.debug cfg' topic text
  native (f : Native) (args : List Value) : Native.call cfg f args = Native.call cfg' f args
  fuel_le : cfg.fuel ≤ cfg'.fuel
  checkCall (t : Tree) (f : Value) (args : List Value) :
    Shortens cut (Eval.checkCall cfg t f args) (Eval.checkCall cfg' t f args)
  atNode (e : RuntimeError) (t : Tree) : cut e → cut (e.atNode t)

theorem Tightens.access_eq {cut : RuntimeError → Prop} {cfg cfg' : Config}
    (h : Tightens cut cfg cfg') (access : Access) : access.run cfg = access.run cfg' := by
  cases access with
  | native f args => exact h.native f args
  | debug topic text => exact h.debug topic fun _ => text
  | openScope | define | lookup | assign | number => rfl

theorem Access.ends {allowed : Interrupt → Prop} (h : ∀ i, Interrupt.Ordinary i → allowed i)
    (cfg : Config) (access : Access) (m : Machine) :
    (owning anyScope m allowed).Ends (owning anyScope m allowed).Stops (fun _ _ _ => True) ()
      (access.run cfg m) (access.run cfg m) := by
  have hm : (owning anyScope m allowed).Sound () m m := ⟨rfl, .refl, fun _ _ => trivial⟩
  have hends : ∀ {a : Access}, (owning anyScope m allowed).Allows () a a →
      (owning anyScope m allowed).Ends (owning anyScope m allowed).Stops (fun _ _ _ => True) ()
        (a.run cfg m) (a.run cfg m) := fun ha =>
    ((owning.steady h).access (owning.basics h) hm ha).imp le_rfl id fun _ => trivial
  cases access with
  | openScope parent => exact hends (.openScope rfl)
  | define s name value => exact hends (.define trivial ⟨rfl, trivial⟩ rfl)
  | lookup t s name => exact hends (.lookup rfl rfl trivial)
  | assign t s name value => exact hends (.assign rfl rfl trivial trivial rfl)
  | number => exact hends .number
  | debug topic text => exact hends (.debug topic text)
  | native f args =>
    refine ((owning.steady h).talks (.native cfg f args) hm).imp le_rfl ?_ fun _ => trivial
    rintro i _ ⟨rfl, hi⟩
    refine ⟨rfl, h i ?_⟩
    cases i with
    | error e => exact hi.1
    | fault | noRoom | noFuel => trivial

theorem Access.affects (cfg : Config) (access : Access) : Affects anyScope (access.run cfg) :=
  fun m _ => Affects.of_ends (access.ends (fun _ _ => trivial) cfg m)

theorem Job.affects (cfg : Config) (room : Nat) (job : Job) : Affects anyScope (job.run cfg room) := by
  refine .job cfg room job ?_
  cases job with
  | evaluate | call => trivial
  | executeAll | execute => exact .inl trivial

theorem Plan.affects (cfg : Config) (room : Nat) (plan : Plan α) :
    Affects anyScope (plan.run cfg room) := by
  induction plan with
  | give a => exact .pure a
  | stop i => exact .throw i
  | ask job next ih => exact (job.affects cfg room).bind ih
  | act access next ih => exact (access.affects cfg).bind ih

/-! ## Plans -/

/-- The plans are the same, except that the first may give up in the middle. -/
inductive Plan.Within : Plan α → Plan α → Prop
  | give (a : α) : Within (.give a) (.give a)
  | stop (i : Interrupt) : Within (.stop i) (.stop i)
  | givenUp (plan : Plan α) : Within (.stop .noFuel) plan
  | ask (job : Job) {next next' : job.Result → Plan α} (h : ∀ r, Within (next r) (next' r)) :
      Within (.ask job next) (.ask job next')
  | act (access : Access) {next next' : access.Result → Plan α}
      (h : ∀ r, Within (next r) (next' r)) : Within (.act access next) (.act access next')

namespace Plan.Within

theorem refl (plan : Plan α) : plan.Within plan := by
  induction plan with
  | give a => exact .give a
  | stop i => exact .stop i
  | ask job next ih => exact .ask job ih
  | act access next ih => exact .act access ih

theorem bind {plan plan' : Plan α} {f g : α → Plan β} (h : plan.Within plan')
    (hf : ∀ a, (f a).Within (g a)) : (plan >>= f).Within (plan' >>= g) := by
  induction h with
  | give a => exact hf a
  | stop i => exact .stop i
  | givenUp => exact .givenUp _
  | ask job _ ih => exact .ask job ih
  | act access _ ih => exact .act access ih

/-- A loop that may go round less often. -/
theorem iterate (once : Plan (Option α)) {n n' : Nat} (h : n ≤ n') :
    (Plan.iterate once n).Within (Plan.iterate once n') := by
  induction n generalizing n' with
  | zero => exact .givenUp _
  | succ n ih =>
    obtain ⟨k, rfl⟩ : ∃ k, n' = k + 1 := ⟨n' - 1, by omega⟩
    apply (refl once).bind
    intro r
    cases r with
    | none => exact ih (Nat.le_of_succ_le_succ h)
    | some a => exact .give a

/-- Only loops look at the fuel. -/
theorem executing {fuel fuel' : Nat} (h : fuel ≤ fuel') (s : Nat) (t : Tree) :
    (Plan.executing fuel s t).Within (Plan.executing fuel' s t) := by
  unfold Plan.executing
  split
  case h_6 => exact iterate _ h
  case h_7 => exact iterate _ h
  case h_8 => exact (refl _).bind fun s => (refl _).bind fun _ => iterate _ h
  all_goals exact refl _

theorem shortens {cut : RuntimeError → Prop} {cfg cfg' : Config} {room : Nat}
    (hcfg : Tightens cut cfg cfg')
    (hjobs : ∀ job : Job, Shortens cut (job.run cfg room) (job.run cfg' room))
    {plan plan' : Plan α} (h : plan.Within plan') :
    Shortens cut (plan.run cfg room) (plan'.run cfg' room) := by
  induction h with
  | give a => exact .same (.pure a)
  | stop i => exact .same (.throw i)
  | givenUp plan => exact ⟨fun m => .givenUp m _, plan.affects cfg' room⟩
  | ask job _ ih => exact (hjobs job).bind ih
  | act access _ ih =>
    rw [Plan.run, hcfg.access_eq]
    exact (Shortens.same (access.affects cfg')).bind ih

end Plan.Within

/-! ## Rules and programs -/

variable {cfg cfg' : Config} {cut : RuntimeError → Prop} {n' s : Nat} {limit : Int} {limit' : Option Int}
  {m : Machine}

theorem Job.shortens (hcfg : Tightens cut cfg cfg') (room : Nat) (job : Job) :
    Shortens cut (job.run cfg room) (job.run cfg' room) := by
  induction room generalizing job with
  | zero =>
    have hsame : job.run cfg 0 = job.run cfg' 0 :=
      funext fun m => (job.run_zero cfg m).trans (job.run_zero cfg' m).symm
    rw [hsame]
    exact .same (job.affects cfg' 0)
  | succ room ih =>
    rw [Job.run_succ, Job.run_succ]
    cases job with
    | evaluate | executeAll => exact (Plan.Within.refl _).shortens hcfg ih
    | execute s t => exact (Plan.Within.executing hcfg.fuel_le s t).shortens hcfg ih
    | call t f args =>
      apply (hcfg.checkCall t f args).bind
      intro _
      exact .deeper hcfg.atNode t ((Plan.Within.refl _).shortens hcfg ih)

theorem Eval.program_cutShort (hcfg : Tightens cut cfg cfg') (hroom : cfg.room = cfg'.room) (s : Nat)
    (t : Tree) (m : Machine) : CutShort cut (Eval.program cfg s t m) (Eval.program cfg' s t m) := by
  have hbody : Shortens cut (do Eval.executeAll cfg cfg.room s (← Eval.need t.body?))
      (do Eval.executeAll cfg' cfg'.room s (← Eval.need t.body?)) := by
    rw [hroom]
    exact (Shortens.same (.quiet (.need _))).bind fun body =>
      (Job.executeAll s body).shortens hcfg cfg'.room
  have hm := hbody.results m
  unfold Eval.program
  generalize (do Eval.executeAll cfg cfg.room s (← Eval.need t.body?) : Eval Completion) m = r at hm
  generalize (do Eval.executeAll cfg' cfg'.room s (← Eval.need t.body?) : Eval Completion) m = r'
    at hm
  cases hm with
  | same => exact .same _
  | givenUp m' => exact .givenUp m'.endTrace _
  | @stopped e m' _ more he hmore =>
    apply CutShort.stopped he
    show _ = m'.output ++ _
    rw [← hmore]
    split <;> rfl

/-- Two runs of one program: the same, or the first is given up or stops early. -/
theorem Machine.run_shorter (hcfg : Tightens cut cfg cfg') (hroom : cfg.room = cfg'.room) (m : Machine)
    (t : Tree) (s : Nat) :
    m.run cfg' t s = m.run cfg t s ∨ (m.run cfg t s).1 = .stopped .noFuel ∨
      ∃ e more, (m.run cfg t s).1 = .stopped (.error e) ∧ cut e ∧
        (m.run cfg' t s).2.output = (m.run cfg t s).2.output ++ more := by
  have hm := Eval.program_cutShort hcfg hroom s t m
  unfold Machine.run
  generalize Eval.program cfg s t m = r at hm
  generalize Eval.program cfg' s t m = r' at hm
  cases hm with
  | same => exact .inl rfl
  | givenUp m' => exact .inr (.inl rfl)
  | @stopped e m' _ more he hmore =>
    refine .inr (.inr ⟨e, more, rfl, he, ?_⟩)
    rw [← hmore]
    cases r' <;> rfl

/-! ## Fuel -/

/-- More fuel only matters to a run that is given up. -/
theorem tightens_fuel (cfg : Config) {n : Nat} (h : n ≤ n') :
    Tightens (fun _ => False) { cfg with fuel := n } { cfg with fuel := n' } where
  debug topic text := rfl
  native f args := by cases f <;> rfl
  fuel_le := h
  checkCall t f args := .same (.talks (.checkCall { cfg with fuel := n' } t f args))
  atNode e t := id

/-- A run ends in a way if it does so with some amount of fuel. -/
def Machine.Ends (m : Machine) (cfg : Config) (t : Tree) (s : Nat) (r : Outcome × Machine) : Prop :=
  r.1 ≠ .stopped .noFuel ∧ ∃ fuel, m.run { cfg with fuel } t s = r

/-- A run that has ended ends in the same way with more fuel. -/
theorem Machine.run_of_le {t : Tree} {n : Nat} (h : n ≤ n')
    (hend : (m.run { cfg with fuel := n } t s).1 ≠ .stopped .noFuel) :
    m.run { cfg with fuel := n' } t s = m.run { cfg with fuel := n } t s := by
  rcases Machine.run_shorter (tightens_fuel cfg h) rfl m t s with heq | hnone | ⟨_, _, _, hfalse, _⟩
  · exact heq
  · exact absurd hnone hend
  · exact hfalse.elim

/-- A run ends in one way only. -/
theorem Machine.Ends.unique {t : Tree} {r r' : Outcome × Machine} (h : m.Ends cfg t s r)
    (h' : m.Ends cfg t s r') : r = r' := by
  obtain ⟨hend, n, rfl⟩ := h
  obtain ⟨hend', n', rfl⟩ := h'
  rcases Nat.le_total n n' with hle | hle
  · exact (Machine.run_of_le hle hend).symm
  · exact Machine.run_of_le hle hend'

/-! ## The limit on the depth of calls -/

/-- The run stopped because calls were nested as deep as the limit allows. -/
def Outcome.ExceedsDepth (limit : Int) : Outcome → Prop
  | .stopped (.error e) => e.cause = .callDepth limit
  | _ => False

instance (limit : Int) : DecidablePred (Outcome.ExceedsDepth limit)
  | .stopped (.error e) => inferInstanceAs (Decidable (e.cause = .callDepth limit))
  | .finished | .stopped (.fault _) | .stopped .noRoom | .stopped .noFuel =>
    inferInstanceAs (Decidable False)

/-- Where the lower limit is not reached, neither is the other. -/
theorem Shortens.depthCheck (h : ∀ l, limit' = some l → limit ≤ l) (t : Tree) {k : Eval Unit}
    (hk : Affects anyScope k) :
    Shortens (fun e => e.cause = .callDepth limit)
      (do if limit ≤ (← get).callDepth then Eval.raiseAt t (.callDepth limit)
          k)
      (do match limit' with
          | some l => if l ≤ (← get).callDepth then Eval.raiseAt t (.callDepth l)
          | none => pure ()
          k) := by
  have haffects : Affects anyScope (do
      match limit' with
      | some l => if l ≤ (← get).callDepth then Eval.raiseAt t (.callDepth l)
      | none => pure ()
      k) := by
    cases limit' with
    | none => exact hk
    | some l => exact Affects.get.bind fun m => .ite ((Affects.quiet (.raiseAt t _)).bind fun _ => hk) hk
  constructor
  · intro m
    rw [Eval.depthCheck_eq]
    by_cases hm : limit ≤ m.callDepth
    · obtain ⟨more, hmore⟩ := haffects.output_grows m
      rw [if_pos hm]
      exact .stopped (RuntimeError.atNode_cause _ t) hmore
    · rw [if_neg hm]
      cases limit' with
      | none => exact .same _
      | some l =>
        have hl : ¬ l ≤ m.callDepth := fun hle => hm (Int.le_trans (h l rfl) hle)
        have hpass := Eval.depthCheck_eq l t k m
        rw [if_neg hl] at hpass
        rw [← hpass]
        exact .same _
  · exact haffects

/-- Only the lower of two limits can stop a call that passes under the other. -/
theorem checkCall_shortens (cfg : Config) (h : ∀ l, limit' = some l → limit ≤ l) (n n' : Nat) (t : Tree)
    (f : Value) (args : List Value) :
    Shortens (fun e => e.cause = .callDepth limit)
      (Eval.checkCall { cfg with maxCallDepth := some limit, fuel := n } t f args)
      (Eval.checkCall { cfg with maxCallDepth := limit', fuel := n' } t f args) := by
  unfold Eval.checkCall
  apply (Shortens.same (.quiet (.signature t f))).bind
  rintro ⟨name, arity⟩
  have hdepth := Shortens.depthCheck h t (.debug { cfg with maxCallDepth := limit', fuel := n' } .call
    fun _ => "call " ++ name ++ "(" ++ ", ".intercalate (args.map Value.shown) ++ ")")
  cases arity with
  | none => exact hdepth
  | some expected =>
    apply Shortens.ite
    · exact (Shortens.same (.quiet (.raiseAt t _))).bind fun _ => hdepth
    · exact hdepth

/-- A lower limit on the depth of calls only cuts runs short. -/
theorem tightens_depth (cfg : Config) (h : ∀ l, limit' = some l → limit ≤ l) {n : Nat} (hn : n ≤ n') :
    Tightens (fun e => e.cause = .callDepth limit)
      { cfg with maxCallDepth := some limit, fuel := n }
      { cfg with maxCallDepth := limit', fuel := n' } where
  debug topic text := rfl
  native f args := by cases f <;> rfl
  fuel_le := hn
  checkCall := checkCall_shortens cfg h n n'
  atNode e t he := by simp only [RuntimeError.atNode_cause, he]

/-- With more room for calls a run that kept to its limit ends as it did, and one that met it had
written what the longer run writes first. -/
theorem run_of_deeper_limit (m : Machine) (cfg : Config) (t : Tree) (s : Nat) (limit : Int)
    (limit' : Option Int) (h : ∀ l, limit' = some l → limit ≤ l) (r : Outcome × Machine)
    (hr : m.Ends { cfg with maxCallDepth := some limit } t s r) :
    (¬ r.1.ExceedsDepth limit → ∀ r', m.Ends { cfg with maxCallDepth := limit' } t s r' ↔ r' = r) ∧
      (r.1.ExceedsDepth limit → ∀ r', m.Ends { cfg with maxCallDepth := limit' } t s r' →
        ∃ more, r'.2.output = r.2.output ++ more) := by
  obtain ⟨hend, n, rfl⟩ := hr
  have hshorter : ∀ n', n ≤ n' → _ := fun n' hn =>
    Machine.run_shorter (tightens_depth cfg h hn) rfl m t s
  constructor
  · intro hkeeps
    have hends : m.Ends { cfg with maxCallDepth := limit' } t s
        (m.run { cfg with maxCallDepth := some limit, fuel := n } t s) := by
      rcases hshorter n (Nat.le_refl n) with heq | hnone | ⟨e, _, he, hcause, _⟩
      · exact ⟨hend, n, heq⟩
      · exact absurd hnone hend
      · exact absurd (by rw [he]; exact hcause) hkeeps
    intro r'
    constructor
    · intro hr'
      exact hr'.unique hends
    · rintro rfl
      exact hends
  · rintro hexceeds r' ⟨hend', n', rfl⟩
    have hmax := Machine.run_of_le (Nat.le_max_right n n') hend'
    rcases hshorter (max n n') (Nat.le_max_left n n') with heq | hnone | ⟨_, more, _, _, hmore⟩
    · exact ⟨"", by rw [← hmax, heq, String.append_empty]⟩
    · exact absurd hnone hend
    · exact ⟨more, by rw [← hmax, hmore]⟩

/-- A function that writes a line and calls itself. -/
def recursion : Program :=
  { body :=
      [.function ⟨"f", ⟨9, 10⟩⟩ []
        [.expr (.call (.ident ⟨"print", ⟨15, 20⟩⟩) [.literal (.bool true) ⟨21, 25⟩] ⟨15, 26⟩) ⟨15, 27⟩,
          .expr (.call (.ident ⟨"f", ⟨28, 29⟩⟩) [] ⟨28, 31⟩) ⟨28, 32⟩] ⟨13, 34⟩ ⟨0, 34⟩,
       .expr (.call (.ident ⟨"f", ⟨35, 36⟩⟩) [] ⟨35, 38⟩) ⟨35, 39⟩]
    span := ⟨0, 39⟩ }

/-- A run stopped at depth two wrote what the run to depth four writes first. -/
theorem run_of_deeper_limit_recursion :
    ∃ r, (Machine.initial "").Ends { maxCallDepth := some 2, fuel := 1 } recursion.toTree 0 r ∧
      r.1.ExceedsDepth 2 ∧
      ∀ r', (Machine.initial "").Ends { maxCallDepth := some 4, fuel := 1 } recursion.toTree 0 r' →
        ∃ more, r'.2.output = r.2.output ++ more := by
  obtain ⟨r, hr, hexceeds⟩ : ∃ r, (Machine.initial "").run { maxCallDepth := some 2, fuel := 1 }
      recursion.toTree 0 = r ∧ r.1.ExceedsDepth 2 := ⟨_, rfl, by decide +kernel⟩
  have hends : (Machine.initial "").Ends { maxCallDepth := some 2, fuel := 1 } recursion.toTree 0 r := by
    constructor
    · intro hnone
      rw [hnone] at hexceeds
      exact hexceeds
    · exact ⟨1, hr⟩
  have hall := run_of_deeper_limit (.initial "") { fuel := 1 } recursion.toTree 0 2 (some 4)
    (by rintro l ⟨⟩; decide) r hends
  exact ⟨r, hends, hexceeds, hall.2 hexceeds⟩

end Scriptlet
