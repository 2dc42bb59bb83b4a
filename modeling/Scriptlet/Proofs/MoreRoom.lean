import Scriptlet.Proofs.RunsAlike

/-!
Rules in different rooms. The room that evaluation has to nest in is given out from rule to rule, so two
programs that mean the same can need different rooms for it. More room changes nothing but that a run
that had too little can go on (`Job.grows`): no rule catches the interrupt, nor the error that a call
makes of it.
-/

namespace Scriptlet

variable {α β : Type}

/-- The computation has run out of room. -/
def RunsOut : EStateM.Result Interrupt Machine α → Prop
  | .ok _ _ => False
  | .error i _ => i.OutOfRoom

instance : DecidablePred Interrupt.OutOfRoom
  | .error e => inferInstanceAs (Decidable (e.cause = .callRoom ∨ e.cause = .programRoom))
  | .noRoom => .isTrue trivial
  | .fault _ | .noFuel => .isFalse id

instance (r : EStateM.Result Interrupt Machine α) : Decidable (RunsOut r) :=
  match r with
  | .ok _ _ => .isFalse id
  | .error i _ => inferInstanceAs (Decidable i.OutOfRoom)

/-- On every machine the first computation gives the result of the second or runs out of room. -/
def Eval.Grows (x y : Eval α) : Prop :=
  ∀ m, RunsOut (x m) ∨ x m = y m

namespace Eval.Grows

theorem refl (x : Eval α) : x.Grows x :=
  fun _ => .inr rfl

theorem trans {x y z : Eval α} (h : x.Grows y) (h' : y.Grows z) : x.Grows z := by
  intro m
  rcases h m with hout | heq
  · exact .inl hout
  · rw [heq]
    exact h' m

theorem noRoom (y : Eval α) : Grows (throw .noRoom) y :=
  fun _ => .inl trivial

theorem bind {x y : Eval α} {f g : α → Eval β} (h : x.Grows y) (hf : ∀ a, (f a).Grows (g a)) :
    (x >>= f).Grows (y >>= g) := by
  intro m
  rcases h m with hout | heq
  · left
    cases hr : x m with
    | ok a m' =>
      rw [hr] at hout
      cases hout
    | error i m' =>
      rw [hr] at hout
      rw [Eval.bind_of_error hr]
      exact hout
  · cases hr : x m with
    | ok a m' =>
      rw [Eval.bind_of_ok hr, Eval.bind_of_ok (heq.symm.trans hr)]
      exact hf a m'
    | error i m' =>
      rw [Eval.bind_of_error hr, Eval.bind_of_error (heq.symm.trans hr)]
      exact .inr rfl

/-- A call makes an error of it, which is still one of too little room. -/
theorem deeper (t : Tree) {x y : Eval α} (h : x.Grows y) :
    (Eval.deeper t x).Grows (Eval.deeper t y) := by
  intro m
  unfold Eval.deeper
  rcases h { m with callDepth := m.callDepth + 1 } with hout | heq
  · left
    cases hr : x { m with callDepth := m.callDepth + 1 } with
    | ok a m' =>
      rw [hr] at hout
      cases hout
    | error i m' =>
      rw [hr] at hout
      cases i with
      | error e => simpa [RunsOut, Interrupt.OutOfRoom] using hout
      | noRoom => simp [RunsOut, Interrupt.OutOfRoom]
      | fault | noFuel => cases hout
  · rw [heq]
    exact .inr rfl

end Eval.Grows

variable {cfg : Config} {room room' : Nat}

theorem Plan.grows (hjobs : ∀ job : Job, (job.run cfg room).Grows (job.run cfg room'))
    (plan : Plan α) : (plan.run cfg room).Grows (plan.run cfg room') := by
  induction plan with
  | give a => exact .refl _
  | stop i => exact .refl _
  | ask job next ih => exact (hjobs job).bind ih
  | act access next ih => exact (Eval.Grows.refl _).bind ih

/-- In more room a rule does the same, unless there was too little. -/
theorem Job.grows (cfg : Config) (hle : room ≤ room') (job : Job) :
    (job.run cfg room).Grows (job.run cfg room') := by
  induction room generalizing job room' with
  | zero =>
    intro m
    left
    rw [Job.run_zero]
    trivial
  | succ room ih =>
    obtain ⟨more, rfl⟩ : ∃ more, room' = more + 1 := ⟨room' - 1, by omega⟩
    rw [Job.run_succ, Job.run_succ]
    have hplan := Plan.grows (fun job => ih (Nat.le_of_succ_le_succ hle) job) (job.plan cfg)
    cases job with
    | evaluate | executeAll | execute => exact hplan
    | call t f args => exact (Eval.Grows.refl _).bind fun _ => hplan.deeper t

end Scriptlet
