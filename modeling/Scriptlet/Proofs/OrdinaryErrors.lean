import Scriptlet.Proofs.CallDepth

/-!
What goes wrong within rules. Most errors can come up anywhere in a run: an operator, a name or a
function of the standard library raises them. Two cannot. That calls are nested too deeply is found by the
checks before a call only, and that a `return` stands outside of every function only at the end of a
program. So no plan of a rule stops with one of these, and no single access to the machine raises it.
-/

namespace Scriptlet

variable {α : Type}

theorem Access.ordinary_of_error {cfg : Config} {access : Access} {m m' : Machine} {i : Interrupt}
    (h : access.run cfg m = .error i m') : i.Ordinary := by
  have hall : ∀ i, Interrupt.Ordinary i → i.Ordinary := fun _ => id
  have hends := access.ends hall cfg m
  rw [h] at hends
  cases hends with
  | error _ _ hi => exact hi.2
  | outLeft hi | outRight hi => exact hi.elim

/-- The plan itself stops for ordinary reasons only, whatever answers it gets. -/
def Plan.Fails : Plan α → Prop
  | .give _ => True
  | .stop i => i.Ordinary
  | .ask _ next => ∀ r, (next r).Fails
  | .act _ next => ∀ r, (next r).Fails

namespace Plan.Fails

variable {m : Machine}

/-- A plan that matches itself gets all its answers, for each belongs together with itself. -/
theorem of_match {R : Unit → α → α → Prop} {w : Unit} {plan plan' : Plan α}
    (h : (owning anyScope m Interrupt.Ordinary).Match R w plan plan') (heq : plan = plan') :
    plan.Fails := by
  induction h with
  | give => trivial
  | stop h => exact h.2
  | @ask w job _ next _ h _ ih =>
    cases heq
    intro r
    refine ih () r r le_rfl ?_ rfl
    cases job with
    | evaluate | call => exact Eq.refl r
    | executeAll | execute =>
      cases r with
      | normal => exact .normal
      | returned v t => exact .returned rfl rfl
  | @act w access _ next _ h _ ih =>
    cases heq
    intro r
    refine ih () r r le_rfl ?_ rfl
    cases access with
    | openScope => exact ⟨rfl, trivial⟩
    | number | lookup | assign => exact Eq.refl r
    | define | debug => trivial
    | native => cases h

/-- The plan of a rule. -/
theorem job (cfg : Config) (job : Job) : (job.plan cfg).Fails := by
  have hall : ∀ i, Interrupt.Ordinary i → i.Ordinary := fun _ => id
  have hlawful : (owning anyScope { scopes := .root } Interrupt.Ordinary).Lawful :=
    owning.lawful hall
  cases job with
  | evaluate s t => exact of_match (hlawful.evaluating (w := ()) rfl (hlawful.exprs rfl)) rfl
  | executeAll s t => exact of_match (hlawful.executingAll (w := ()) ⟨rfl, rfl, .inl trivial⟩) rfl
  | execute s t =>
    have hparts := (owning.sameTrees hall).stmtParts hlawful.toBasics (w := ()) (s := s) (t := t)
      ⟨rfl, .inl trivial⟩
    exact of_match (hlawful.executing cfg.fuel rfl hparts) rfl
  | call t f args =>
    by_cases hnative : ∃ g, f = .native g
    · obtain ⟨g, rfl⟩ := hnative
      exact fun _ => trivial
    · refine of_match (hlawful.calling (w := ()) rfl (fun g hg => hnative ⟨g, hg⟩) rfl ?_) rfl
      exact List.forall₂_same.2 fun _ _ => rfl

end Plan.Fails

end Scriptlet
