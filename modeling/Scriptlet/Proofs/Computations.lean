import Scriptlet.Proofs.Operators

/-!
What computations do to the machine besides their results. A computation that is quiet has nothing to do
with the machine. One that talks may write text, read a line, trace a message and look at the depth of
calls; the functions of the standard library talk, and so do the checks before a call. So what is shown
for these few things holds of them all, and no other module has to go through the library again.
-/

namespace Scriptlet

variable {α β : Type}

/-! ## Results -/

/-- The machine after a computation, with a result or interrupted. -/
def Eval.machineOf : EStateM.Result Interrupt Machine α → Machine
  | .ok _ m | .error _ m => m

/-- The machine that a computation leaves. -/
def Eval.left (x : Eval α) (m : Machine) : Machine :=
  Eval.machineOf (x m)

variable {x : Eval α} {m m' : Machine} {a : α} {i : Interrupt} {f : α → Eval β}

theorem Eval.left_of_ok (h : x m = .ok a m') :
    x.left m = m' := by
  unfold Eval.left
  rw [h]
  rfl

theorem Eval.left_of_error (h : x m = .error i m') :
    x.left m = m' := by
  unfold Eval.left
  rw [h]
  rfl

theorem Eval.bind_of_ok (h : x m = .ok a m') : (x >>= f) m = f a m' := by
  show EStateM.bind x f m = _
  unfold EStateM.bind
  rw [h]

theorem Eval.bind_of_error (h : x m = .error i m') : (x >>= f) m = .error i m' := by
  show EStateM.bind x f m = _
  unfold EStateM.bind
  rw [h]

theorem Eval.left_bind_of_ok (h : x m = .ok a m') : (x >>= f).left m = (f a).left m' :=
  congrArg Eval.machineOf (Eval.bind_of_ok h)

/-! ## Names -/

namespace Eval

variable {s : Nat} {name : Tree} {key : Name} {m : Machine}

theorem lookup_of_some {value : Value} (hname : Name.ofTree? name = some key)
    (h : m.scopes.get? s key = some value) : lookup s name m = .ok value m := by
  unfold lookup nameOf
  rw [hname]
  simp only [pure_bind]
  exact (bind_of_ok rfl).trans (by rw [h]; rfl)

theorem lookup_of_none (hname : Name.ofTree? name = some key) (h : m.scopes.get? s key = none) :
    lookup s name m = raise (.undefinedVariable name.display) m := by
  unfold lookup nameOf
  rw [hname]
  simp only [pure_bind]
  exact (bind_of_ok rfl).trans (by rw [h])

theorem assign_of_some {found : Nat} (hname : Name.ofTree? name = some key)
    (h : m.scopes.find? s key = some found) (value : Value) :
    assign s name value m = .ok value { m with scopes := m.scopes.define found key value } := by
  unfold assign nameOf
  rw [hname]
  simp only [pure_bind]
  exact (bind_of_ok rfl).trans (by rw [h]; rfl)

theorem assign_of_none (hname : Name.ofTree? name = some key) (h : m.scopes.find? s key = none)
    (value : Value) : assign s name value m = raise (.undefinedVariable name.display) m := by
  unfold assign nameOf
  rw [hname]
  simp only [pure_bind]
  exact (bind_of_ok rfl).trans (by rw [h])

end Eval

/-! ## Quiet computations -/

/-- A computation that neither reads nor changes the machine. -/
def Eval.Quiet (x : Eval α) : Prop :=
  ∀ m, x m = match x { scopes := .root } with
    | .ok a _ => .ok a m
    | .error i _ => .error i m

namespace Eval.Quiet

theorem pure (a : α) : (pure a : Eval α).Quiet :=
  fun _ => rfl

theorem fault (f : Fault) : (fault f : Eval α).Quiet :=
  fun _ => rfl

theorem raiseAt (t : Tree) (cause : Cause) : (raiseAt t cause : Eval α).Quiet :=
  fun _ => rfl

theorem need (a : Option α) : (need a).Quiet := by
  cases a with
  | none => exact fault _
  | some a => exact pure a

theorem items (t : Tree) : (items t).Quiet := by
  unfold Eval.items
  split
  · exact pure _
  · exact fault _

theorem nameOf (t : Tree) : (nameOf t).Quiet := by
  unfold Eval.nameOf
  split
  · exact pure _
  · exact fault _

theorem firstOf (t : Tree) : (firstOf t).Quiet := by
  unfold Eval.firstOf
  split
  · split
    · exact pure _
    · exact fault _
  · exact pure _
  · exact fault _
  · exact fault _

theorem applyAt (t operator : Tree) (a b : Value) : (applyAt t operator a b).Quiet := by
  unfold Eval.applyAt
  split
  · exact fault _
  · split
    · exact pure _
    · exact raiseAt t _

theorem unaryAt (t operator : Tree) (v : Value) : (unaryAt t operator v).Quiet := by
  unfold Eval.unaryAt
  split
  · exact pure _
  · split
    · exact pure _
    · exact raiseAt t _
  · exact pure _
  · exact fault _

/-- A quiet computation gives a result at once, or is interrupted at once. -/
theorem eq_pure_or_throw {x : Eval α} (h : x.Quiet) : (∃ a, x = Pure.pure a) ∨ ∃ i, x = throw i := by
  cases hr : x { scopes := .root } with
  | ok a m =>
    refine .inl ⟨a, funext fun m => ?_⟩
    rw [h m, hr]
    rfl
  | error i m =>
    refine .inr ⟨i, funext fun m => ?_⟩
    rw [h m, hr]
    rfl

end Eval.Quiet

theorem Eval.Quiet.signature (t : Tree) (f : Value) : (signature t f).Quiet := by
  unfold Eval.signature
  split
  · exact .pure _
  · rcases (Quiet.items _).eq_pure_or_throw with ⟨a, ha⟩ | ⟨i, hi⟩
    · rw [ha]
      exact .pure _
    · rw [hi]
      exact fun _ => rfl
  · exact .raiseAt t _

/-! ## Computations that talk -/

/-- The computation writes and reads text and does nothing else that others could see, apart from messages
that it may trace where this is allowed. What it gives is wanted, and interrupts are of the given kind. -/
inductive Eval.Talks (traces : Prop) (throws : Interrupt → Prop) :
    {α : Type} → (α → Prop) → Eval α → Prop
  | pure {α : Type} {wanted : α → Prop} {a : α} (h : wanted a) : Talks traces throws wanted (pure a)
  | throw {α : Type} {wanted : α → Prop} {i : Interrupt} (h : throws i) :
      Talks traces throws wanted (throw i : Eval α)
  | write (text : String) : Talks traces throws (fun _ => True) (write text)
  | readLine : Talks traces throws (fun _ => True) readLine
  | readClock (cfg : Config) : Talks traces throws (fun _ => True) (readClock cfg)
  | debug (h : traces) (cfg : Config) (topic : Topic) (text : Unit → String) :
      Talks traces throws (fun _ => True) (debug cfg topic text)
  | depth {α : Type} {wanted : α → Prop} {f : Nat → Eval α}
      (h : ∀ n, Talks traces throws wanted (f n)) :
      Talks traces throws wanted (do f (← get).callDepth)
  | bind {α β : Type} {wanted : α → Prop} {wanted' : β → Prop} {x : Eval α} {f : α → Eval β}
      (hx : Talks traces throws wanted x) (hf : ∀ a, wanted a → Talks traces throws wanted' (f a)) :
      Talks traces throws wanted' (x >>= f)

/-- Whether a number of arguments passes the check before a call. -/
def Native.Takes (f : Native) (args : List Value) : Prop :=
  ∀ expected, f.arity? = some expected → args.length = expected

/-- How a function of the standard library may fail: with an error that has no place yet, or because it
cannot take its arguments apart. -/
def Native.Throws (f : Native) (args : List Value) : Interrupt → Prop
  | .error e => e.cause.Ordinary ∧ e.place = none
  | .fault _ => ¬ f.Takes args
  | .noRoom | .noFuel => False

namespace Native

variable {f : Native} {args : List Value} {cause : Cause}

/-- The list has as many numbers as there are arguments. -/
theorem length_numbers {list : List Number} (h : numbers f args = .ok list) : list.length = args.length := by
  induction args generalizing list with
  | nil =>
    cases h
    rfl
  | cons v rest ih =>
    unfold numbers at h
    split at h
    · rename_i heq
      cases heq
    · rename_i n rest' heq
      cases heq
      cases hrest : numbers f rest with
      | error cause => simp [hrest, bind, Except.bind] at h
      | ok list' =>
        simp only [hrest, bind, Except.bind, pure, Except.pure, Except.ok.injEq] at h
        subst h
        simp [ih hrest]
    · cases h

theorem ordinary_numbers (h : f.numbers args = .error cause) : cause.Ordinary := by
  induction args with
  | nil => cases h
  | cons v rest ih =>
    unfold numbers at h
    split at h
    · cases h
    · rename_i n rest' heq
      cases heq
      cases hrest : f.numbers rest with
      | error other =>
        rw [hrest] at h
        cases h
        exact ih hrest
      | ok list =>
        rw [hrest] at h
        cases h
    · cases h
      trivial

/-- A function of numbers without a value at its arguments. -/
theorem ordinary_gap {r : Except Number.Gap α} (h : r.mapError f.gapCause = .error cause) :
    cause.Ordinary := by
  cases r with
  | ok a => cases h
  | error gap =>
    cases h
    cases gap <;> trivial

end Native

namespace Eval.Talks

variable {traces : Prop} {throws : Interrupt → Prop} {wanted : α → Prop}

theorem quiet {x : Eval α} (h : x.Quiet) : x.Talks traces (fun _ => True) fun _ => True := by
  rcases h.eq_pure_or_throw with ⟨a, rfl⟩ | ⟨i, rfl⟩
  · exact .pure trivial
  · exact .throw trivial

theorem ite {p : Prop} [Decidable p] {x y : Eval α} (hx : p → x.Talks traces throws wanted)
    (hy : ¬ p → y.Talks traces throws wanted) : (if p then x else y).Talks traces throws wanted := by
  split
  · exact hx ‹p›
  · exact hy ‹¬ p›

theorem imp {wanted' : α → Prop} {x : Eval α} (h : x.Talks traces throws wanted)
    (hwanted : ∀ a, wanted a → wanted' a) : x.Talks traces throws wanted' := by
  rw [← bind_pure x]
  exact h.bind fun a ha => .pure (hwanted a ha)

theorem gives {x : Eval α} (h : x.Talks traces throws wanted) {m m' : Machine} {a : α}
    (hr : x m = .ok a m') : wanted a := by
  induction h generalizing m m' with
  | pure h =>
    cases hr
    exact h
  | throw => cases hr
  | write | readLine | readClock | debug => trivial
  | depth _ ih => exact ih _ hr
  | @bind _ _ _ _ x f _ _ ihx ihf =>
    cases hx : x m with
    | error i n =>
      rw [Eval.bind_of_error hx] at hr
      cases hr
    | ok b n =>
      rw [Eval.bind_of_ok hx] at hr
      exact ihf b (ihx hx) hr

/-! ### The standard library -/

section Library

variable {f : Native} {args : List Value}

theorem orRaise {r : Except Cause α} (h : ∀ cause, r = .error cause → cause.Ordinary) :
    (Native.orRaise r).Talks traces (f.Throws args) fun a => r = .ok a := by
  cases r with
  | error cause => exact .throw ⟨h cause rfl, rfl⟩
  | ok a => exact .pure rfl

theorem ofOne (hone : f.arity? = some 1) {op : Number → Except Cause Number}
    (h : ∀ n cause, op n = .error cause → cause.Ordinary) :
    (f.ofOne args op).Talks traces (f.Throws args) fun v => ∃ s, v = .scalar s := by
  refine (orRaise fun _ => Native.ordinary_numbers).bind fun list hlist => ?_
  split
  · exact (orRaise (h _)).bind fun n _ => .pure ⟨_, rfl⟩
  · rename_i hne
    refine .throw fun htakes => ?_
    obtain ⟨n, rfl⟩ := List.length_eq_one_iff.1 ((Native.length_numbers hlist).trans (htakes 1 hone))
    exact hne n rfl

theorem ofMany (op : Number → List Number → Number) :
    (f.ofMany args op).Talks traces (f.Throws args) fun v => ∃ s, v = .scalar s := by
  refine ite (fun _ => .throw ⟨trivial, rfl⟩) fun hargs => ?_
  refine (orRaise fun _ => Native.ordinary_numbers).bind fun list hlist => ?_
  split
  · exact .pure ⟨_, rfl⟩
  · have hempty := List.length_eq_zero_iff.1 (Native.length_numbers hlist).symm
    simp [hempty] at hargs

theorem ofFirst (hone : f.arity? = some 1) {op : Value → Eval Value}
    (h : ∀ v, (op v).Talks traces (f.Throws args) fun v => ∃ s, v = .scalar s) :
    (Native.ofFirst args op).Talks traces (f.Throws args) fun v => ∃ s, v = .scalar s := by
  unfold Native.ofFirst
  split
  · exact h _
  · exact .throw fun htakes => absurd (htakes 1 hone) (by simp)

end Library

/-- Functions of the standard library give scalars, and they trace nothing. -/
theorem native (cfg : Config) (f : Native) (args : List Value) :
    (f.call cfg args).Talks False (f.Throws args) fun v => ∃ s, v = .scalar s := by
  have hread : (do return .text (← Eval.readLine) : Eval Value).Talks False (f.Throws args)
      fun v => ∃ s, v = .scalar s := .bind .readLine fun _ _ => .pure ⟨_, rfl⟩
  cases f with
  | print => exact (Talks.write _).bind fun _ _ => .pure ⟨_, rfl⟩
  | input =>
    refine ofFirst rfl fun v => ?_
    split
    · exact ite (fun _ => (Talks.write _).bind fun _ _ => hread) fun _ => hread
    · exact .throw ⟨trivial, rfl⟩
  | str => exact ofFirst rfl fun _ => .pure ⟨_, rfl⟩
  | len =>
    refine ofFirst rfl fun v => ?_
    split
    · exact .pure ⟨_, rfl⟩
    · exact .throw ⟨trivial, rfl⟩
  | abs =>
    refine ofOne rfl ?_
    rintro n cause ⟨⟩
  | sqrt =>
    refine ofOne rfl fun n cause h => ?_
    split at h
    · cases h
      trivial
    · exact Native.ordinary_gap h
  | floor => exact ofOne rfl fun _ _ => Native.ordinary_gap
  | pow =>
    refine (orRaise fun _ => Native.ordinary_numbers).bind fun list hlist => ?_
    split
    · exact (orRaise fun _ => Native.ordinary_gap).bind fun _ _ => .pure ⟨_, rfl⟩
    · rename_i hne
      refine .throw fun htakes => ?_
      obtain ⟨base, exponent, rfl⟩ :=
        List.length_eq_two.1 ((Native.length_numbers hlist).trans (htakes 2 rfl))
      exact hne base exponent rfl
  | min | max => exact ofMany _
  | clock => exact (Talks.readClock cfg).bind fun _ _ => .pure ⟨_, rfl⟩

end Eval.Talks

/-! ## The checks before a call -/

/-- The check of the depth of calls, the last before a call, and the message about it. -/
def Eval.checkDepth (cfg : Config) (t : Tree) (name : String) (args : List Value) : Eval Unit := do
  match cfg.maxCallDepth with
  | some limit => if limit ≤ (← get).callDepth then raiseAt t (.callDepth limit)
  | none => pure ()
  debug cfg .call fun _ => "call " ++ name ++ "(" ++ ", ".intercalate (args.map Value.shown) ++ ")"

/-- A limit is checked before anything else happens. -/
theorem Eval.depthCheck_eq (limit : Int) (t : Tree) (k : Eval Unit) (m : Machine) :
    (do if limit ≤ (← get).callDepth then Eval.raiseAt t (.callDepth limit)
        k : Eval Unit) m =
      if limit ≤ m.callDepth then .error (.error (RuntimeError.atNode { cause := .callDepth limit } t)) m
      else k m := by
  by_cases hm : limit ≤ m.callDepth
  · rw [if_pos hm]
    show (if limit ≤ m.callDepth then (do Eval.raiseAt t (.callDepth limit); k) else k : Eval Unit) m = _
    rw [if_pos hm]
    rfl
  · rw [if_neg hm]
    show (if limit ≤ m.callDepth then (do Eval.raiseAt t (.callDepth limit); k) else k : Eval Unit) m = _
    rw [if_neg hm]

/-- How the checks before a call may fail: with an error at the call, or because there is no list of
parameters to count. -/
def Eval.Refused (t : Tree) (f : Value) (i : Interrupt) : Prop :=
  (∃ cause, i = .error (.atNode { cause } t)) ∨
    ∃ g, f = .closure g ∧ g.params.items? = none ∧ i = .fault .wrongKind

namespace Eval.Talks

/-- What follows an interrupt is never met. -/
theorem throw_bind {traces : Prop} {throws : Interrupt → Prop} {wanted : β → Prop} {i : Interrupt}
    (h : throws i) (f : α → Eval β) :
    ((MonadExcept.throw i : Eval α) >>= f).Talks traces throws wanted :=
  .bind (.throw h : Talks traces throws (fun _ => False) _) fun _ => False.elim

theorem signature {traces : Prop} (t : Tree) (f : Value) :
    (Eval.signature t f).Talks traces (Eval.Refused t f) fun p => ∀ g, f = .native g → p.2 = g.arity? := by
  unfold Eval.signature
  split
  · refine .pure fun g hg => ?_
    cases hg
    rfl
  · rename_i f
    cases hitems : f.params.items? with
    | none =>
      have hthrow : Eval.items f.params = MonadExcept.throw (Interrupt.fault .wrongKind) := by
        unfold Eval.items
        rw [hitems]
        rfl
      rw [hthrow]
      exact throw_bind (.inr ⟨f, rfl, hitems, rfl⟩) _
    | some list =>
      have hpure : Eval.items f.params = Pure.pure list := by
        unfold Eval.items
        rw [hitems]
      rw [hpure]
      refine .pure ?_
      rintro g ⟨⟩
  · exact .throw (.inl ⟨_, rfl⟩)

theorem checkDepth (cfg : Config) (t : Tree) (f : Value) (name : String) (args : List Value) :
    (Eval.checkDepth cfg t name args).Talks True (Eval.Refused t f) fun _ => True := by
  unfold Eval.checkDepth
  split
  · rename_i limit _
    have hcheck : ∀ n : Nat, Talks True (Eval.Refused t f) (fun _ => True) (do
        if limit ≤ n then Eval.raiseAt t (.callDepth limit)
        Eval.debug cfg .call fun _ =>
          "call " ++ name ++ "(" ++ ", ".intercalate (args.map Value.shown) ++ ")") :=
      fun n => ite (fun _ => throw_bind (.inl ⟨_, rfl⟩) _) fun _ => .debug trivial cfg .call _
    exact .depth hcheck
  · exact .debug trivial cfg .call _

/-- A call that passes the checks has as many arguments as its function takes. -/
theorem checkCall (cfg : Config) (t : Tree) (f : Value) (args : List Value) :
    (Eval.checkCall cfg t f args).Talks True (Eval.Refused t f)
      fun _ => ∀ g, f = .native g → g.Takes args := by
  refine (signature t f).bind fun p hp => ?_
  obtain ⟨name, arity⟩ := p
  have hdepth := checkDepth cfg t f name args
  cases arity with
  | none =>
    refine hdepth.imp fun _ _ g hg n hn => ?_
    cases (hp g hg).trans hn
  | some expected =>
    refine ite (fun _ => throw_bind (.inl ⟨_, rfl⟩) _) fun hlength => ?_
    refine hdepth.imp fun _ _ g hg n hn => ?_
    cases (hp g hg).trans hn
    exact Decidable.not_not.1 hlength

end Eval.Talks

end Scriptlet
