import Mathlib.Order.Basic
import Scriptlet.Proofs.Plans

/-!
Runs that belong together. A kinship says, in a world that grows along the two runs, which values, scopes,
trees and machines of the one run belong to which of the other. Plans match if they make requests that
belong together as long as they get answers that do (`Kinship.Match`), and matching plans end alike where
machines that belong together go on to do so (`Kinship.Steady`).

A run belongs together with itself, so what a single run keeps is a kinship too: of equal parts that are
as they should be.
-/

namespace Scriptlet

variable {α α' β β' : Type}

/-- What an interrupt within a call becomes outside of it. -/
def Interrupt.fromCall (t : Tree) : Interrupt → Interrupt
  | .error e => .error (e.atNode t)
  | .noRoom => .error ({ cause := .callRoom : RuntimeError }.atNode t)
  | other => other

/-- A change of a machine that has nothing to do with scopes and functions. -/
inductive Machine.Aside : (Machine → Machine) → Prop
  | write (text : String) : Aside fun m => { m with output := m.output ++ text }
  | readLine : Aside fun m => { m with
      input := (m.input.dropWhile (· != '\n')).drop 1
      linesRead := m.linesRead + 1 }
  | readClock : Aside fun m => { m with clockReads := m.clockReads + 1 }
  | record (message : Message) : Aside fun m => m.record message
  | depth (change : Nat → Nat) : Aside fun m => { m with callDepth := change m.callDepth }

/-- Which parts of two runs belong together. -/
structure Kinship (W : Type) where
  Sound : W → Machine → Machine → Prop
  Values : W → Value → Value → Prop
  /-- Scopes that names are looked up from. -/
  Views : W → Nat → Nat → Prop
  /-- Scopes that were opened for a block, a loop or a call. -/
  Opened : W → Nat → Nat → Prop
  /-- Scopes in which a name may be bound. -/
  Binds : W → Nat → Nat → Tree → Prop
  Exprs : Tree → Tree → Prop
  /-- Statements to be carried out in these scopes. -/
  Stmts : W → Nat → Nat → Tree → Tree → Prop
  Bodies : W → Nat → Nat → Tree → Tree → Prop
  /-- Numbers of new functions. -/
  Numbers : W → Nat → Nat → Prop := fun _ => Eq
  /-- Nodes that errors get their places from. -/
  Nodes : Tree → Tree → Prop := Eq
  Names : Tree → Prop := fun _ => True
  /-- Names that may be assigned to. -/
  Targets : Tree → Prop := fun _ => True
  Stops : Interrupt → Interrupt → Prop := Eq
  /-- Interrupts of one run after which nothing is said about the other. -/
  Out : Interrupt → Prop := fun _ => False

namespace Kinship

variable {W : Type} [Preorder W] (K : Kinship W)

inductive Completes (w : W) : Completion → Completion → Prop
  | normal : Completes w .normal .normal
  | returned (hv : K.Values w v v') (ht : K.Nodes t t') :
      Completes w (.returned v t) (.returned v' t')

/-! ## Requests -/

/-- Rules that are applied to parts that belong together. -/
inductive Fits (w : W) : Job → Job → Prop
  | evaluate (hs : K.Views w s s') (ht : K.Exprs t t') : Fits w (.evaluate s t) (.evaluate s' t')
  | call (ht : K.Nodes t t') (hf : K.Values w f f') (hargs : List.Forall₂ (K.Values w) args args') :
      Fits w (.call t f args) (.call t' f' args')
  | executeAll (h : K.Bodies w s s' t t') : Fits w (.executeAll s t) (.executeAll s' t')
  | execute (h : K.Stmts w s s' t t') : Fits w (.execute s t) (.execute s' t')

def Yields (w : W) : (job job' : Job) → job.Result → job'.Result → Prop
  | .evaluate .., .evaluate .., v, v' | .call .., .call .., v, v' => K.Values w v v'
  | .executeAll .., .executeAll .., done, done' | .execute .., .execute .., done, done' =>
    K.Completes w done done'
  | _, _, _, _ => False

/-- Accesses other than calls of the standard library. -/
inductive Allows (w : W) : Access → Access → Prop
  | openScope (hs : K.Views w s s') : Allows w (.openScope s) (.openScope s')
  | define (hname : K.Names name) (hs : K.Binds w s s' name) (hv : K.Values w v v') :
      Allows w (.define s name v) (.define s' name v')
  | lookup (ht : K.Nodes t t') (hs : K.Views w s s') (hname : K.Names name) :
      Allows w (.lookup t s name) (.lookup t' s' name)
  | assign (ht : K.Nodes t t') (hs : K.Views w s s') (hname : K.Names name) (htarget : K.Targets name)
      (hv : K.Values w v v') : Allows w (.assign t s name v) (.assign t' s' name v')
  | number : Allows w .number .number
  | debug (topic : Topic) (text : String) : Allows w (.debug topic text) (.debug topic text)

def Brings (w : W) : (access access' : Access) → access.Result → access'.Result → Prop
  | .openScope _, .openScope _, s, s' => K.Opened w s s'
  | .number, .number, n, n' => K.Numbers w n n'
  | .lookup .., .lookup .., v, v' | .assign .., .assign .., v, v' => K.Values w v v'
  | .define .., .define .., _, _ | .debug .., .debug .., _, _ => True
  | _, _, _, _ => False

/-! ## Plans -/

/-- Plans that make requests that belong together, in whatever worlds they get their answers, and come to
results that do. -/
inductive Match (R : W → α → α' → Prop) : W → Plan α → Plan α' → Prop
  | give (h : R w a a') : Match R w (.give a) (.give a')
  | stop (h : K.Stops i i') : Match R w (.stop i) (.stop i')
  | ask {next : job.Result → Plan α} {next' : job'.Result → Plan α'} (h : K.Fits w job job')
      (hnext : ∀ w' r r', w ≤ w' → K.Yields w' job job' r r' → Match R w' (next r) (next' r')) :
      Match R w (.ask job next) (.ask job' next')
  | act {next : access.Result → Plan α} {next' : access'.Result → Plan α'}
      (h : K.Allows w access access')
      (hnext : ∀ w' r r', w ≤ w' → K.Brings w' access access' r r' →
        Match R w' (next r) (next' r')) : Match R w (.act access next) (.act access' next')

variable {K}

theorem Match.bind {R : W → α → α' → Prop} {S : W → β → β' → Prop} {w : W} {plan : Plan α}
    {plan' : Plan α'} {f : α → Plan β} {f' : α' → Plan β'} (h : K.Match R w plan plan')
    (hf : ∀ w' a a', w ≤ w' → R w' a a' → K.Match S w' (f a) (f' a')) :
    K.Match S w (plan >>= f) (plan' >>= f') := by
  induction h with
  | give h => exact hf _ _ _ le_rfl h
  | stop h => exact .stop h
  | ask h _ ih =>
    refine .ask h fun w' r r' hle hr => ih w' r r' hle hr fun w'' a a' hle' ha => ?_
    exact hf w'' a a' (hle.trans hle') ha
  | act h _ ih =>
    refine .act h fun w' r r' hle hr => ih w' r r' hle hr fun w'' a a' hle' ha => ?_
    exact hf w'' a a' (hle.trans hle') ha

/-! ## Results -/

variable (K) in
/-- Both computations have results that belong together or stop for reasons that do, on machines that
belong together in a larger world, unless one of them is out. -/
inductive Ends (stops : Interrupt → Interrupt → Prop) (R : W → α → α' → Prop) (w : W) :
    EStateM.Result Interrupt Machine α → EStateM.Result Interrupt Machine α' → Prop
  | ok (hle : w ≤ w') (hm : K.Sound w' m m') (h : R w' a a') : Ends stops R w (.ok a m) (.ok a' m')
  | error (hle : w ≤ w') (hm : K.Sound w' m m') (h : stops i i') :
      Ends stops R w (.error i m) (.error i' m')
  | outLeft (h : K.Out i) (m : Machine) (r : EStateM.Result Interrupt Machine α') :
      Ends stops R w (.error i m) r
  | outRight (h : K.Out i) (r : EStateM.Result Interrupt Machine α) (m : Machine) :
      Ends stops R w r (.error i m)

namespace Ends

variable {stops : Interrupt → Interrupt → Prop} {R : W → α → α' → Prop} {S : W → β → β' → Prop}
  {w : W} {m m' : Machine}

/-- The result matters in any larger world, and more results and reasons to stop may be allowed. -/
theorem imp {w' : W} {stops' : Interrupt → Interrupt → Prop} {R' : W → α → α' → Prop} (hle : w ≤ w')
    (hstops : ∀ {i i'}, stops i i' → stops' i i') (hR : ∀ {w a a'}, R w a a' → R' w a a')
    {r : EStateM.Result Interrupt Machine α} {r' : EStateM.Result Interrupt Machine α'}
    (h : K.Ends stops R w' r r') : K.Ends stops' R' w r r' := by
  cases h with
  | ok hle' hm h => exact .ok (hle.trans hle') hm (hR h)
  | error hle' hm h => exact .error (hle.trans hle') hm (hstops h)
  | outLeft h m => exact .outLeft h m r'
  | outRight h _ m => exact .outRight h r m

theorem bind {x : Eval α} {x' : Eval α'} {f : α → Eval β} {f' : α' → Eval β'}
    (h : K.Ends stops R w (x m) (x' m'))
    (hf : ∀ w' a a' n n', w ≤ w' → K.Sound w' n n' → R w' a a' →
      K.Ends stops S w' (f a n) (f' a' n')) :
    K.Ends stops S w ((x >>= f) m) ((x' >>= f') m') := by
  generalize hx : x m = r at h
  generalize hx' : x' m' = r' at h
  cases h with
  | ok hle hn ha =>
    rw [Eval.bind_of_ok hx, Eval.bind_of_ok hx']
    exact (hf _ _ _ _ _ hle hn ha).imp hle id id
  | error hle hn hi =>
    rw [Eval.bind_of_error hx, Eval.bind_of_error hx']
    exact .error hle hn hi
  | outLeft hi n =>
    rw [Eval.bind_of_error hx]
    exact .outLeft hi n _
  | outRight hi _ n =>
    rw [Eval.bind_of_error hx']
    exact .outRight hi _ n

end Ends

/-! ## Laws -/

variable (K) in
/-- What the rules rely on besides the parts of trees. -/
structure Basics : Prop where
  values_mono : w ≤ w' → K.Values w v v' → K.Values w' v v'
  views_mono : w ≤ w' → K.Views w s s' → K.Views w' s s'
  opened_mono : w ≤ w' → K.Opened w s s' → K.Opened w' s s'
  binds_mono : w ≤ w' → K.Binds w s s' name → K.Binds w' s s' name
  stmts_mono : w ≤ w' → K.Stmts w s s' t t' → K.Stmts w' s s' t t'
  stmts_views : K.Stmts w s s' t t' → K.Views w s s'
  opened_binds : K.Opened w s s' → K.Names name → K.Binds w s s' name
  scalar : K.Values w (.scalar v) (.scalar v)
  twin : K.Values w v v' → v.Twin v'
  noFuel : K.Stops .noFuel .noFuel
  raised : K.Nodes t t' → cause.Ordinary →
    K.Stops (.error (.atNode { cause } t)) (.error (.atNode { cause } t'))

variable (K) in
/-- Machines that belong together go on to do so whatever rules do to them. -/
structure Steady : Prop where
  others : K.Sound w m m' → ∃ scopes, m' = { m with scopes }
  aside {m m' : Machine} : Machine.Aside f → K.Sound w m m' → K.Sound w (f m) (f m')
  push : K.Sound w m m' → K.Views w s s' → ∃ w', w ≤ w' ∧
    K.Opened w' m.scopes.all.size m'.scopes.all.size ∧
    K.Sound w' { m with scopes := (m.scopes.push (some s)).2 }
      { m' with scopes := (m'.scopes.push (some s')).2 }
  define : K.Sound w m m' → K.Binds w s s' name → Name.ofTree? name = some key → K.Values w v v' →
    K.Sound w { m with scopes := m.scopes.define s key v }
      { m' with scopes := m'.scopes.define s' key v' }
  get : K.Sound w m m' → K.Views w s s' → ∀ key : Name,
    Option.Rel (K.Values w) (m.scopes.get? s key) (m'.scopes.get? s' key)
  assign : K.Sound w m m' → K.Views w s s' → K.Targets name → Name.ofTree? name = some key →
    K.Values w v v' → Option.Rel (fun k k' => K.Sound w
      { m with scopes := m.scopes.define k key v } { m' with scopes := m'.scopes.define k' key v' })
      (m.scopes.find? s key) (m'.scopes.find? s' key)
  number : K.Sound w m m' → ∃ w', w ≤ w' ∧ K.Numbers w' m.nextClosure m'.nextClosure ∧
    K.Sound w' { m with nextClosure := m.nextClosure + 1 }
      { m' with nextClosure := m'.nextClosure + 1 }
  unnamed : K.Names name → Name.ofTree? name = none →
    K.Stops (.fault .wrongKind) (.fault .wrongKind)

variable (K) in
/-- What calls make of interrupts. -/
structure Calls : Prop extends K.Steady where
  tooDeep : K.Nodes t t' → K.Stops (.error (.atNode { cause := .callDepth limit } t))
    (.error (.atNode { cause := .callDepth limit } t'))
  called : K.Nodes t t' → K.Stops i i' → K.Stops (i.fromCall t) (i'.fromCall t')
  out : K.Out i → ∀ t, K.Out (i.fromCall t)

variable (K) in
/-- Interrupts within a call, where errors need no place yet. -/
def Loose (i i' : Interrupt) : Prop :=
  K.Stops i i' ∨ ∃ cause : Cause, cause.Ordinary ∧ i = .error { cause } ∧ i' = .error { cause }

variable (K) in
/-- In some rooms, which may differ, rules that are applied to parts that belong together end alike. -/
def Runs (cfg : Config) (room room' : Nat) : Prop :=
  ∀ {w m m' job job'}, K.Sound w m m' → K.Fits w job job' →
    K.Ends K.Stops (K.Yields · job job') w (job.run cfg room m) (job'.run cfg room' m')

namespace Steady

variable (hK : K.Steady) {cfg : Config} {R : W → α → α' → Prop} {w : W} {m m' : Machine}
include hK

theorem debug (topic : Topic) (text : Unit → String) (hm : K.Sound w m m') :
    K.Ends K.Stops (fun _ _ _ => True) w (Eval.debug cfg topic text m)
      (Eval.debug cfg topic text m') := by
  unfold Eval.debug
  split
  · exact .ok le_rfl (hK.aside (.record _) hm) trivial
  · exact .ok le_rfl hm trivial

theorem talks {traces : Prop} {throws : Interrupt → Prop} {wanted : α → Prop} {x : Eval α}
    (h : x.Talks traces throws wanted) (hm : K.Sound w m m') :
    K.Ends (fun i i' => i = i' ∧ throws i) (fun _ a a' => a = a' ∧ wanted a) w (x m) (x m') := by
  induction h generalizing w m m' with
  | pure h => exact .ok le_rfl hm ⟨rfl, h⟩
  | throw h => exact .error le_rfl hm ⟨rfl, h⟩
  | write text => exact .ok le_rfl (hK.aside (.write text) hm) ⟨rfl, trivial⟩
  | readLine =>
    have hm' := hK.aside .readLine hm
    obtain ⟨scopes, rfl⟩ := hK.others hm
    exact .ok le_rfl hm' ⟨rfl, trivial⟩
  | readClock =>
    have hm' := hK.aside .readClock hm
    obtain ⟨scopes, rfl⟩ := hK.others hm
    exact .ok le_rfl hm' ⟨rfl, trivial⟩
  | debug _ cfg topic text =>
    unfold Eval.debug
    split
    · exact .ok le_rfl (hK.aside (.record _) hm) ⟨rfl, trivial⟩
    · exact .ok le_rfl hm ⟨rfl, trivial⟩
  | depth _ ih =>
    obtain ⟨scopes, rfl⟩ := hK.others hm
    exact ih m.callDepth hm
  | bind _ _ ihx ihf =>
    refine (ihx hm).bind fun w' a a' n n' _ hn ha => ?_
    obtain ⟨rfl, ha⟩ := ha
    exact ihf a ha hn

variable (hB : K.Basics)
include hB

theorem access {a a' : Access} (hm : K.Sound w m m') (h : K.Allows w a a') :
    K.Ends K.Stops (K.Brings · a a') w (a.run cfg m) (a'.run cfg m') := by
  cases h with
  | openScope hs =>
    obtain ⟨w', hle, hopened, hm'⟩ := hK.push hm hs
    exact .ok hle hm' hopened
  | number =>
    obtain ⟨w', hle, hnumber, hm'⟩ := hK.number hm
    exact .ok hle hm' hnumber
  | debug topic text => exact hK.debug topic (fun _ => text) hm
  | @define name s s' v v' hname hs hv =>
    cases hkey : Name.ofTree? name with
    | none =>
      simp only [Access.run, Eval.define, Eval.nameOf, hkey]
      exact .error le_rfl hm (hK.unnamed hname hkey)
    | some key =>
      simp only [Access.run, Eval.define, Eval.nameOf, hkey]
      exact .ok le_rfl (hK.define hm hs hkey hv) trivial
  | @lookup t t' s s' name ht hs hname =>
    simp only [Access.run, Eval.located]
    cases hkey : Name.ofTree? name with
    | none =>
      simp only [Eval.lookup, Eval.nameOf, hkey]
      exact .error le_rfl hm (hK.unnamed hname hkey)
    | some key =>
      have hget := hK.get hm hs key
      generalize hfound : m.scopes.get? s key = found at hget
      generalize hfound' : m'.scopes.get? s' key = found' at hget
      cases hget with
      | none =>
        rw [Eval.lookup_of_none hkey hfound, Eval.lookup_of_none hkey hfound']
        exact .error le_rfl hm (hB.raised ht trivial)
      | some hv =>
        rw [Eval.lookup_of_some hkey hfound, Eval.lookup_of_some hkey hfound']
        exact .ok le_rfl hm hv
  | @assign t t' s s' name v v' ht hs hname htarget hv =>
    simp only [Access.run, Eval.located]
    cases hkey : Name.ofTree? name with
    | none =>
      simp only [Eval.assign, Eval.nameOf, hkey]
      exact .error le_rfl hm (hK.unnamed hname hkey)
    | some key =>
      have hassign := hK.assign hm hs htarget hkey hv
      generalize hfound : m.scopes.find? s key = found at hassign
      generalize hfound' : m'.scopes.find? s' key = found' at hassign
      cases hassign with
      | none =>
        rw [Eval.assign_of_none hkey hfound, Eval.assign_of_none hkey hfound']
        exact .error le_rfl hm (hB.raised ht trivial)
      | some hn =>
        rw [Eval.assign_of_some hkey hfound, Eval.assign_of_some hkey hfound']
        exact .ok le_rfl hn hv

/-- A function of the standard library that gets as many arguments as it takes. -/
theorem native (cfg : Config) {f : Native} {args args' : List Value} (hm : K.Sound w m m')
    (hargs : List.Forall₂ (K.Values w) args args') (htakes : f.Takes args) :
    K.Ends K.Loose K.Values w (f.call cfg args m) (f.call cfg args' m') := by
  rw [← f.call_congr cfg (hargs.imp fun _ _ => hB.twin)]
  refine (hK.talks (.native cfg f args) hm).imp le_rfl ?_ ?_
  · rintro i _ ⟨rfl, hi⟩
    cases i with
    | error e =>
      obtain ⟨cause, place⟩ := e
      obtain ⟨hcause, rfl⟩ := hi
      exact .inr ⟨cause, hcause, rfl, rfl⟩
    | fault => exact absurd htakes hi
    | noRoom | noFuel => exact hi.elim
  · rintro w v _ ⟨rfl, s, rfl⟩
    exact hB.scalar

/-- Matching plans end alike in rooms in which the rules do. -/
theorem plan {room room' : Nat} (hrules : K.Runs cfg room room') {plan : Plan α} {plan' : Plan α'}
    (h : K.Match R w plan plan') (hm : K.Sound w m m') :
    K.Ends K.Stops R w (plan.run cfg room m) (plan'.run cfg room' m') := by
  induction h generalizing m m' with
  | give h => exact .ok le_rfl hm h
  | stop h => exact .error le_rfl hm h
  | ask h _ ih => exact (hrules hm h).bind fun w' r r' n n' hle hn hr => ih w' r r' hle hr hn
  | act h _ ih => exact (hK.access hB hm h).bind fun w' r r' n n' hle hn hr => ih w' r r' hle hr hn

end Steady

theorem Calls.deeper (hK : K.Calls) (hB : K.Basics) {R : W → α → α' → Prop} {w : W} {m m' : Machine}
    {t t' : Tree} (ht : K.Nodes t t') {x : Eval α} {x' : Eval α'} (hm : K.Sound w m m')
    (h : ∀ {n n'}, K.Sound w n n' → K.Ends K.Loose R w (x n) (x' n')) :
    K.Ends K.Stops R w (Eval.deeper t x m) (Eval.deeper t' x' m') := by
  have hinner := h (hK.aside (.depth (· + 1)) hm)
  unfold Eval.deeper
  generalize x { m with callDepth := m.callDepth + 1 } = r at hinner
  generalize x' { m' with callDepth := m'.callDepth + 1 } = r' at hinner
  cases hinner with
  | ok hle hn ha => exact .ok hle (hK.aside (.depth (· - 1)) hn) ha
  | error hle hn hi =>
    refine .error hle (hK.aside (.depth (· - 1)) hn) ?_
    rcases hi with hi | ⟨cause, hcause, rfl, rfl⟩
    · exact hK.called ht hi
    · exact hB.raised ht hcause
  | outLeft hi n => exact .outLeft (hK.out hi t) _ _
  | outRight hi _ n => exact .outRight (hK.out hi t') _ _

end Kinship

end Scriptlet
