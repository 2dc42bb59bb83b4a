import Scriptlet.Proofs.MoreRoom
import Scriptlet.Proofs.ScopeStore

/-!
A `for` loop and its `while` form: a block that holds the first clause and a `while` loop, whose body is a
block of the body and the last clause. Both forms open a scope for the loop. In each round the `while`
form opens one more, in which nothing is ever bound, so its scopes are laid out differently: the body is a
block and binds its names in a scope of its own, and the last clause is an expression.

The `while` form nests deeper. Both forms are put together from the same parts (`Eval.loop`), which get
less room in the `while` form, so in the same room it can run out where the `for` loop does not.
-/

namespace Scriptlet

/-! ## The two forms

Each node has its own place, as trees may come from anywhere. -/

/-- The places of the nodes that are only in the `while` form. -/
structure LoopPlaces where
  block : Tree × Tree
  loop : Tree × Tree
  round : Tree × Tree
  init : Tree × Tree
  test : Tree × Tree
  update : Tree × Tree

namespace Tree

/-- `for (init; test; update) body` -/
def forLoop (place : Tree × Tree) (init test update body : Tree) : Tree :=
  .node .forStatement place.1 place.2 [init, test, update, body]

/-- `e;` -/
def asStatement (place : Tree × Tree) (e : Tree) : Tree :=
  .node .expressionStatement place.1 place.2 [e]

/-- The first clause of a `for` loop as statements. -/
def initStatements (place : Tree × Tree) : Tree → List Tree
  | .null => []
  | .node .variableStatement start stop fields => [.node .variableStatement start stop fields]
  | e => [e.asStatement place]

/-- A test that is left out holds. -/
def orTrue (place : Tree × Tree) : Tree → Tree
  | .null => .node .booleanLiteral place.1 place.2 [.bool true]
  | test => test

/-- The last clause of a `for` loop as statements. -/
def updateStatements (place : Tree × Tree) : Tree → List Tree
  | .null => []
  | e => [e.asStatement place]

/-- `{ init; while (test) { body update; } }` -/
def whileForm (places : LoopPlaces) (init test update body : Tree) : Tree :=
  .node .blockStatement places.block.1 places.block.2
    [.list (initStatements places.init init ++
      [.node .whileStatement places.loop.1 places.loop.2
        [orTrue places.test test,
         .node .blockStatement places.round.1 places.round.2
          [.list (body :: updateStatements places.update update)]]])]

def IsBlock (t : Tree) : Prop :=
  ∃ start stop fields, t = .node .blockStatement start stop fields

end Tree

/-! ## The parts of a loop -/

namespace Eval

section Parts

variable (cfg : Config)

/-- The first clause. Declarations are carried out in one room, expressions evaluated in another. -/
def loopInit (room inner : Nat) (init : Tree) (k : Nat) : Eval Unit :=
  match init with
  | .null => pure ()
  | .node .variableStatement .. => do
    let _ ← execute cfg room k init
  | init => do
    let _ ← evaluate cfg inner k init

def loopTest (room : Nat) (test : Tree) (k : Nat) : Eval Bool :=
  match test with
  | .null => pure true
  | test => do
    return (← evaluate cfg room k test).isTruthy

def loopUpdate (room : Nat) (update : Tree) (k : Nat) : Eval Unit :=
  match update with
  | .null => pure ()
  | update => do
    let _ ← evaluate cfg room k update

/-- The body and then the last clause, each in its room. -/
def loopStep (room inner : Nat) (update body : Tree) (k : Nat) : Eval Completion := do
  match ← execute cfg room k body with
  | .normal =>
    loopUpdate cfg inner update k
    return .normal
  | done => return done

def loopRound (test : Eval Bool) (step : Eval Completion) : Eval (Option Completion) := do
  if ← test then
    match ← step with
    | .normal => return none
    | done => return some done
  else return some .normal

/-- A loop in a scope of its own. -/
def loop (s : Nat) (init : Nat → Eval Unit) (test : Nat → Eval Bool) (step : Nat → Eval Completion) :
    Eval Completion := do
  let k ← openScope s
  init k
  iterate (loopRound (test k) (step k)) cfg.fuel

end Parts

/-! ### The `for` loop -/

variable {cfg : Config} {room s k : Nat} {init test update body : Tree}

theorem debug_condition (h : cfg.debugLevel < 3) (text : Unit → String) :
    debug cfg .condition text = pure () := by
  have hlevel : ¬ (0 < cfg.debugLevel ∧ Topic.level .condition ≤ cfg.debugLevel) := by
    rintro ⟨-, hle⟩
    exact absurd h (Int.not_lt.2 hle)
  rw [debug, if_neg hlevel]

theorem forBody_eq (go : Bool) :
    forBody cfg room k update body go =
      loopRound (pure go) (loopStep cfg room room update body k) := by
  unfold forBody loopRound loopStep
  rw [pure_bind]
  cases go with
  | false => rfl
  | true =>
    simp only [if_true, bind_assoc]
    refine bind_congr fun done => ?_
    cases done with
    | returned => rfl
    | normal =>
      simp only [bind_assoc, pure_bind]
      unfold loopUpdate
      split
      · rfl
      · simp only [bind_assoc, pure_bind]

theorem forRound_eq (h : cfg.debugLevel < 3) :
    forRound cfg room k test update body =
      loopRound (loopTest cfg room test k) (loopStep cfg room room update body k) := by
  rw [← Plan.run_forRound, Plan.forRound, Plan.run_bind]
  simp only [Plan.run_forBody, forBody_eq]
  unfold Plan.forTest loopTest
  split
  · rfl
  · simp only [Plan.run_bind, Plan.run_evaluate, Plan.run_debug, Plan.run_pure, debug_condition h,
      loopRound, bind_assoc, pure_bind]

theorem execute_forLoop (h : cfg.debugLevel < 3) (place : Tree × Tree) :
    execute cfg (room + 1) s (.forLoop place init test update body) =
      loop cfg s (loopInit cfg room room init) (loopTest cfg room test)
        (loopStep cfg room room update body) := by
  rw [Tree.forLoop, execute_for]
  refine bind_congr fun k => ?_
  rw [forRound_eq h]
  unfold loopInit
  split
  · rfl
  · simp only [bind_assoc, pure_bind]
  · simp only [bind_assoc, pure_bind]

/-! ### The `while` form -/

/-- Declarations give no result, so what comes after them is carried out. -/
theorem execute_variables_bind {α : Type} (start stop : Tree) (fields : List Tree)
    (next : Completion → Eval α) :
    execute cfg (room + 1) k (.node .variableStatement start stop fields) >>= next =
      execute cfg (room + 1) k (.node .variableStatement start stop fields) >>=
        fun _ => next .normal := by
  rcases fields with _ | ⟨declarations, _ | ⟨other, rest⟩⟩
  · rfl
  · rw [execute_variables]
    simp only [bind_assoc, pure_bind]
  · rfl

theorem runAll_single (step : Tree → Eval Completion) (t : Tree) : runAll step [t] = step t := by
  funext m
  rw [runAll]
  cases hr : step t m with
  | error i m' => exact bind_of_error hr
  | ok done m' =>
    rw [bind_of_ok hr]
    cases done <;> rfl

theorem execute_asStatement (place : Tree × Tree) (e : Tree) :
    execute cfg (room + 1) k (e.asStatement place) = (do
      let _ ← evaluate cfg room k e
      return .normal) := by
  rw [Tree.asStatement, execute]

theorem runAll_initStatements (place : Tree × Tree) (t : Tree) :
    runAll (execute cfg (room + 1) k) (Tree.initStatements place init ++ [t]) = (do
      loopInit cfg (room + 1) room init k
      execute cfg (room + 1) k t) := by
  unfold Tree.initStatements loopInit
  split
  · exact runAll_single _ t
  · rw [List.singleton_append, runAll, execute_variables_bind, runAll_single]
    simp only [bind_assoc, pure_bind]
  · rw [List.singleton_append, runAll, execute_asStatement, runAll_single]
    simp only [bind_assoc, pure_bind]

theorem evaluate_orTrue (place : Tree × Tree) :
    (do return (← evaluate cfg (room + 1) k (test.orTrue place)).isTruthy : Eval Bool) =
      loopTest cfg (room + 1) test k := by
  unfold Tree.orTrue loopTest
  split
  · rw [evaluate]
    rfl
  · rfl

theorem runAll_updateStatements (place : Tree × Tree) :
    runAll (execute cfg (room + 1) k) (body :: Tree.updateStatements place update) =
      loopStep cfg (room + 1) room update body k := by
  rw [runAll, loopStep]
  refine bind_congr fun done => ?_
  cases done with
  | returned => rfl
  | normal =>
    dsimp only
    unfold Tree.updateStatements loopUpdate
    split
    · rfl
    · rw [runAll_single, execute_asStatement]
      simp only [bind_assoc, pure_bind]

theorem execute_list (place : Tree × Tree) (list : List Tree) :
    execute cfg (room + 2) s (.node .blockStatement place.1 place.2 [.list list]) = (do
      runAll (execute cfg room (← openScope s)) list) := by
  rw [execute]
  refine bind_congr fun k => ?_
  rw [executeAll]
  rfl

theorem execute_while (place : Tree × Tree) (test body : Tree) :
    execute cfg (room + 1) k (.node .whileStatement place.1 place.2 [test, body]) =
      iterate (loopRound (do return (← evaluate cfg room k test).isTruthy)
        (execute cfg room k body)) cfg.fuel := by
  have hround : loopRound (do return (← evaluate cfg room k test).isTruthy) (execute cfg room k body) =
      evaluate cfg room k test >>= fun v => loopRound (pure v.isTruthy) (execute cfg room k body) := by
    simp only [loopRound, bind_assoc, pure_bind]
  rw [execute, hround]
  rfl

theorem execute_whileForm (places : LoopPlaces) :
    execute cfg (room + 6) s (.whileForm places init test update body) =
      loop cfg s (loopInit cfg (room + 4) (room + 3) init) (loopTest cfg (room + 3) test)
        (fun k => openScope k >>= loopStep cfg (room + 1) room update body) := by
  rw [Tree.whileForm, execute_list]
  refine bind_congr fun k => ?_
  rw [runAll_initStatements]
  refine bind_congr fun _ => ?_
  rw [execute_while, evaluate_orTrue, execute_list]
  simp only [runAll_updateStatements]

/-! ### More room -/

section Room

variable {room' inner inner' : Nat}

theorem iterate_succ {α : Type} (once : Eval (Option α)) (n : Nat) :
    iterate once (n + 1) = (do
      match ← once with
      | none => iterate once n
      | some a => return a) := by
  funext m
  rw [iterate]
  cases hr : once m with
  | error i m' => exact (bind_of_error hr).symm
  | ok r m' =>
    rw [bind_of_ok hr]
    cases r <;> rfl

theorem Grows.iterate {α : Type} {x y : Eval (Option α)} (h : x.Grows y) (n : Nat) :
    (iterate x n).Grows (iterate y n) := by
  induction n with
  | zero => exact .refl _
  | succ n ih =>
    rw [iterate_succ, iterate_succ]
    apply h.bind
    intro r
    cases r with
    | none => exact ih
    | some a => exact .refl _

theorem execute_grows (cfg : Config) (hroom : room ≤ room') (s : Nat) (t : Tree) :
    (execute cfg room s t).Grows (execute cfg room' s t) :=
  Job.grows cfg hroom (.execute s t)

theorem execute_zero (s : Nat) (t : Tree) (m : Machine) : RunsOut (execute cfg 0 s t m) := by
  rw [execute]
  trivial

theorem loopInit_grows (hroom : room ≤ room') (hinner : inner ≤ inner') :
    (loopInit cfg room inner init k).Grows (loopInit cfg room' inner' init k) := by
  unfold loopInit
  split
  · exact .refl _
  · exact (execute_grows cfg hroom k _).bind fun _ => .refl _
  · exact (Job.grows cfg hinner (.evaluate k _)).bind fun _ => .refl _

theorem loopTest_grows (hroom : room ≤ room') :
    (loopTest cfg room test k).Grows (loopTest cfg room' test k) := by
  unfold loopTest
  split
  · exact .refl _
  · exact (Job.grows cfg hroom (.evaluate k _)).bind fun _ => .refl _

theorem loopUpdate_grows (hroom : room ≤ room') :
    (loopUpdate cfg room update k).Grows (loopUpdate cfg room' update k) := by
  unfold loopUpdate
  split
  · exact .refl _
  · exact (Job.grows cfg hroom (.evaluate k _)).bind fun _ => .refl _

theorem loopStep_grows (hroom : room ≤ room') (hinner : inner ≤ inner') :
    (loopStep cfg room inner update body k).Grows (loopStep cfg room' inner' update body k) := by
  apply (execute_grows cfg hroom k body).bind
  intro done
  cases done with
  | normal => exact (loopUpdate_grows hinner).bind fun _ => .refl _
  | returned => exact .refl _

theorem Grows.loopRound {test test' : Eval Bool} {step step' : Eval Completion}
    (htest : test.Grows test') (hstep : step.Grows step') :
    (loopRound test step).Grows (loopRound test' step') := by
  apply htest.bind
  intro go
  cases go with
  | false => exact .refl _
  | true => exact hstep.bind fun _ => .refl _

theorem Grows.loop {init init' : Nat → Eval Unit} {test test' : Nat → Eval Bool}
    {step step' : Nat → Eval Completion} (hinit : ∀ k, (init k).Grows (init' k))
    (htest : ∀ k, (test k).Grows (test' k)) (hstep : ∀ k, (step k).Grows (step' k)) :
    (loop cfg s init test step).Grows (loop cfg s init' test' step') :=
  (Grows.refl _).bind fun k => (hinit k).bind fun _ => ((htest k).loopRound (hstep k)).iterate cfg.fuel

end Room

/-- The `while` form has room enough for its parts. -/
theorem grows_execute_whileForm (places : LoopPlaces) :
    (loop cfg s (loopInit cfg room room init) (loopTest cfg room test)
      (fun k => openScope k >>= loopStep cfg room room update body)).Grows
      (execute cfg (room + 6) s (.whileForm places init test update body)) := by
  rw [execute_whileForm]
  apply Grows.loop
  · exact fun k => loopInit_grows (by omega) (by omega)
  · exact fun k => loopTest_grows (by omega)
  · exact fun k => (Grows.refl _).bind fun inner => loopStep_grows (by omega) (by omega)

/-! ### Less room

Where the parts of the `while` form have no room at all, it runs out of it. -/

theorem execute_list_grows (place : Tree × Tree) (list : List Tree) :
    (execute cfg room s (.node .blockStatement place.1 place.2 [.list list])).Grows (do
      runAll (execute cfg (room - 2) (← openScope s)) list) := by
  rcases room with _ | _ | room
  · rw [execute]
    exact .noRoom _
  · rw [execute]
    apply (Grows.refl _).bind
    intro k
    rw [executeAll]
    exact .noRoom _
  · rw [execute_list]
    exact .refl _

theorem runAll_initStatements_grows (place : Tree × Tree) (t : Tree) :
    (runAll (execute cfg room k) (Tree.initStatements place init ++ [t])).Grows (do
      loopInit cfg room (room - 1) init k
      execute cfg room k t) := by
  cases room with
  | succ room =>
    rw [runAll_initStatements]
    exact .refl _
  | zero =>
    unfold Tree.initStatements
    split
    all_goals
      intro m
      left
      trivial

theorem evaluate_orTrue_grows (place : Tree × Tree) :
    (do return (← evaluate cfg room k (test.orTrue place)).isTruthy : Eval Bool).Grows
      (loopTest cfg room test k) := by
  cases room with
  | zero =>
    rw [evaluate]
    exact .noRoom _
  | succ room =>
    rw [evaluate_orTrue]
    exact .refl _

theorem runAll_updateStatements_grows (place : Tree × Tree) :
    (runAll (execute cfg room k) (body :: Tree.updateStatements place update)).Grows
      (loopStep cfg room (room - 1) update body k) := by
  cases room with
  | zero =>
    rw [runAll, execute]
    exact .noRoom _
  | succ room =>
    rw [runAll_updateStatements]
    exact .refl _

theorem execute_while_grows (place : Tree × Tree) (test body : Tree) :
    (execute cfg room k (.node .whileStatement place.1 place.2 [test, body])).Grows
      (iterate (loopRound (do return (← evaluate cfg (room - 1) k test).isTruthy)
        (execute cfg (room - 1) k body)) cfg.fuel) := by
  cases room with
  | zero =>
    rw [execute]
    exact .noRoom _
  | succ room =>
    rw [execute_while]
    exact .refl _

/-- The parts of the `while` form have less room than the form itself. -/
theorem execute_whileForm_grows (places : LoopPlaces) :
    (execute cfg (room + 1) s (.whileForm places init test update body)).Grows
      (loop cfg s (loopInit cfg room room init) (loopTest cfg room test)
        (fun k => openScope k >>= loopStep cfg room room update body)) := by
  apply (execute_list_grows places.block _).trans
  apply (Grows.refl _).bind
  intro k
  apply (runAll_initStatements_grows places.init _).trans
  apply Grows.bind (loopInit_grows (by omega) (by omega))
  intro _
  apply (execute_while_grows places.loop _ _).trans
  apply Grows.iterate
  apply Grows.loopRound
  · exact (evaluate_orTrue_grows places.test).trans (loopTest_grows (by omega))
  · apply (execute_list_grows places.round _).trans
    apply (Grows.refl _).bind
    intro inner
    exact (runAll_updateStatements_grows places.update).trans (loopStep_grows (by omega) (by omega))

end Eval

/-! ## Agreement -/

/-- The same interrupt on both machines, or results that differ as the layout says. -/
inductive Carried {α : Type} (L : Layout) (f : α → α) :
    EStateM.Result Interrupt Machine α → EStateM.Result Interrupt Machine α → Prop
  | ok {m m' : Machine} (hm : Moved L m m') (a : α) : Carried L f (.ok a m) (.ok (f a) m')
  | error {m m' : Machine} (hm : Moved L m m') (i : Interrupt) :
      Carried L f (.error i m) (.error i m')

/-- Ways to end that belong together differ as the layout says. -/
theorem Carried.of_ends {L : Layout} {w : Ledger} {r r' : EStateM.Result Interrupt Machine Completion}
    (h : (storing anyWord L).Ends Eq (storing anyWord L).Completes w r r') : Carried L (·.moved L) r r' := by
  cases h with
  | ok _ hm hdone =>
    cases hdone with
    | normal => exact .ok hm.2 Completion.normal
    | @returned v _ t _ hv ht =>
      obtain ⟨rfl, -⟩ := hv
      cases ht
      exact .ok hm.2 (Completion.returned v t)
  | error _ hm hi =>
    cases hi
    exact .error hm.2 _
  | outLeft hi | outRight hi => exact hi.elim

/-- A machine that refers only to scopes that exist has a ledger: all functions so far could have been
declared just now. -/
theorem Machine.Closed.describes {m : Machine} (h : m.Closed) :
    ∃ w : Ledger, w.Describes anyWord m := by
  have holder : ∀ i parent : Nat,
      (m.scopes.all.toList.map (·.parent))[i]? = some (some parent) → parent < i := by
    intro i parent hi
    rw [List.getElem?_map, Array.getElem?_toList] at hi
    obtain ⟨scope, hscope, hparent⟩ := Option.map_eq_some_iff.1 hi
    exact h.older hscope hparent
  have hborn : ∀ born ∈ List.replicate m.nextClosure m.scopes.all.size,
      born ≤ (m.scopes.all.toList.map (·.parent)).length := by
    intro born hmem
    rw [List.eq_of_mem_replicate hmem, List.length_map, Array.length_toList]
  refine ⟨⟨_, _, holder, hborn⟩, rfl, List.length_replicate, ?_, ?_⟩
  · intro scope hscope binding hbinding
    obtain ⟨s, hs⟩ := Array.getElem?_of_mem hscope
    cases hf : binding.2 with
    | scalar | native | data => trivial
    | closure f =>
      obtain ⟨hlt, hid⟩ := h.declared hs hbinding hf
      refine ⟨⟨m.scopes.all.size, ?_, hlt⟩, fun _ _ => rfl⟩
      rw [List.getElem?_replicate, if_pos hid]
  · rintro _ _ ⟨⟩

/-- Whatever programs are run on a machine, it refers only to scopes that exist. -/
theorem Session.closed {input : String} {moments : List Moment} {m : Machine}
    (h : Session (.initial input) moments m) : m.Closed := by
  obtain ⟨w, -, hw⟩ := h.along
  exact hw.closed

/-! ### Parts of loops -/

section Parts

variable {L : Layout} {w : Ledger} {m m' : Machine} {cfg : Config} {room : Nat}
  {init test update body : Tree} {k k' : Nat} (hm : (storing anyWord L).Sound w m m')
include hm

theorem evaluate_ends (hk : (storing anyWord L).Views w k k') (t : Tree) :
    (storing anyWord L).Ends Eq (storing anyWord L).Values w (Eval.evaluate cfg room k t m)
      (Eval.evaluate cfg room k' t m') :=
  storing.runs cfg room hm (.evaluate hk ⟨rfl, fun _ _ => rfl⟩)

theorem execute_ends (hhas : w.Has k) (t : Tree) :
    (storing anyWord L).Ends Eq (storing anyWord L).Completes w (Eval.execute cfg room k t m)
      (Eval.execute cfg room (L.home k) t m') :=
  storing.runs cfg room hm (.execute ⟨rfl, rfl, hhas, fun _ _ => rfl, fun _ _ _ => rfl⟩)

/-- A block binds its names in a scope of its own, so it can be carried out in any scope that stands for
the one it belongs in. -/
theorem block_ends (hk : (storing anyWord L).Views w k k') (hbody : body.IsBlock) :
    (storing anyWord L).Ends Eq (storing anyWord L).Completes w (Eval.execute cfg room k body m)
      (Eval.execute cfg room k' body m') := by
  cases room with
  | zero =>
    rw [Eval.execute, Eval.execute]
    exact .error le_rfl hm rfl
  | succ room =>
    have hparts : (storing anyWord L).StmtParts w k k' body body := by
      obtain ⟨start, stop, fields, rfl⟩ := hbody
      rcases fields with _ | ⟨list, _ | ⟨other, rest⟩⟩
      · exact .other (fun _ => rfl) (fun _ => rfl) rfl
      · exact .node (.block fun _ hs => ⟨rfl, storing.sameTrees.opened hs fun _ _ => rfl⟩)
      · exact .other (fun _ => rfl) (fun _ => rfl) rfl
    rw [← Plan.run_executing, ← Plan.run_executing]
    exact storing.calls.plan storing.basics (storing.runs cfg room)
      (storing.lawful.executing cfg.fuel hk hparts) hm

theorem loopInit_ends (hhas : w.Has k) :
    (storing anyWord L).Ends Eq (fun _ _ _ => True) w (Eval.loopInit cfg room room init k m)
      (Eval.loopInit cfg room room init (L.home k) m') := by
  unfold Eval.loopInit
  split
  · exact .ok le_rfl hm trivial
  · exact (execute_ends hm hhas _).bind fun _ _ _ _ _ _ hn _ => .ok le_rfl hn trivial
  · exact (evaluate_ends hm ⟨L.stands_home k, hhas⟩ _).bind fun _ _ _ _ _ _ hn _ =>
      .ok le_rfl hn trivial

theorem loopTest_ends (hhas : w.Has k) :
    (storing anyWord L).Ends Eq (fun _ => Eq) w (Eval.loopTest cfg room test k m)
      (Eval.loopTest cfg room test (L.home k) m') := by
  unfold Eval.loopTest
  split
  · exact .ok le_rfl hm rfl
  · refine (evaluate_ends hm ⟨L.stands_home k, hhas⟩ _).bind fun _ v v' _ _ _ hn hv => ?_
    exact .ok le_rfl hn (storing.basics.twin hv).isTruthy

theorem loopStep_ends (hk : (storing anyWord L).Views w k k') (hbody : body.IsBlock) :
    (storing anyWord L).Ends Eq (storing anyWord L).Completes w
      (Eval.loopStep cfg room room update body k m)
      (Eval.loopStep cfg room room update body k' m') := by
  refine (block_ends hm hk hbody).bind fun w₁ done done' n n' hle hn hdone => ?_
  cases hdone with
  | returned hv ht => exact .ok le_rfl hn (.returned hv ht)
  | normal =>
    have hupdate : (storing anyWord L).Ends Eq (fun _ _ _ => True) w₁
        (Eval.loopUpdate cfg room update k n) (Eval.loopUpdate cfg room update k' n') := by
      unfold Eval.loopUpdate
      split
      · exact .ok le_rfl hn trivial
      · exact (evaluate_ends hn (storing.basics.views_mono hle hk) _).bind fun _ _ _ _ _ _ hn _ =>
          .ok le_rfl hn trivial
    exact hupdate.bind fun _ _ _ _ _ _ hn _ => .ok le_rfl hn .normal

end Parts

/-! ### Loops -/

section Loops

variable (cfg : Config) (room : Nat) (init test update : Tree) {body : Tree} (hbody : body.IsBlock)
  {L : Layout} {w : Ledger} {m m' : Machine} {k : Nat}
include hbody

/-- A round of the `while` form opens a scope that the `for` loop does not open, and from then on the
scopes are laid out differently. Those that were there keep their homes. -/
theorem loopRound_ends (hm : (storing anyWord L).Sound w m m') (hhas : w.Has k) :
    ∃ L' : Layout, (∀ j, w.Has j → L'.home j = L.home j) ∧
      (storing anyWord L').Ends Eq (storing anyWord L').Rounds w
        (Eval.loopRound (Eval.loopTest cfg room test k)
          (Eval.loopStep cfg room room update body k) m)
        (Eval.loopRound (Eval.loopTest cfg room test (L.home k))
          (Eval.openScope (L.home k) >>= Eval.loopStep cfg room room update body) m') := by
  have htest : (storing anyWord L).Ends Eq (fun _ => Eq) w (Eval.loopTest cfg room test k m)
      (Eval.loopTest cfg room test (L.home k) m') := loopTest_ends hm hhas
  generalize hx : Eval.loopTest cfg room test k m = r at htest
  generalize hy : Eval.loopTest cfg room test (L.home k) m' = r' at htest
  unfold Eval.loopRound
  cases htest with
  | outLeft hi | outRight hi => exact hi.elim
  | error hle hn hi =>
    rw [Eval.bind_of_error hx, Eval.bind_of_error hy]
    exact ⟨L, fun _ _ => rfl, .error hle hn hi⟩
  | @ok w' n n' go _ hle hn hgo =>
    rw [Eval.bind_of_ok hx, Eval.bind_of_ok hy, ← hgo]
    obtain ⟨hw', hn⟩ := hn
    cases go with
    | false => exact ⟨L, fun _ _ => rfl, .ok hle ⟨hw', hn⟩ (.some .normal)⟩
    | true =>
      have hlt : ∀ j, w.Has j → j < n.scopes.all.size := by
        intro j hj
        rw [hw'.size]
        exact hj.mono hle
      have hopen := hn.open_spare (L.home k) hw'.closed (hn.home_lt (hlt k hhas))
      have hstands : (hn.layout (L.home k)).stands n'.scopes.all.size = k :=
        (hn.stands_layout_new (L.home k)).trans (L.stands_home k)
      refine ⟨hn.layout (L.home k), fun j hj => hn.home_layout _ (hlt j hj), .imp hle id id ?_⟩
      refine Kinship.Ends.bind (loopStep_ends ⟨hw', hopen⟩ ⟨hstands, hhas.mono hle⟩ hbody)
        fun _ done done' _ _ _ hn hdone => ?_
      cases hdone with
      | normal => exact .ok le_rfl hn .none
      | returned hv ht => exact .ok le_rfl hn (.some (.returned hv ht))

/-- What a round keeps, all rounds keep. -/
theorem iterate_carried (n : Nat) (hm : (storing anyWord L).Sound w m m') (hhas : w.Has k) :
    ∃ L' : Layout, (∀ j, w.Has j → L'.home j = L.home j) ∧
      Carried L' (·.moved L')
        (Eval.iterate (Eval.loopRound (Eval.loopTest cfg room test k)
          (Eval.loopStep cfg room room update body k)) n m)
        (Eval.iterate (Eval.loopRound (Eval.loopTest cfg room test (L.home k))
          (Eval.openScope (L.home k) >>= Eval.loopStep cfg room room update body)) n m') := by
  induction n generalizing L w m m' with
  | zero => exact ⟨L, fun _ _ => rfl, .error hm.2 .noFuel⟩
  | succ n ih =>
    obtain ⟨L₁, hL₁, hround⟩ := loopRound_ends cfg room test update hbody hm hhas
    rw [Eval.iterate_succ, Eval.iterate_succ]
    generalize hx : Eval.loopRound (Eval.loopTest cfg room test k) _ m = r at hround
    generalize hy : Eval.loopRound (Eval.loopTest cfg room test (L.home k)) _ m' = r' at hround
    cases hround with
    | outLeft hi | outRight hi => exact hi.elim
    | error hle hn hi =>
      rw [Eval.bind_of_error hx, Eval.bind_of_error hy]
      cases hi
      exact ⟨L₁, hL₁, .error hn.2 _⟩
    | ok hle hn hdone =>
      rw [Eval.bind_of_ok hx, Eval.bind_of_ok hy]
      cases hdone with
      | some hdone => exact ⟨L₁, hL₁, .of_ends (.ok hle hn hdone)⟩
      | none =>
        obtain ⟨L₂, hL₂, hrest⟩ := ih hn (hhas.mono hle)
        rw [hL₁ k hhas] at hrest
        exact ⟨L₂, fun j hj => (hL₂ j (hj.mono hle)).trans (hL₁ j hj), hrest⟩

/-- With their parts in the same room, the two forms do the same. -/
theorem loop_carried {s : Nat} (hm : m.Closed) (hs : s < m.scopes.all.size) :
    ∃ L : Layout, (∀ j < m.scopes.all.size, L.home j = j) ∧
      Carried L (·.moved L)
        (Eval.loop cfg s (Eval.loopInit cfg room room init) (Eval.loopTest cfg room test)
          (Eval.loopStep cfg room room update body) m)
        (Eval.loop cfg s (Eval.loopInit cfg room room init) (Eval.loopTest cfg room test)
          (fun k => Eval.openScope k >>= Eval.loopStep cfg room room update body) m) := by
  obtain ⟨w, hw⟩ := hm.describes
  have hhas : w.Has s := by
    rw [hw.size] at hs
    exact hs
  have hsound : (storing anyWord .same).Sound w m m := ⟨hw, .refl hm⟩
  obtain ⟨w₁, hle, ⟨-, hnew, -⟩, hopened⟩ := storing.calls.push hsound ⟨rfl, hhas⟩
  have hinit : (storing anyWord .same).Ends Eq (fun _ _ _ => True) w₁
      (Eval.loopInit cfg room room init m.scopes.all.size
        { m with scopes := (m.scopes.push (some s)).2 })
      (Eval.loopInit cfg room room init m.scopes.all.size
        { m with scopes := (m.scopes.push (some s)).2 }) := loopInit_ends hopened hnew
  have hopen : Eval.openScope s m =
    .ok m.scopes.all.size { m with scopes := (m.scopes.push (some s)).2 } := rfl
  unfold Eval.loop
  rw [Eval.bind_of_ok hopen, Eval.bind_of_ok hopen]
  generalize hr : Eval.loopInit cfg room room init m.scopes.all.size
    { m with scopes := (m.scopes.push (some s)).2 } = r at hinit
  cases hinit with
  | outLeft hi | outRight hi => exact hi.elim
  | error _ hn =>
    rw [Eval.bind_of_error hr, Eval.bind_of_error hr]
    exact ⟨.same, fun _ _ => rfl, .error hn.2 _⟩
  | ok hle' hn =>
    rw [Eval.bind_of_ok hr, Eval.bind_of_ok hr]
    obtain ⟨L, hL, hrounds⟩ :=
      iterate_carried cfg room test update hbody cfg.fuel hn (hnew.mono hle')
    refine ⟨L, fun j hj => hL j ?_, hrounds⟩
    rw [hw.size] at hj
    exact Ledger.Has.mono hj (hle.trans hle')

end Loops

theorem Carried.runsOut_iff {α : Type} {L : Layout} {f : α → α}
    {r r' : EStateM.Result Interrupt Machine α} (h : Carried L f r r') : RunsOut r ↔ RunsOut r' := by
  cases h with
  | ok => exact Iff.rfl
  | error => exact Iff.rfl

section Forms

variable {cfg : Config} {m : Machine} {s : Nat} {init test update body : Tree} (place : Tree × Tree)
  (places : LoopPlaces) (hlevel : cfg.debugLevel < 3) (hm : m.Closed) (hs : s < m.scopes.all.size)
  (hbody : body.IsBlock)
include hlevel hm hs hbody

/-- Where neither has run out of room, the two forms do what they do with all their parts in a room that
is large enough for both. -/
theorem forLoop_carried (room room' : Nat)
    (hfor : ¬ RunsOut (Eval.execute cfg room s (.forLoop place init test update body) m))
    (hwhile : ¬ RunsOut (Eval.execute cfg room' s (.whileForm places init test update body) m)) :
    ∃ L : Layout, (∀ j < m.scopes.all.size, L.home j = j) ∧
      Carried L (·.moved L) (Eval.execute cfg room s (.forLoop place init test update body) m)
        (Eval.execute cfg room' s (.whileForm places init test update body) m) := by
  have hleft := Eval.execute_grows cfg (show room ≤ room + room' + 1 by omega) s
    (.forLoop place init test update body)
  have hright := Eval.execute_grows cfg (show room' ≤ room + room' + 1 by omega) s
    (.whileForm places init test update body)
  have hparts := hright.trans (Eval.execute_whileForm_grows places)
  rw [(hleft m).resolve_left hfor, (hparts m).resolve_left hwhile, Eval.execute_forLoop hlevel]
  exact loop_carried cfg (room + room') init test update hbody hm hs

theorem runsOut_whileForm {room : Nat}
    (h : RunsOut (Eval.execute cfg room s (.forLoop place init test update body) m)) :
    RunsOut (Eval.execute cfg room s (.whileForm places init test update body) m) := by
  cases room with
  | zero => exact Eval.execute_zero s _ m
  | succ room =>
    obtain ⟨L, -, hcarried⟩ := loop_carried cfg room init test update hbody hm hs
    rcases Eval.execute_whileForm_grows places m with hout | heq
    · exact hout
    · rw [heq, ← hcarried.runsOut_iff, ← Eval.execute_forLoop hlevel place]
      exact h

theorem runsOut_forLoop {room : Nat}
    (h : RunsOut (Eval.execute cfg (room + 5) s (.whileForm places init test update body) m)) :
    RunsOut (Eval.execute cfg room s (.forLoop place init test update body) m) := by
  cases room with
  | zero => exact Eval.execute_zero s _ m
  | succ room =>
    obtain ⟨L, -, hcarried⟩ := loop_carried cfg room init test update hbody hm hs
    rw [Eval.execute_forLoop hlevel, hcarried.runsOut_iff]
    rcases Eval.grows_execute_whileForm places m with hout | heq
    · exact hout
    · rw [heq]
      exact h

end Forms

/-- A `for` loop and its `while` form go the same way: they finish, return the same value, raise the same
error at the same place or go round without end, and leave the same machine, but for the numbers of the
scopes that they opened. The `while` form needs room for up to five more. -/
theorem execute_for_whileForm (cfg : Config) (hlevel : cfg.debugLevel < 3) (m : Machine)
    (hm : m.Closed) (s : Nat) (hs : s < m.scopes.all.size) (place : Tree × Tree) (places : LoopPlaces)
    (init test update body : Tree) (hbody : body.IsBlock) :
    (∀ room room',
      RunsOut (Eval.execute cfg room s (.forLoop place init test update body) m) ∨
      RunsOut (Eval.execute cfg room' s (.whileForm places init test update body) m) ∨
      ∃ L : Layout, (∀ j < m.scopes.all.size, L.home j = j) ∧
        Carried L (·.moved L) (Eval.execute cfg room s (.forLoop place init test update body) m)
          (Eval.execute cfg room' s (.whileForm places init test update body) m)) ∧
    (∀ room, RunsOut (Eval.execute cfg room s (.forLoop place init test update body) m) →
      RunsOut (Eval.execute cfg room s (.whileForm places init test update body) m)) ∧
    (∀ room, RunsOut (Eval.execute cfg (room + 5) s (.whileForm places init test update body) m) →
      RunsOut (Eval.execute cfg room s (.forLoop place init test update body) m)) := by
  refine ⟨fun room room' => ?_, fun room => runsOut_whileForm place places hlevel hm hs hbody,
    fun room => runsOut_forLoop place places hlevel hm hs hbody⟩
  rw [or_iff_not_imp_left, or_iff_not_imp_left]
  exact forLoop_carried place places hlevel hm hs hbody room room'

/-- `let g;` -/
def keeping : Program :=
  ⟨[.variables [⟨⟨"g", .nowhere⟩, none, .nowhere⟩] .nowhere], .nowhere⟩

/-- The machine on which the name is declared. -/
def keeper : Machine :=
  ((Machine.initial "").run { fuel := 1 } keeping.toTree 0).2

/-- `let i = 0;` -/
def countInit : Tree :=
  (Stmt.variables [⟨⟨"i", .nowhere⟩, some (.literal (.number (.int 0)) .nowhere), .nowhere⟩]
    .nowhere).toTree

/-- `i < 2` -/
def countTest : Tree :=
  (Expr.binary .less (.ident ⟨"i", .nowhere⟩) (.literal (.number (.int 2)) .nowhere) .nowhere).toTree

/-- `i += 1` -/
def countUpdate : Tree :=
  (Expr.assign .add ⟨"i", .nowhere⟩ (.literal (.number (.int 1)) .nowhere) .nowhere).toTree

/-- `{ def f() { return i; } g = f; }` -/
def countBody : Tree :=
  (Stmt.block [.function ⟨"f", .nowhere⟩ [] [.ret (some (.ident ⟨"i", .nowhere⟩)) .nowhere] .nowhere
      .nowhere,
    .expr (.assign .set ⟨"g", .nowhere⟩ (.ident ⟨"f", .nowhere⟩) .nowhere) .nowhere] .nowhere).toTree

/-- Each round declares a function and binds a name outside of the loop to it. In two rounds the `while`
form opens two scopes more, so the function is declared in different scopes. -/
theorem execute_for_whileForm_functions :
    let place := (Tree.ofNat 0, Tree.ofNat 70)
    let places : LoopPlaces := ⟨place, place, place, place, place, place⟩
    let loop := Tree.forLoop place countInit countTest countUpdate countBody
    let form := Tree.whileForm places countInit countTest countUpdate countBody
    keeper.Closed ∧ 0 < keeper.scopes.all.size ∧ countBody.IsBlock ∧
      ((Eval.execute { fuel := 3 } 20 0 loop).left keeper).scopes.all.size = 4 ∧
      ((Eval.execute { fuel := 3 } 20 0 form).left keeper).scopes.all.size = 6 ∧
      ∃ L : Layout, (∀ j < keeper.scopes.all.size, L.home j = j) ∧
        Carried L (·.moved L) (Eval.execute { fuel := 3 } 20 0 loop keeper)
          (Eval.execute { fuel := 3 } 20 0 form keeper) := by
  intro place places loop form
  have hsession := Session.run (.start (.initial "")) { fuel := 1 } keeping.toTree (s := 0) (by decide)
  have hfor : ¬ RunsOut (Eval.execute { fuel := 3 } 20 0 loop keeper) := by decide +kernel
  have hwhile : ¬ RunsOut (Eval.execute { fuel := 3 } 20 0 form keeper) := by decide +kernel
  have hbody : countBody.IsBlock := ⟨_, _, _, rfl⟩
  have hagree := (execute_for_whileForm { fuel := 3 } (by decide) keeper hsession.closed 0 (by decide) place
    places countInit countTest countUpdate countBody hbody).1 20 20
  exact ⟨hsession.closed, by decide, hbody, by decide +kernel, by decide +kernel,
    (hagree.resolve_left hfor).resolve_left hwhile⟩

end Scriptlet
