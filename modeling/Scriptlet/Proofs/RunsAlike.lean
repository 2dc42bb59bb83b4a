import Scriptlet.Proofs.PairedScopes
import Scriptlet.Proofs.ProgramTrees

/-!
Runs of programs that differ in their places and in braces. The four rules keep machines paired, by
induction on the room of the second run; braces take up room there that the first run does not need, so
the room of the first is arbitrary. One of the two may run out of room where the other does not, as braces
make a program nest deeper; after that nothing is said about them.
-/

namespace Scriptlet

/-! ## Results that agree -/

/-- The run nests deeper than there is room for. -/
def Interrupt.OutOfRoom : Interrupt → Prop
  | .error e => e.cause = .callRoom ∨ e.cause = .programRoom
  | .noRoom => True
  | _ => False

/-- The same reason apart from places. -/
inductive Interrupt.Like : Interrupt → Interrupt → Prop
  | error {e e' : RuntimeError} (h : e.cause = e'.cause) : Like (.error e) (.error e')
  | fault (f : Fault) : Like (.fault f) (.fault f)
  | noFuel : Like .noFuel .noFuel

/-- An interrupt of which the places change. -/
theorem Interrupt.OutOfRoom.atNode {e : RuntimeError} (h : (Interrupt.error e).OutOfRoom) (t : Tree) :
    (Interrupt.error (e.atNode t)).OutOfRoom := by
  show (e.atNode t).cause = .callRoom ∨ (e.atNode t).cause = .programRoom
  rw [RuntimeError.atNode_cause]
  exact h

/-- Scopes to carry out statements in: one stands for the other, and it is its home if a name may be
bound there. -/
structure Stands (P : Pairing) (binds : Bool) (s s' : Nat) : Prop where
  stands : P.stands[s']? = some s
  home : binds = true → P.home[s]? = some s'

theorem Stands.mono {P Q : Pairing} {binds : Bool} {s s' : Nat} (hle : P ≤ Q)
    (h : Stands P binds s s') : Stands Q binds s s' where
  stands := Pairing.stands_mono hle h.stands
  home hb := Pairing.home_mono hle (h.home hb)

theorem Stands.of_imp {P : Pairing} {binds binds' : Bool} {s s' : Nat} (h : Stands P binds s s')
    (himp : binds' = true → binds = true) : Stands P binds' s s' where
  stands := h.stands
  home hb := h.home (himp hb)

/-- A body of one statement. -/
theorem Eval.executeAll_single (cfg : Config) (room s : Nat) (stmt : Stmt) :
    Eval.executeAll cfg (room + 1) s (.list (Stmt.toTrees [stmt])) = Eval.execute cfg room s stmt.toTree := by
  have hitems : Eval.items (.list (Stmt.toTrees [stmt])) = pure [stmt.toTree] := rfl
  rw [Eval.executeAll, hitems, pure_bind, Eval.runAll]
  conv => rhs; rw [← bind_pure (Eval.execute cfg room s stmt.toTree)]
  congr 1
  funext done
  cases done <;> rfl

theorem forall₂_true {list list' : List Tree} (h : list.length = list'.length) :
    List.Forall₂ (fun _ _ => True) list list' := by
  rw [List.forall₂_iff_get]
  exact ⟨h, fun _ _ _ => trivial⟩

/-- Runs of programs that are alike on machines that are paired. -/
def alike : Kinship Pairing where
  Sound := Paired
  Values := Value.Like
  Views P s s' := P.stands[s']? = some s ∨ P.home[s]? = some s'
  Opened P s s' := P.home[s]? = some s' ∧ P.stands[s']? = some s
  Binds P s s' _ := P.home[s]? = some s'
  Exprs := Kinship.ExprTrees fun _ _ => True
  Stmts P := Kinship.StmtTrees (fun _ _ => True) (Stands P)
  Bodies P := Kinship.BodyTrees (fun _ _ => True) (Stands P)
  Nodes _ _ := True
  Names name := ∃ word, name = .text word
  Stops := Interrupt.Like
  Out := Interrupt.OutOfRoom

namespace alike

theorem basics : alike.Basics where
  values_mono hle h := h.mono hle
  views_mono hle h := h.imp (Pairing.stands_mono hle) (Pairing.home_mono hle)
  opened_mono hle h := ⟨Pairing.home_mono hle h.1, Pairing.stands_mono hle h.2⟩
  binds_mono hle h := Pairing.home_mono hle h
  stmts_mono := by
    rintro P Q s s' t t' hle ⟨x, x', ht, ht', hx, hok, hs⟩
    exact ⟨x, x', ht, ht', hx, hok, hs.mono hle⟩
  stmts_views := by
    rintro P s s' t t' ⟨x, x', -, -, -, -, hs⟩
    exact .inl hs.stands
  opened_binds h _ := h.1
  scalar := .scalar _
  twin h := by
    cases h with
    | scalar | native => exact .same _
    | closure h => exact .closure h.id h.name
  noFuel := .noFuel
  raised _ _ := .error (by simp)

theorem programTrees : alike.ProgramTrees (fun _ _ => True) Stands where
  exprs := rfl
  stmts := rfl
  bodies := rfl
  nodes _ := trivial
  parts _ := forall₂_true
  items _ := forall₂_true
  names := ⟨_, rfl⟩
  targets := trivial
  binds h := h.home rfl
  opened h := ⟨h.2, fun _ => h.1⟩
  views h := .inl h.stands
  weaken h himp := ⟨h.stands, fun hc => h.home (himp hc)⟩
  function := by
    rintro P s s' Q n _ word params params' body body' inner inner' hs hle rfl hparams hbody - -
    exact .closure
      { id := rfl
        name := rfl
        scope := Pairing.home_mono hle (hs.home rfl)
        params := ⟨params, params', rfl, rfl, hparams⟩
        body := ⟨body, body', inner, inner', rfl, rfl, hbody⟩ }

theorem lawful : alike.Lawful where
  toBasics := basics
  exprs := programTrees.exprParts basics
  bodies := programTrees.bodyParts
  code h := by
    cases h with
    | closure h =>
      obtain ⟨params, params', hparams, hparams', hnames⟩ := h.params
      obtain ⟨body, body', span, span', hbody, hbody', hlike⟩ := h.body
      exact programTrees.codeParts (.inr h.scope) hparams hparams' hnames hbody hbody' hlike trivial

variable {P : Pairing} {m m' : Machine} {s s' : Nat}

theorem stands_of_views (hm : Paired P m m') (hs : alike.Views P s s') : P.stands[s']? = some s :=
  hs.elim id hm.stands

theorem calls : alike.Calls where
  others hm := hm.others
  aside hf hm := by
    refine Paired.update hm ?_
    cases hf with
    | write | readLine | readClock | record | depth => exact fun _ _ => rfl
  push := by
    intro P m m' s s' hm hs
    refine ⟨_, P.le_concat, ⟨?_, ?_⟩, hm.open_both (stands_of_views hm hs)⟩
    · exact Pairing.getElem?_concat.2 (.inr ⟨hm.size.symm, rfl⟩)
    · exact Pairing.getElem?_concat.2 (.inr ⟨hm.size'.symm, rfl⟩)
  define hm hs _ hv := hm.define hs _ hv
  get hm hs key := hm.get? key (stands_of_views hm hs)
  assign := by
    intro P m m' s s' name key v v' hm hs _ _ hv
    have hfind := hm.find? key (stands_of_views hm hs)
    generalize m.scopes.find? s key = found at hfind
    generalize m'.scopes.find? s' key = found' at hfind
    cases hfind with
    | none => exact .none
    | some hk => exact .some (hm.define hk key hv)
  number := by
    intro P m m' hm
    obtain ⟨scopes, rfl⟩ := hm.others
    exact ⟨P, le_rfl, rfl, hm.update (f := fun m => { m with nextClosure := m.nextClosure + 1 })
      fun _ _ => rfl⟩
  unnamed _ _ := .fault _
  tooDeep _ := .error (by simp)
  called _ hi := by
    cases hi with
    | error he => exact .error (by simp [he])
    | fault f => exact .fault f
    | noFuel => exact .noFuel
  out {i} hi t := by
    cases i with
    | error e => exact hi.atNode t
    | noRoom => exact Interrupt.OutOfRoom.atNode (.inl rfl) t
    | fault | noFuel => exact hi.elim

/-- The statement in braces is the only one of its body, which runs in a scope that nothing is bound
in. -/
theorem braces {cfg : Config} {room room' : Nat} (span : Span) (hrules : ∀ room, alike.Runs cfg room room')
    {x x' : Stmt} (hm : Paired P m m') (hx : x.Like x') (hbinds : x.binds = false)
    (hs : Stands P x.binds s s') :
    alike.Ends Interrupt.Like alike.Completes P (Eval.execute cfg room s x.toTree m)
      (Eval.execute cfg (room' + 1) s' (Stmt.block [x'] span).toTree m') := by
  have hopen : Eval.openScope s' m' =
      .ok m'.scopes.all.size { m' with scopes := (m'.scopes.push (some s')).2 } := rfl
  have hstands : Stands ⟨P.home, P.stands ++ [s]⟩ ([x].any Stmt.binds) s m'.scopes.all.size :=
    ⟨Pairing.getElem?_concat.2 (.inr ⟨hm.size'.symm, rfl⟩), fun hany => absurd hany (by simp [hbinds])⟩
  have hbody := hrules (room + 1) (hm.open_spare hs.stands)
    (.executeAll ⟨[x], [x'], rfl, rfl, .cons hx .nil, trivial, hstands⟩)
  rw [← Eval.executeAll_single cfg room s x, Stmt.toTree, Span.node, Eval.execute,
    Eval.bind_of_ok hopen]
  exact hbody.imp (P.le_spare s) id id

/-- In any rooms. -/
theorem runs (cfg : Config) (room room' : Nat) : alike.Runs cfg room room' := by
  induction room' generalizing room with
  | zero =>
    intro P m m' job job' _ _
    rw [Job.run_zero cfg job']
    exact .outRight (i := .noRoom) trivial _ m'
  | succ room' ih =>
    intro P m m' job job' hm hfits
    cases room with
    | zero =>
      rw [Job.run_zero]
      exact .outLeft (i := .noRoom) trivial m _
    | succ room =>
      by_cases hbraces : ∃ s s' span, ∃ x x' : Stmt, job = .execute s x.toTree ∧
          job' = .execute s' (Stmt.block [x'] span).toTree ∧ x.Like x' ∧ x.binds = false ∧
          Stands P x.binds s s'
      · obtain ⟨s, s', span, x, x', rfl, rfl, hx, hbinds, hs⟩ := hbraces
        exact braces span ih hm hx hbinds hs
      · refine lawful.succ calls (ih room) hm hfits ?_
        rintro s s' t t' rfl rfl
        cases hfits with
        | execute h =>
          obtain ⟨x, x', rfl, rfl, hx, hok, hs⟩ := h
          refine programTrees.stmtParts hx hok hs ?_
          rintro y span rfl hy hbinds
          exact absurd ⟨s, s', span, x, y, rfl, rfl, hy, hbinds, hs⟩ hbraces

end alike

/-! ## Whole programs -/

def Outcome.OutOfRoom : Outcome → Prop
  | .finished => False
  | .stopped i => i.OutOfRoom

/-- The same outcome apart from places. -/
inductive Outcome.Like : Outcome → Outcome → Prop
  | finished : Like .finished .finished
  | stopped {i i' : Interrupt} (h : i.Like i') : Like (.stopped i) (.stopped i')

/-- The results of two runs that went alike, unless one of them ran out of room. -/
def Machine.EndAlike (P : Pairing) (r r' : Outcome × Machine) : Prop :=
  r.1.OutOfRoom ∨ r'.1.OutOfRoom ∨ r.1.Like r'.1 ∧ ∃ Q, P ≤ Q ∧ Paired Q r.2 r'.2

variable {P : Pairing} {m m' : Machine}

theorem Machine.run_alike (cfg : Config) {p q : Program} (h : List.Forall₂ Stmt.Like p.body q.body)
    (hm : Paired P m m') {s s' : Nat} (hs : Stands P true s s') :
    EndAlike P (m.run cfg p.toTree s) (m'.run cfg q.toTree s') := by
  have hbody := alike.runs cfg cfg.room cfg.room hm
    (.executeAll ⟨p.body, q.body, rfl, rfl, h, trivial, hs.of_imp fun _ => rfl⟩)
  have hneed : ∀ (p : Program) (s : Nat) (m : Machine),
      (do Eval.executeAll cfg cfg.room s (← Eval.need p.toTree.body?)) m =
        Eval.executeAll cfg cfg.room s (.list (Stmt.toTrees p.body)) m := fun _ _ _ => rfl
  unfold Machine.run Eval.program
  rw [hneed, hneed]
  dsimp only [Job.run] at hbody
  generalize Eval.executeAll cfg cfg.room s (.list (Stmt.toTrees p.body)) m = r at hbody
  generalize Eval.executeAll cfg cfg.room s' (.list (Stmt.toTrees q.body)) m' = r' at hbody
  have hroom : ∀ t : Tree, (Interrupt.error (RuntimeError.atNode { cause := .programRoom } t)).OutOfRoom :=
    fun t => Interrupt.OutOfRoom.atNode (.inr rfl) t
  cases hbody with
  | ok hle hn hdone =>
    have hend := hn.update (f := Machine.endTrace) fun _ _ => rfl
    cases hdone with
    | normal => exact .inr (.inr ⟨.finished, _, hle, hend⟩)
    | returned =>
      exact .inr (.inr ⟨.stopped (.error (by simp)), _, hle, hend⟩)
  | error hle hn hi =>
    have hend := hn.update (f := Machine.endTrace) fun _ _ => rfl
    refine .inr (.inr ?_)
    cases hi with
    | error he => exact ⟨.stopped (.error he), _, hle, hend⟩
    | fault f => exact ⟨.stopped (.fault f), _, hle, hend⟩
    | noFuel => exact ⟨.stopped .noFuel, _, hle, hend⟩
  | @outLeft i hi n =>
    cases i with
    | error e => exact .inl hi
    | noRoom => exact .inl (hroom _)
    | fault | noFuel => exact hi.elim
  | @outRight i hi _ n =>
    cases i with
    | error e => exact .inr (.inl hi)
    | noRoom => exact .inr (.inl (hroom _))
    | fault | noFuel => exact hi.elim

/-- Global names and their values as programs show them. -/
def Machine.shownGlobals (m : Machine) : List (Name × String) :=
  m.globals.map fun binding => (binding.1, binding.2.shown)

theorem Machine.isInitial_eq {v v' : Value} (h : v.Like P v') (name : Name) :
    isInitial (name, v) = isInitial (name, v') := by
  cases h with
  | scalar | native => rfl
  | closure => cases name <;> rfl

theorem Paired.shownGlobals (hm : Paired P m m')
    (hglobal : P.home[Machine.globalScope]? = some Machine.globalScope) :
    m.shownGlobals = m'.shownGlobals := by
  obtain ⟨a, b, ha, hb, hlike⟩ := hm.scope hglobal
  have hbindings := hlike.bindings
  unfold Machine.shownGlobals Machine.globals Scopes.bindings
  rw [ha, hb]
  dsimp only
  generalize a.bindings = xs at hbindings
  generalize b.bindings = ys at hbindings
  induction hbindings with
  | nil => rfl
  | @cons x y xs ys hxy _ ih =>
    obtain ⟨name, v⟩ := x
    obtain ⟨name', v'⟩ := y
    obtain ⟨rfl, hv⟩ : name = name' ∧ v.Like P v' := hxy
    rw [List.filter_cons, List.filter_cons, Machine.isInitial_eq hv]
    split
    · rw [List.map_cons, List.map_cons, ih, hv.shown]
    · exact ih

/-- The machine before a run belongs together with itself. -/
theorem Paired.initial (input : String) :
    Paired ⟨[0], [0]⟩ (Machine.initial input) (Machine.initial input) := by
  have hscopes : (Machine.initial input).scopes.all =
      #[⟨none, Native.all.map fun f => (.word f.name, .native f)⟩] := rfl
  have hbindings : ∀ list : List Native, BindingsLike ⟨[0], [0]⟩
      (list.map fun f => (.word f.name, .native f)) (list.map fun f => (.word f.name, .native f)) := by
    intro list
    induction list with
    | nil => exact .nil
    | cons f _ ih => exact .cons ⟨rfl, .native f⟩ ih
  have hzero : ∀ {k k' : Nat}, [0][k]? = some k' → k = 0 ∧ k' = 0 := by
    intro k k' hk
    obtain ⟨hlt, hk⟩ := List.getElem?_eq_some_iff.1 hk
    obtain rfl : k = 0 := by simpa using hlt
    exact ⟨rfl, hk.symm⟩
  constructor
  · rw [hscopes]
    rfl
  · rw [hscopes]
    rfl
  · intro s s' hs
    obtain ⟨rfl, rfl⟩ := hzero hs
    rfl
  · intro s s' hs
    obtain ⟨rfl, rfl⟩ := hzero hs
    rw [hscopes]
    exact ⟨_, _, rfl, rfl, hbindings _, .inl ⟨rfl, rfl⟩⟩
  · intro s s' hs hne
    obtain ⟨rfl, rfl⟩ := hzero hs
    exact absurd rfl hne
  · intro s s' hs
    obtain ⟨rfl, rfl⟩ := hzero hs
    rw [hscopes]
    exact Nat.one_pos
  · exact ⟨_, rfl⟩

end Scriptlet
