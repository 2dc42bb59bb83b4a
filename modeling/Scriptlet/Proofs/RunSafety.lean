import Mathlib.Order.CompletePartialOrder
import Scriptlet.Proofs.PairedScopes
import Scriptlet.Proofs.ProgramTrees

/-!
Runs of the trees of programs do not go wrong. A run ends, is given up because a loop goes round too
often, or stops with an error that is placed at a node of the program; no part is ever missing or of
the wrong kind, and no function of the standard library gets arguments that it cannot take apart.

What is kept along a run (`safe`): every bound value is a scalar, a function of the standard library, or a
function declared by a part of the program (`Value.Good`).
-/

namespace Scriptlet

/-! ## What is kept -/

/-- A value that the run of a program with the given places can make. -/
def Value.Good (places : List Tree) : Value → Prop
  | .scalar _ | .native _ => True
  | .closure f => ∃ (params : List Ident) (body : List Stmt) (span : Span),
      f.params = .list (params.map Ident.toTree) ∧
      f.body = span.node .blockStatement [.list (Stmt.toTrees body)] ∧
      (Tree.list (Stmt.toTrees body)).places ⊆ places
  | .data _ => False

/-- A node with one of the given places. -/
def Tree.Placed (places : List Tree) (t : Tree) : Prop :=
  ∃ kind start stop fields, t = .node kind start stop fields ∧ .list [start, stop] ∈ places

def RuntimeError.Placed (places : List Tree) (e : RuntimeError) : Prop :=
  ∃ start stop, e.place = some (start, stop) ∧ .list [start, stop] ∈ places

def Interrupt.Allowed (errors : RuntimeError → Prop) : Interrupt → Prop
  | .error e => errors e
  | .fault _ => False
  | .noRoom | .noFuel => True

variable {places : List Tree}

/-- At a node of the program, an error without a place gets one. -/
theorem RuntimeError.Placed.atNode {e : RuntimeError} {t : Tree} (ht : t.Placed places)
    (he : e.place = none ∨ e.Placed places) : (e.atNode t).Placed places := by
  obtain ⟨kind, start, stop, fields, rfl, hmem⟩ := ht
  rcases he with hnone | ⟨start', stop', hplace, hmem'⟩
  · exact ⟨start, stop, by simp [RuntimeError.atNode, hnone], hmem⟩
  · exact ⟨start', stop', by simp [RuntimeError.atNode, hplace], hmem'⟩

theorem Tree.placesAll_subset {list : List Tree} :
    Tree.placesAll list ⊆ places ↔ ∀ t ∈ list, t.places ⊆ places := by
  induction list with
  | nil => simp [Tree.placesAll]
  | cons t rest ih => rw [Tree.placesAll, List.append_subset, ih, List.forall_mem_cons]

/-- What holds the places of a node holds those of its parts. -/
theorem Tree.part_subset {kind : NodeKind} {start stop t : Tree} {fields : List Tree}
    (h : (Tree.node kind start stop fields).places ⊆ places) (ht : t ∈ fields) : t.places ⊆ places :=
  Tree.placesAll_subset.1 (fun _ hplace => h (List.mem_cons_of_mem _ hplace)) t ht

/-- Runs of parts of a program belong together with themselves, on machines where only good values are
bound. -/
def safe (places : List Tree) : Kinship Unit where
  Sound _ m m' := m = m' ∧ m.scopes.Hold (Value.Good places)
  Values _ v v' := v = v' ∧ v.Good places
  Views _ := Eq
  Opened _ := Eq
  Binds _ s s' _ := s = s'
  Exprs := Kinship.ExprTrees fun t t' => t = t' ∧ t.places ⊆ places
  Stmts _ := Kinship.StmtTrees (fun t t' => t = t' ∧ t.places ⊆ places) fun _ => Eq
  Bodies _ := Kinship.BodyTrees (fun t t' => t = t' ∧ t.places ⊆ places) fun _ => Eq
  Nodes t t' := t = t' ∧ t.Placed places
  Names name := ∃ word, name = .text word
  Stops i i' := i = i' ∧ i.Allowed (RuntimeError.Placed places)

namespace safe

theorem basics : (safe places).Basics where
  values_mono _ := id
  views_mono _ := id
  opened_mono _ := id
  binds_mono _ := id
  stmts_mono _ := id
  stmts_views := by
    rintro w s s' t t' ⟨x, x', -, -, -, -, hs⟩
    exact hs
  opened_binds h _ := h
  scalar := ⟨rfl, trivial⟩
  twin := by
    rintro w v _ ⟨rfl, -⟩
    exact .same v
  noFuel := ⟨rfl, trivial⟩
  raised := by
    rintro t _ cause ⟨rfl, ht⟩ -
    exact ⟨rfl, .atNode ht (.inl rfl)⟩

theorem programTrees : (safe places).ProgramTrees (fun t t' => t = t' ∧ t.places ⊆ places)
    fun _ _ => Eq where
  exprs := rfl
  stmts := rfl
  bodies := rfl
  nodes h := ⟨h.1, _, _, _, _, rfl, h.2 List.mem_cons_self⟩
  parts := by
    rintro kind start stop fields _ _ _ ⟨h, hplaces⟩ -
    cases h
    exact List.forall₂_same.2 fun t ht => ⟨rfl, Tree.part_subset hplaces ht⟩
  items := by
    rintro list _ ⟨h, hplaces⟩ -
    cases h
    exact List.forall₂_same.2 fun t ht => ⟨rfl, Tree.placesAll_subset.1 hplaces t ht⟩
  names := ⟨_, rfl⟩
  targets := trivial
  binds := id
  opened := id
  views := id
  weaken h _ := h
  function := by
    rintro w s _ w' n _ word params params' body body' inner inner' rfl - rfl - - ⟨hparams, -⟩
      ⟨hbody, hplaces⟩
    rw [← hparams, ← hbody]
    exact ⟨rfl, params, body, inner, rfl, rfl, Tree.part_subset hplaces List.mem_cons_self⟩

theorem lawful : (safe places).Lawful where
  toBasics := basics
  exprs := programTrees.exprParts basics
  bodies := programTrees.bodyParts
  code := by
    rintro w f _ ⟨h, params, body, span, hparams, hbody, hplaces⟩
    cases h
    exact programTrees.codeParts rfl hparams hparams (List.forall₂_same.2 fun _ _ => rfl) hbody hbody
      (Stmt.like_reflAll body) ⟨rfl, hplaces⟩

theorem calls : (safe places).Calls where
  others := by
    rintro w m _ ⟨rfl, -⟩
    exact ⟨m.scopes, rfl⟩
  aside := by
    rintro f w m _ hf ⟨rfl, hm⟩
    cases hf with
    | write | readLine | readClock | record | depth => exact ⟨rfl, hm⟩
  push := by
    rintro w m _ s _ ⟨rfl, hm⟩ rfl
    exact ⟨w, le_rfl, rfl, rfl, hm.push (some s)⟩
  define := by
    rintro w m _ s _ name key v _ ⟨rfl, hm⟩ rfl - ⟨rfl, hv⟩
    exact ⟨rfl, hm.define s key hv⟩
  get := by
    rintro w m _ s _ ⟨rfl, hm⟩ rfl key
    cases hget : m.scopes.get? s key with
    | none => exact .none
    | some v => exact .some ⟨rfl, hm.get? hget⟩
  assign := by
    rintro w m _ s _ name key v _ ⟨rfl, hm⟩ rfl - - ⟨rfl, hv⟩
    cases m.scopes.find? s key with
    | none => exact .none
    | some found => exact .some ⟨rfl, hm.define found key hv⟩
  number := by
    rintro w m _ ⟨rfl, hm⟩
    exact ⟨w, le_rfl, rfl, rfl, hm⟩
  unnamed := by
    rintro _ ⟨word, rfl⟩ hname
    cases hname
  tooDeep := by
    rintro t _ limit ⟨rfl, ht⟩
    exact ⟨rfl, .atNode ht (.inl rfl)⟩
  called := by
    rintro t _ i _ ⟨rfl, ht⟩ ⟨rfl, hi⟩
    refine ⟨rfl, ?_⟩
    cases i with
    | error e => exact .atNode ht (.inr hi)
    | fault => exact hi.elim
    | noRoom => exact RuntimeError.Placed.atNode ht (.inl rfl)
    | noFuel => trivial
  out := False.elim

theorem runs (cfg : Config) (room : Nat) : (safe places).Runs cfg room room := by
  refine lawful.runs calls ⟨rfl, trivial⟩ (fun h => ?_) room
  obtain ⟨x, x', rfl, rfl, hx, hok, hs⟩ := h
  refine programTrees.stmtParts hx hok hs ?_
  rintro y span rfl - -
  -- Both are the same, so this block has no braces that the other lacks.
  rw [hok.1]
  exact .node (.block fun _ hk => programTrees.body (Stmt.like_reflAll [y])
    ⟨rfl, Tree.part_subset (hok.1 ▸ hok.2) List.mem_cons_self⟩ hk)

end safe

/-! ## Whole programs -/

theorem initial_good (input : String) : (Machine.initial input).scopes.Hold (Value.Good places) := by
  have h : ∀ (list : List Native) (scopes : Scopes Value), scopes.Hold (Value.Good places) →
      (list.foldl (fun scopes f => scopes.define Machine.globalScope (.word f.name) (.native f))
        scopes).Hold (Value.Good places) := by
    intro list
    induction list with
    | nil => exact fun _ h => h
    | cons f rest ih => exact fun scopes h => ih _ (h.define _ _ trivial)
  refine h _ _ fun scope hscope binding hbinding => ?_
  obtain rfl : scope = ⟨none, []⟩ := by simpa [Scopes.root] using hscope
  cases hbinding

theorem program_lands (p : Program) {m : Machine} (hm : m.scopes.Hold (Value.Good p.toTree.places))
    (cfg : Config) (s : Nat) :
    (∃ m', Eval.program cfg s p.toTree m = .ok () m') ∨
      ∃ i m', Eval.program cfg s p.toTree m = .error i m' ∧
        (i = .noFuel ∨ ∃ e, i = .error e ∧ e.Placed p.toTree.places) := by
  have hroot : p.toTree.Placed p.toTree.places := ⟨_, _, _, _, rfl, List.mem_cons_self⟩
  have hplaces : (Tree.list (Stmt.toTrees p.body)).places ⊆ p.toTree.places :=
    Tree.part_subset (fun _ => id) List.mem_cons_self
  have hbody := safe.runs cfg cfg.room ⟨rfl, hm⟩
    (.executeAll (w := ()) (s := s) ⟨p.body, p.body, rfl, rfl, Stmt.like_reflAll p.body, ⟨rfl, hplaces⟩, rfl⟩)
  have hneed : (do Eval.executeAll cfg cfg.room s (← Eval.need p.toTree.body?)) m =
      (Job.executeAll s (.list (Stmt.toTrees p.body))).run cfg cfg.room m := rfl
  unfold Eval.program
  rw [hneed]
  generalize (Job.executeAll s (.list (Stmt.toTrees p.body))).run cfg cfg.room m = r at hbody
  cases hbody with
  | outLeft hi | outRight hi => exact hi.elim
  | ok _ _ hdone =>
    cases hdone with
    | normal => exact .inl ⟨_, rfl⟩
    | returned _ ht => exact .inr ⟨_, _, rfl, .inr ⟨_, rfl, .atNode ht.2 (.inl rfl)⟩⟩
  | @error _ _ _ i _ _ _ hi =>
    cases i with
    | error e => exact .inr ⟨_, _, rfl, .inr ⟨e, rfl, hi.2⟩⟩
    | fault f => exact hi.2.elim
    | noRoom => exact .inr ⟨_, _, rfl, .inr ⟨_, rfl, .atNode hroot (.inl rfl)⟩⟩
    | noFuel => exact .inr ⟨_, _, rfl, .inl rfl⟩

/-- A run of the tree of a program ends, is given up, or stops with an error placed at a node. -/
theorem run_toTree_safe (p : Program) {m : Machine}
    (hm : m.scopes.Hold (Value.Good p.toTree.places)) (cfg : Config) (s : Nat) :
    (m.run cfg p.toTree s).1 = .finished ∨ (m.run cfg p.toTree s).1 = .stopped .noFuel ∨
      ∃ e, (m.run cfg p.toTree s).1 = .stopped (.error e) ∧ e.Placed p.toTree.places := by
  unfold Machine.run
  rcases program_lands p hm cfg s with ⟨m', h⟩ | ⟨i, m', h, rfl | ⟨e, rfl, he⟩⟩
  · exact .inl (by rw [h])
  · exact .inr (.inl (by rw [h]))
  · exact .inr (.inr ⟨e, by rw [h], he⟩)

/-- The names of errors. -/
def Cause.names : List String :=
  ["UndefinedVariable", "NotCallable", "ArityMismatch", "StackOverflow", "OperandMustBeNumber",
   "TypeMismatch", "DivisionByZero", "NumericOverflow", "ReturnOutsideFunction"]

theorem Cause.name_mem (c : Cause) : c.name ∈ Cause.names := by
  cases c <;> simp [Cause.name, Cause.names]

end Scriptlet
