import Scriptlet.Proofs.JsonText
import Scriptlet.Proofs.Places
import Scriptlet.Tree.Codec

/-!
Trees in files. A tree whose nodes have their fields, and whose numbers and places can be written, is
encoded as data that a file can hold and is decoded from the data as it was: the names of the members
of a node are distinct, so each field finds its own member.

The tree of a program is such a tree if the places and the number literals are. A literal that was read
from a numeral is never an undefined number, so it always is.
-/

namespace Scriptlet

/-! ## Trees as data -/

namespace Json

theorem Storable.mono {room room' : Nat} {j : Json} (h : Storable room j) (hle : room ≤ room') :
    Storable room' j := by
  induction h generalizing room' with
  | scalar h =>
    obtain ⟨room', rfl⟩ : ∃ n, room' = n + 1 := Nat.exists_eq_add_of_le' (Nat.le_trans (by simp) hle)
    exact .scalar h
  | list h ih =>
    obtain ⟨room', rfl⟩ : ∃ n, room' = n + 1 := Nat.exists_eq_add_of_le' (Nat.le_trans (by simp) hle)
    exact .list fun item hmem => ih item hmem (Nat.le_of_succ_le_succ hle)
  | object hnames h ih =>
    obtain ⟨room', rfl⟩ : ∃ n, room' = n + 1 := Nat.exists_eq_add_of_le' (Nat.le_trans (by simp) hle)
    exact .object hnames fun member hmem => ih member hmem (Nat.le_of_succ_le_succ hle)

end Json

namespace Tree

/-- A tree that a file can hold: every node has its fields and a place. -/
inductive Storable : Tree → Prop
  | scalar {s : Scalar} (h : s.Storable) : Storable (.scalar s)
  | list {items : List Tree} (h : ∀ t ∈ items, Storable t) : Storable (.list items)
  | node {kind : NodeKind} {start stop : Scalar} {fields : List Tree} (hstart : start.Storable)
    (hstop : stop.Storable) (hcount : fields.length = kind.fields.length)
    (h : ∀ t ∈ fields, Storable t) : Storable (.node kind (.scalar start) (.scalar stop) fields)

theorem height_le_heightAll {t : Tree} {list : List Tree} (h : t ∈ list) :
    t.height ≤ heightAll list := by
  induction list with
  | nil => cases h
  | cons first list ih =>
    rw [heightAll]
    rcases List.mem_cons.1 h with rfl | h
    · exact Nat.le_max_left ..
    · exact Nat.le_trans (ih h) (Nat.le_max_right ..)

/-- The data are decoded as the tree, wherever they stand. -/
def DecodedFrom (t : Tree) (j : Json) : Prop :=
  ∀ place, decodeAt place j = .ok t

/-- If each of some trees is encoded, so are all of them. -/
theorem exists_encodeAll {P : Json → Prop} {list : List Tree}
    (h : ∀ t ∈ list, ∃ j, t.encode = .ok j ∧ P j ∧ t.DecodedFrom j) :
    ∃ js, encodeAll list = .ok js ∧ (∀ j ∈ js, P j) ∧ List.Forall₂ DecodedFrom list js := by
  induction list with
  | nil => exact ⟨[], rfl, nofun, .nil⟩
  | cons first list ih =>
    obtain ⟨j, hj, hfirst, hdecode⟩ := h first (List.mem_cons_self ..)
    obtain ⟨js, hjs, hrest, hdecodes⟩ := ih fun t ht => h t (List.mem_cons_of_mem _ ht)
    refine ⟨j :: js, ?_, List.forall_mem_cons.2 ⟨hfirst, hrest⟩, .cons hdecode hdecodes⟩
    rw [encodeAll, hj, hjs]
    rfl

variable {js : List Json} {kind : NodeKind}

theorem decodeAll_of_forall {list : List Tree} (h : List.Forall₂ DecodedFrom list js) (place : List Nat)
    (i : Nat) :
    decodeAll place i js = .ok list := by
  induction h generalizing i with
  | nil => rfl
  | cons h _ ih =>
    rw [decodeAll, h, ih]
    rfl

/-- Members with distinct names are found by their names. -/
theorem lookup_decodeMembers {names : List String} {list : List Tree} (hnames : names.Nodup)
    (hcount : list.length = names.length) (h : List.Forall₂ DecodedFrom list js) (place : List Nat)
    (i : Nat) :
    List.Forall₂ (fun name t => (decodeMembers place i (names.zip js)).lookup name = some (.ok t))
      names list := by
  induction h generalizing names i with
  | nil =>
    rw [List.length_eq_zero_iff.1 hcount.symm]
    exact .nil
  | @cons t j list js h _ ih =>
    obtain ⟨name, names, rfl⟩ := List.exists_cons_of_length_eq_add_one hcount.symm
    obtain ⟨hnot, hnames⟩ := List.nodup_cons.1 hnames
    rw [List.zip_cons_cons, decodeMembers]
    refine .cons (by rw [List.lookup_cons_self, h]) ?_
    have hlater := List.forall₂_iff_zip.1 (ih hnames (Nat.succ.inj hcount) (i + 1))
    refine List.forall₂_iff_zip.2 ⟨hlater.1, fun {other t} hmem => ?_⟩
    have hne : (other == name) = false := by
      rw [beq_eq_false_iff_ne]
      rintro rfl
      exact hnot (List.of_mem_zip hmem).1
    rw [List.lookup_cons, hne]
    exact hlater.2 hmem

theorem pickFields_of_lookup {members : List (String × Except TreeError Tree)} {names : List String}
    {list : List Tree} (h : List.Forall₂ (fun name t => members.lookup name = some (.ok t)) names list) :
    pickFields kind members names = .ok list := by
  induction h with
  | nil => rfl
  | cons h _ ih =>
    rw [pickFields, h, ih]
    rfl

/-- The members of a node have distinct names. -/
theorem nodup_members (kind : NodeKind) : ("type" :: "start" :: "end" :: kind.fields).Nodup := by
  cases kind <;> decide

theorem kindOf_name (kind : NodeKind) : kindOf (some (.scalar (.text kind.name))) = .ok kind := by
  cases kind <;> rfl

/-- A node is built of its members, whichever data they were decoded from. -/
theorem decodedFrom_node {start stop : Tree} {fields : List Tree} {first last : Json}
    (hstart : start.DecodedFrom first) (hstop : stop.DecodedFrom last)
    (hcount : fields.length = kind.fields.length) (h : List.Forall₂ DecodedFrom fields js) :
    (node kind start stop fields).DecodedFrom (.object (("type", .scalar (.text kind.name)) ::
      ("start", first) :: ("end", last) :: kind.fields.zip js)) := by
  intro place
  have htype : (text kind.name).DecodedFrom (.scalar (.text kind.name)) := fun _ => by rw [decodeAt]
  have hmembers := lookup_decodeMembers (nodup_members kind) (by simp [hcount])
    (.cons htype (.cons hstart (.cons hstop h))) place 0
  obtain ⟨-, hmembers⟩ := List.forall₂_cons.1 hmembers
  obtain ⟨hstart, hmembers⟩ := List.forall₂_cons.1 hmembers
  obtain ⟨hstop, hmembers⟩ := List.forall₂_cons.1 hmembers
  simp only [List.zip_cons_cons] at hstart hstop hmembers
  rw [decodeAt, ofMembers, List.lookup_cons_self, kindOf_name]
  simp only [bind, Except.bind, hstart, hstop, Option.getD_some, pickFields_of_lookup hmembers]
  rfl

/-- A tree that a file can hold is written as data from which it is read back. -/
theorem exists_encode {t : Tree} (h : t.Storable) :
    ∃ j, t.encode = .ok j ∧ j.Storable (t.height + 1) ∧ t.DecodedFrom j := by
  have hroom : ∀ {list : List Tree}, (∀ t ∈ list, ∃ j, t.encode = .ok j ∧
      j.Storable (t.height + 1) ∧ t.DecodedFrom j) → ∀ t ∈ list, ∃ j, t.encode = .ok j ∧
      j.Storable (heightAll list + 1) ∧ t.DecodedFrom j := by
    intro list h t ht
    obtain ⟨j, hj, hstore, hdecode⟩ := h t ht
    exact ⟨j, hj, hstore.mono (Nat.succ_le_succ (height_le_heightAll ht)), hdecode⟩
  induction h with
  | @scalar s h => exact ⟨.scalar s, by rw [encode], .scalar h, fun place => by rw [decodeAt]⟩
  | @list items h ih =>
    obtain ⟨js, hjs, hstores, hdecodes⟩ := exists_encodeAll (hroom ih)
    refine ⟨.list js, ?_, ?_, fun place => ?_⟩
    · rw [encode, hjs]
      rfl
    · rw [height]
      exact .list hstores
    · rw [decodeAt, decodeAll_of_forall hdecodes]
      rfl
  | @node kind start stop fields hstart hstop hcount h ih =>
    obtain ⟨js, hjs, hstores, hdecodes⟩ := exists_encodeAll (hroom ih)
    have hlength : kind.fields.length = js.length := hcount.symm.trans hdecodes.length_eq
    refine ⟨_, by rw [encode, encode, encode, hjs]; rfl, ?_,
      decodedFrom_node (fun _ => by rw [decodeAt]) (fun _ => by rw [decodeAt]) hcount hdecodes⟩
    rw [height]
    refine .object ?_ ?_
    · simp only [List.map_cons]
      rw [List.map_fst_zip (Nat.le_of_eq hlength)]
      exact nodup_members kind
    · simp only [List.forall_mem_cons]
      refine ⟨.scalar trivial, .scalar hstart, .scalar hstop, fun member hmem => ?_⟩
      exact hstores _ (List.of_mem_zip hmem).2

end Tree

/-! ## Trees of programs -/

/-- A place that can be written. -/
def Span.Storable (span : Span) : Prop :=
  span.start < 10 ^ Decimal.digitLimit ∧ span.stop < 10 ^ Decimal.digitLimit

/-- The numbers among atoms can be written. -/
def Atom.Storable : Atom → Prop
  | .number n => (Scalar.number n).Storable
  | .name _ | .text _ | .keyword _ => True

namespace Tree

/-- The places of all nodes of a tree can be written. -/
def PlacesStorable (t : Tree) : Prop :=
  ∀ place ∈ t.places, ∃ span : Span,
    place = .list [.ofNat span.start, .ofNat span.stop] ∧ span.Storable

theorem Inside.placesStorable {low high : Nat} {t : Tree} (h : t.Inside low high)
    (hhigh : high < 10 ^ Decimal.digitLimit) : t.PlacesStorable := by
  intro place hplace
  obtain ⟨start, stop, heq, -, h₁, h₂⟩ := h place hplace
  exact ⟨⟨start, stop⟩, heq, Nat.lt_of_le_of_lt (Nat.le_trans h₁ h₂) hhigh,
    Nat.lt_of_le_of_lt h₂ hhigh⟩

theorem placesStorable_list {list : List Tree} :
    (Tree.list list).PlacesStorable ↔ ∀ t ∈ list, t.PlacesStorable := by
  simp only [PlacesStorable, places, mem_placesAll]
  constructor
  · intro h t ht place hplace
    exact h place ⟨t, ht, hplace⟩
  · rintro h place ⟨t, ht, hplace⟩
    exact h t ht place hplace

theorem placesStorable_node {span : Span} {kind : NodeKind} {fields : List Tree} :
    (span.node kind fields).PlacesStorable ↔ span.Storable ∧ ∀ t ∈ fields, t.PlacesStorable := by
  rw [← placesStorable_list]
  simp only [PlacesStorable, Span.node, places, List.forall_mem_cons]
  refine and_congr_left fun _ => ⟨?_, fun h => ⟨_, rfl, h⟩⟩
  rintro ⟨other, heq, h⟩
  have hint : (span.start : Int) = other.start ∧ (span.stop : Int) = other.stop := by
    simpa [Tree.ofNat] using heq
  rw [Span.Storable] at h ⊢
  omega

theorem placesStorable_scalar (s : Scalar) : (Tree.scalar s).PlacesStorable := by
  intro place hplace
  cases hplace

theorem storable_list {list : List Tree} : (Tree.list list).Storable ↔ ∀ t ∈ list, t.Storable :=
  ⟨fun | .list h => h, .list⟩

theorem storable_node {span : Span} {kind : NodeKind} {fields : List Tree} :
    (span.node kind fields).Storable ↔ span.Storable ∧ fields.length = kind.fields.length ∧
      ∀ t ∈ fields, t.Storable :=
  ⟨fun | .node hstart hstop hcount h => ⟨⟨hstart, hstop⟩, hcount, h⟩,
    fun ⟨⟨hstart, hstop⟩, hcount, h⟩ => .node hstart hstop hcount h⟩

end Tree

section

open Scriptlet.Tree

/-- A tree whose places can be written is storable, if the atoms that it is made of are. -/
def StoredWith (t : Tree) (atoms : List Atom) : Prop :=
  t.PlacesStorable → (∀ a ∈ atoms, a.Storable) → t.Storable

namespace StoredWith

variable {t : Tree} {list : List Tree} {atoms atoms' : List Atom}

theorem mono (h : StoredWith t atoms) (hsub : ∀ a ∈ atoms, a ∈ atoms') : StoredWith t atoms' :=
  fun hp ha => h hp fun a hmem => ha a (hsub a hmem)

theorem scalar {s : Scalar} (h : s.Storable) : StoredWith (.scalar s) atoms :=
  fun _ _ => .scalar h

theorem nil : StoredWith (.list []) atoms :=
  fun _ _ => .list (List.forall_mem_nil _)

theorem cons (h : StoredWith t atoms) (hlist : StoredWith (.list list) atoms) :
    StoredWith (.list (t :: list)) atoms := by
  intro hp ha
  rw [placesStorable_list, List.forall_mem_cons] at hp
  rw [storable_list, List.forall_mem_cons]
  exact ⟨h hp.1 ha, storable_list.1 (hlist (placesStorable_list.2 hp.2) ha)⟩

/-- A node is storable if its fields are. -/
theorem node {kind : NodeKind} {span : Span} (hcount : list.length = kind.fields.length)
    (h : StoredWith (.list list) atoms) : StoredWith (span.node kind list) atoms := by
  intro hp ha
  obtain ⟨hspan, hp⟩ := placesStorable_node.1 hp
  exact storable_node.2 ⟨hspan, hcount, storable_list.1 (h (placesStorable_list.2 hp) ha)⟩

end StoredWith

theorem Ident.storedWith (id : Ident) (atoms : List Atom) : StoredWith id.toTree atoms :=
  .node rfl (.cons (.scalar trivial) .nil)

theorem Literal.storedWith (value : Literal) (span : Span) :
    StoredWith (value.toTree span) [value.atom] := by
  cases value with
  | number n =>
    intro hp ha
    exact StoredWith.node rfl (.cons (.scalar (ha _ List.mem_cons_self)) .nil) hp ha
  | text s | bool b | null => exact .node rfl (.cons (.scalar trivial) .nil)

mutual

theorem Expr.storedWith (e : Expr) : StoredWith e.toTree e.atoms := by
  cases e with
  | literal value span => exact value.storedWith span
  | ident id => exact id.storedWith _
  | unary op operand span =>
    rw [Expr.toTree, Expr.atoms]
    exact .node rfl (.cons (.scalar trivial) (.cons operand.storedWith .nil))
  | binary op left right span | logical op left right span =>
    rw [Expr.toTree, Expr.atoms]
    exact .node rfl (.cons (.scalar trivial) (.cons (left.storedWith.mono fun _ => List.mem_append_left _)
      (.cons (right.storedWith.mono fun _ => List.mem_append_right _) .nil)))
  | assign op target value span =>
    rw [Expr.toTree, Expr.atoms]
    exact .node rfl (.cons (.scalar trivial) (.cons (target.storedWith _)
      (.cons (value.storedWith.mono fun _ => List.mem_cons_of_mem _) .nil)))
  | call callee args span =>
    rw [Expr.toTree, Expr.atoms]
    exact .node rfl (.cons (callee.storedWith.mono fun _ => List.mem_append_left _)
      (.cons ((Expr.storedWithAll args).mono fun _ => List.mem_append_right _) .nil))

theorem Expr.storedWithAll (list : List Expr) :
    StoredWith (.list (Expr.toTrees list)) (Expr.atomsAll list) := by
  cases list with
  | nil => exact .nil
  | cons e rest =>
    rw [Expr.toTrees, Expr.atomsAll]
    exact .cons (e.storedWith.mono fun _ => List.mem_append_left _)
      ((Expr.storedWithAll rest).mono fun _ => List.mem_append_right _)

end

theorem Expr.storedWith_option (e : Option Expr) :
    StoredWith (.ofOption Expr.toTree e) (Atom.ofOption Expr.atoms e) := by
  cases e with
  | none => exact .scalar trivial
  | some e => exact e.storedWith

theorem Declaration.storedWith (d : Declaration) : StoredWith d.toTree d.atoms :=
  .node rfl (.cons (d.id.storedWith _)
    (.cons ((Expr.storedWith_option d.init).mono fun _ => List.mem_cons_of_mem _) .nil))

theorem Declaration.storedWith_list (list : List Declaration) (span : Span) :
    StoredWith (Declaration.listToTree list span) (Declaration.listAtoms list) := by
  have hall : StoredWith (.list (list.map Declaration.toTree)) (list.flatMap Declaration.atoms) := by
    induction list with
    | nil => exact .nil
    | cons d list ih =>
      exact .cons (d.storedWith.mono fun _ => List.mem_append_left _)
        (ih.mono fun _ => List.mem_append_right _)
  exact .node rfl (.cons (hall.mono fun _ => List.mem_cons_of_mem _) .nil)

theorem ForInit.storedWith_option (init : Option ForInit) :
    StoredWith (.ofOption ForInit.toTree init) (Atom.ofOption ForInit.atoms init) := by
  cases init with
  | none => exact .scalar trivial
  | some init =>
    cases init with
    | «variables» list span => exact Declaration.storedWith_list list span
    | expr e => exact e.storedWith

mutual

theorem Stmt.storedWith (s : Stmt) : StoredWith s.toTree s.atoms := by
  cases s with
  | expr e span =>
    rw [Stmt.toTree, Stmt.atoms]
    exact .node rfl (.cons e.storedWith .nil)
  | «variables» list span => exact Declaration.storedWith_list list span
  | block body span =>
    rw [Stmt.toTree, Stmt.atoms]
    exact .node rfl (.cons (Stmt.storedWithAll body) .nil)
  | empty span => exact .node rfl .nil
  | ifThen test consequent span =>
    rw [Stmt.toTree, Stmt.atoms]
    refine .node rfl (.cons (test.storedWith.mono ?_)
      (.cons (consequent.storedWith.mono ?_) (.cons (.scalar trivial) .nil))) <;> simp +contextual
  | ifElse test consequent alternate span =>
    rw [Stmt.toTree, Stmt.atoms]
    refine .node rfl (.cons (test.storedWith.mono ?_) (.cons (consequent.storedWith.mono ?_)
      (.cons (alternate.storedWith.mono ?_) .nil))) <;> simp +contextual
  | whileLoop test body span =>
    rw [Stmt.toTree, Stmt.atoms]
    refine .node rfl (.cons (test.storedWith.mono ?_) (.cons (body.storedWith.mono ?_) .nil)) <;>
      simp +contextual
  | doLoop body test span =>
    rw [Stmt.toTree, Stmt.atoms]
    refine .node rfl (.cons (body.storedWith.mono ?_) (.cons (test.storedWith.mono ?_) .nil)) <;>
      simp +contextual
  | forLoop init test update body span =>
    rw [Stmt.toTree, Stmt.atoms]
    refine .node rfl (.cons ((ForInit.storedWith_option init).mono ?_)
      (.cons ((Expr.storedWith_option test).mono ?_) (.cons ((Expr.storedWith_option update).mono ?_)
        (.cons (body.storedWith.mono ?_) .nil)))) <;> simp +contextual
  | function name params body bodySpan span =>
    rw [Stmt.toTree, Stmt.atoms]
    have hparams : ∀ atoms, StoredWith (.list (params.map Ident.toTree)) atoms := by
      intro atoms
      induction params with
      | nil => exact .nil
      | cons id params ih => exact .cons (id.storedWith _) ih
    exact .node rfl (.cons (name.storedWith _) (.cons (hparams _)
      (.cons (.node rfl (.cons ((Stmt.storedWithAll body).mono (by simp +contextual)) .nil)) .nil)))
  | ret value span =>
    rw [Stmt.toTree, Stmt.atoms]
    exact .node rfl (.cons ((Expr.storedWith_option value).mono (by simp +contextual)) .nil)

theorem Stmt.storedWithAll (list : List Stmt) :
    StoredWith (.list (Stmt.toTrees list)) (Stmt.atomsAll list) := by
  cases list with
  | nil => exact .nil
  | cons s rest =>
    rw [Stmt.toTrees, Stmt.atomsAll]
    exact .cons (s.storedWith.mono fun _ => List.mem_append_left _)
      ((Stmt.storedWithAll rest).mono fun _ => List.mem_append_right _)

end

theorem Program.storedWith (p : Program) : StoredWith p.toTree p.atoms :=
  .node rfl (.cons (Stmt.storedWithAll p.body) .nil)

end

end Scriptlet
