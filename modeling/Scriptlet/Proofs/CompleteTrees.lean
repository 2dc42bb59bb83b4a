import Scriptlet.Proofs.TreeCodec

/-!
Trees that nothing is lost of. A tree of nodes with all their fields, of lists and of scalars, in any
combination, is encoded as data that it is decoded from again, with the places of all nodes
(`decode_encode`); so no two such trees are encoded as the same data. Whatever else a tree holds, in a
field or as a place, keeps it from being encoded.
-/

namespace Scriptlet.Tree

/-- A tree of complete nodes, lists and scalars. The place of a node may be anything of the kind. -/
inductive Complete : Tree → Prop
  | scalar (s : Scalar) : Complete (.scalar s)
  | list {items : List Tree} (h : ∀ t ∈ items, Complete t) : Complete (.list items)
  | node {kind : NodeKind} {start stop : Tree} {fields : List Tree} (hstart : Complete start)
    (hstop : Complete stop) (hcount : fields.length = kind.fields.length)
    (h : ∀ t ∈ fields, Complete t) : Complete (.node kind start stop fields)

/-- Something that is neither scalar, list nor node stands somewhere in a tree. -/
inductive Holds (j : Json) : Tree → Prop
  | here : Holds j (.foreign j)
  | item {items : List Tree} {t : Tree} (hmem : t ∈ items) (h : Holds j t) : Holds j (.list items)
  | start {kind : NodeKind} {start stop : Tree} {fields : List Tree} (h : Holds j start) :
    Holds j (.node kind start stop fields)
  | stop {kind : NodeKind} {start stop : Tree} {fields : List Tree} (h : Holds j stop) :
    Holds j (.node kind start stop fields)
  | field {kind : NodeKind} {start stop : Tree} {fields : List Tree} {t : Tree} (hmem : t ∈ fields)
    (h : Holds j t) : Holds j (.node kind start stop fields)

/-- A complete tree is encoded as data that it is decoded from. -/
theorem Complete.exists_encode {t : Tree} (h : t.Complete) :
    ∃ j, t.encode = .ok j ∧ t.DecodedFrom j := by
  have hall : ∀ {list : List Tree}, (∀ t ∈ list, ∃ j, t.encode = .ok j ∧ t.DecodedFrom j) →
      ∃ js, encodeAll list = .ok js ∧ List.Forall₂ DecodedFrom list js := by
    intro list h
    obtain ⟨js, hjs, -, hdecode⟩ := exists_encodeAll (P := fun _ => True) fun t ht =>
      let ⟨j, hj, hdecode⟩ := h t ht
      ⟨j, hj, trivial, hdecode⟩
    exact ⟨js, hjs, hdecode⟩
  induction h with
  | scalar s => exact ⟨.scalar s, by rw [encode], fun place => by rw [decodeAt]⟩
  | list h ih =>
    obtain ⟨js, hjs, hdecode⟩ := hall ih
    refine ⟨.list js, ?_, fun place => ?_⟩
    · rw [encode, hjs]
      rfl
    · rw [decodeAt, decodeAll_of_forall hdecode]
      rfl
  | node hstart hstop hcount h ihstart ihstop ih =>
    obtain ⟨first, hfirst, hdecodeFirst⟩ := ihstart
    obtain ⟨last, hlast, hdecodeLast⟩ := ihstop
    obtain ⟨js, hjs, hdecode⟩ := hall ih
    refine ⟨_, ?_, decodedFrom_node hdecodeFirst hdecodeLast hcount hdecode⟩
    rw [encode, hfirst, hlast, hjs]
    rfl

/-- A computation fails exactly if something is there that is not supported, and with an error about
that. -/
def FailsOver {α : Type} (holds : Json → Prop) (x : Except TreeError α) : Prop :=
  match x with
  | .ok _ => ∀ j, ¬holds j
  | .error e => ∃ j, holds j ∧ e = .unsupported j.kindName

variable {α β : Type} {holds holds' : Json → Prop} {x : Except TreeError α}

theorem FailsOver.congr (hx : FailsOver holds x) (h : ∀ j, holds' j ↔ holds j) :
    FailsOver holds' x := by
  rwa [funext fun j => propext (h j)]

theorem FailsOver.map (hx : FailsOver holds x) (f : α → β) :
    FailsOver holds (x >>= fun a => pure (f a)) := by
  cases x with
  | error e => exact hx
  | ok a => exact hx

theorem FailsOver.bind {f : α → Except TreeError β} (hx : FailsOver holds x)
    (hf : ∀ a, FailsOver holds' (f a)) : FailsOver (fun j => holds j ∨ holds' j) (x >>= f) := by
  cases x with
  | error e =>
    obtain ⟨j, hj, he⟩ := hx
    exact ⟨j, .inl hj, he⟩
  | ok a =>
    show FailsOver _ (f a)
    have ha := hf a
    cases hfa : f a with
    | error e =>
      rw [hfa] at ha
      obtain ⟨j, hj, he⟩ := ha
      exact ⟨j, .inr hj, he⟩
    | ok b =>
      rw [hfa] at ha
      rintro j (hj | hj)
      · exact hx j hj
      · exact ha j hj

theorem holds_list {j : Json} {items : List Tree} :
    (Tree.list items).Holds j ↔ ∃ t ∈ items, t.Holds j :=
  ⟨fun | .item hmem h => ⟨_, hmem, h⟩, fun ⟨_, hmem, h⟩ => .item hmem h⟩

theorem holds_node {j : Json} {kind : NodeKind} {start stop : Tree} {fields : List Tree} :
    (Tree.node kind start stop fields).Holds j ↔
      start.Holds j ∨ stop.Holds j ∨ ∃ t ∈ fields, t.Holds j := by
  constructor
  · intro h
    cases h with
    | start h => exact .inl h
    | stop h => exact .inr (.inl h)
    | field hmem h => exact .inr (.inr ⟨_, hmem, h⟩)
  · rintro (h | h | ⟨t, hmem, h⟩)
    · exact .start h
    · exact .stop h
    · exact .field hmem h

mutual

/-- A tree is encoded unless something in it is not supported. -/
theorem encode_failsOver (t : Tree) : FailsOver (fun j => t.Holds j) t.encode := by
  cases t with
  | scalar s => exact fun j h => nomatch h
  | nan place => exact fun j h => nomatch h
  | foreign j => exact ⟨j, .here, rfl⟩
  | list items =>
    rw [encode]
    exact ((encodeAll_failsOver items).map _).congr fun j => holds_list
  | node kind start stop fields =>
    rw [encode]
    have hparts := (encode_failsOver start).bind fun first => (encode_failsOver stop).bind fun last =>
      (encodeAll_failsOver fields).map fun js => Json.object (("type", .scalar (.text kind.name)) ::
        ("start", first) :: ("end", last) :: kind.fields.zip js)
    exact hparts.congr fun j => holds_node

theorem encodeAll_failsOver (list : List Tree) :
    FailsOver (fun j => ∃ t ∈ list, t.Holds j) (encodeAll list) := by
  cases list with
  | nil => exact fun j ⟨_, hmem, _⟩ => nomatch hmem
  | cons t rest =>
    rw [encodeAll]
    have hparts := (encode_failsOver t).bind fun first =>
      (encodeAll_failsOver rest).map fun js => first :: js
    exact hparts.congr fun j => List.exists_mem_cons_iff _ _ _

end

/-- Encoding loses nothing of a complete tree, and tells complete trees apart; a tree that holds anything
else is not encoded. -/
theorem decode_encode (t : Tree) :
    (t.Complete → ∃ j, t.encode = .ok j ∧ decode j = .ok t ∧
      ∀ t' : Tree, t'.Complete → t'.encode = .ok j → t' = t) ∧
    ((∃ j, t.Holds j) → ∃ j, t.Holds j ∧ t.encode = .error (.unsupported j.kindName)) := by
  constructor
  · intro h
    obtain ⟨j, hj, hdecode⟩ := h.exists_encode
    refine ⟨j, hj, hdecode [], fun t' h' hj' => ?_⟩
    obtain ⟨j', hj₂, hdecode'⟩ := h'.exists_encode
    cases hj'.symm.trans hj₂
    exact Except.ok.inj ((hdecode' []).symm.trans (hdecode []))
  · rintro ⟨j, hj⟩
    have hfails := encode_failsOver t
    cases hencode : t.encode with
    | ok _ =>
      rw [hencode] at hfails
      exact absurd hj (hfails j)
    | error e =>
      rw [hencode] at hfails
      obtain ⟨j, hj, rfl⟩ := hfails
      exact ⟨j, hj, rfl⟩

/-- A name that is a truth value, at a place that is a text and a list of a node. -/
theorem decode_encode_odd_place :
    let odd : Tree := .node .identifier (.text "1") (.list [.node .emptyStatement .null (.int 1) []])
      [.bool true]
    odd.Complete ∧ (∃ j, odd.encode = .ok j ∧ decode j = .ok odd) ∧
      ∃ e, (Tree.node .program odd (.int 0) [.list [odd, .foreign (.object [])]]).encode = .error e := by
  intro odd
  have hodd : odd.Complete := by
    refine .node (.scalar _) (.list ?_) rfl ?_
    · exact List.forall_mem_singleton.2 (.node (.scalar _) (.scalar _) rfl (List.forall_mem_nil _))
    · exact List.forall_mem_singleton.2 (.scalar _)
  obtain ⟨j, hj, hdecode, -⟩ := (decode_encode odd).1 hodd
  obtain ⟨k, -, hk⟩ := (decode_encode (.node .program odd (.int 0) [.list [odd, .foreign (.object [])]])).2
    ⟨.object [], .field (List.mem_singleton.2 rfl) (.item (by simp) .here)⟩
  exact ⟨hodd, ⟨j, hj, hdecode⟩, _, hk⟩

end Scriptlet.Tree
