import Scriptlet.Proofs.TreeCodec

/-!
Which data are trees, and what becomes of them. Data are decoded exactly if they are complete: every object
that is reached through lists and through the members of nodes names a kind and has the members that the
kind cannot do without. What is decoded is encoded as the normal form of the data, which lacks the members
that no node has and has a default in place of each missing one; a second round changes nothing.
-/

namespace Scriptlet

/-- The names of the members of a node, apart from its type. -/
def NodeKind.members (kind : NodeKind) : List String :=
  "start" :: "end" :: kind.fields

namespace Json

variable {members : List (String × Json)} {kind : NodeKind} {name : String}

/-- The kind that an object names as its type. -/
def kind? (members : List (String × Json)) : Option NodeKind :=
  match members.lookup "type" with
  | some (.scalar (.text name)) => NodeKind.ofName? name
  | _ => none

/-- A member of a node. If it is missing, a place is zero, and the value of a null literal is null. -/
def member (members : List (String × Json)) (name : String) : Json :=
  (members.lookup name).getD
    (.scalar (if name = "start" ∨ name = "end" then .number (.int 0) else .null))

/-- All fields are there that have no default; only the field of a null literal has one. -/
def HasFields (kind : NodeKind) (members : List (String × Json)) (fields : List String) : Prop :=
  ∀ name ∈ fields, kind ≠ .nullLiteral → members.lookup name ≠ none

/-- Every object that is reached through lists and members of nodes names a kind and has its fields. -/
inductive Complete : Json → Prop
  | scalar (s : Scalar) : Complete (.scalar s)
  | nan : Complete .nan
  | list {items : List Json} (h : ∀ j ∈ items, Complete j) : Complete (.list items)
  | object {members : List (String × Json)} {kind : NodeKind} (hkind : kind? members = some kind)
      (hfields : HasFields kind members kind.fields)
      (h : ∀ name ∈ kind.members, Complete (member members name)) : Complete (.object members)

mutual

/-- Data without the members that no node has, and with defaults for the missing ones. -/
def normal : Json → Json
  | .list items => .list (normalAll items)
  | .object members =>
    match kind? members with
    | some kind => .object (("type", .scalar (.text kind.name)) ::
        kind.members.map fun name => (name, member (normalMembers members) name))
    | none => .object members
  | .scalar s => .scalar s
  | .nan => .nan
  | .foreign kind shown => .foreign kind shown

def normalAll : List Json → List Json
  | [] => []
  | j :: rest => j.normal :: normalAll rest

def normalMembers : List (String × Json) → List (String × Json)
  | [] => []
  | (name, j) :: rest => (name, j.normal) :: normalMembers rest

end

/-! ## Normal forms -/

theorem normalAll_eq_map (items : List Json) : normalAll items = items.map normal := by
  induction items with
  | nil => rfl
  | cons j rest ih => rw [normalAll, ih, List.map_cons]

theorem member_normalMembers (members : List (String × Json)) (name : String) :
    member (normalMembers members) name = (member members name).normal := by
  induction members with
  | nil => rw [normalMembers, member, List.lookup_nil, Option.getD_none, normal]
  | cons first rest ih =>
    rw [member, member, normalMembers, List.lookup_cons, List.lookup_cons]
    cases name == first.1 with
    | true => rfl
    | false => exact ih

theorem normal_object (h : kind? members = some kind) :
    (object members).normal = .object (("type", .scalar (.text kind.name)) ::
      kind.members.map fun name => (name, (member members name).normal)) := by
  rw [normal, h]
  simp only [member_normalMembers]

/-- The normal form of complete data is complete and is its own normal form. -/
theorem Complete.normal {j : Json} (h : j.Complete) : j.normal.Complete ∧ j.normal.normal = j.normal := by
  induction h with
  | scalar s =>
    rw [Json.normal, Json.normal]
    exact ⟨.scalar s, rfl⟩
  | nan => exact ⟨.nan, rfl⟩
  | list h ih =>
    rw [Json.normal, Json.normal, normalAll_eq_map, normalAll_eq_map, List.map_map]
    refine ⟨.list (List.forall_mem_map.2 fun j hj => (ih j hj).1), congrArg _ (List.map_congr_left ?_)⟩
    exact fun j hj => (ih j hj).2
  | @object members kind hkind _ _ ih =>
    have hlookup : ∀ name ∈ kind.members, (("type", .scalar (.text kind.name)) ::
        kind.members.map fun name => (name, (member members name).normal)).lookup name =
          some (member members name).normal := by
      intro name hname
      have hne : name ≠ "type" := by
        rintro rfl
        exact (List.nodup_cons.1 (Tree.nodup_members kind)).1 hname
      rw [List.lookup_cons, beq_eq_false_iff_ne.2 hne]
      exact List.lookup_graph _ hname
    have hkind' : kind? (("type", .scalar (.text kind.name)) ::
        kind.members.map fun name => (name, (member members name).normal)) = some kind := by
      cases kind <;> rfl
    rw [normal_object hkind, normal_object hkind']
    refine ⟨.object hkind' (fun name hname _ => ?_) fun name hname => ?_, ?_⟩
    · rw [hlookup name (List.mem_cons_of_mem _ (List.mem_cons_of_mem _ hname))]
      exact Option.some_ne_none _
    · rw [member, hlookup name hname]
      exact (ih name hname).1
    · refine congrArg (fun rest => Json.object (_ :: rest)) (List.map_congr_left fun name hname => ?_)
      rw [member, hlookup name hname, Option.getD_some, (ih name hname).2]

end Json

namespace Tree

open Json (kind? member HasFields)

variable {members : List (String × Json)} {kind : NodeKind} {name : String} {place : List Nat} {t : Tree}
  {j : Json}

/-! ## Decoding -/

theorem bind_eq_ok {α β : Type} {x : Except TreeError α} {f : α → Except TreeError β} {b : β} :
    x >>= f = .ok b ↔ ∃ a, x = .ok a ∧ f a = .ok b := by
  cases x with
  | error e => simp [bind, Except.bind]
  | ok a => simp [bind, Except.bind]

theorem kindOf_eq_ok : kindOf (members.lookup "type") = .ok kind ↔ kind? members = some kind := by
  rw [kind?, kindOf.eq_def]
  cases members.lookup "type" with
  | none => simp
  | some j =>
    cases j with
    | scalar s =>
      cases s with
      | text name => cases h : NodeKind.ofName? name <;> simp [h]
      | _ => simp
    | _ => simp

/-- The member of a name is decoded as a tree, at its place in the document. -/
def Gives (place : List Nat) (members : List (String × Json)) (name : String) (t : Tree) : Prop :=
  decodeAt (members.findIdx (name == ·.1) :: place) (member members name) = .ok t

theorem lookup_decodeMembers_eq (place : List Nat) (i : Nat) (members : List (String × Json))
    (name : String) : (decodeMembers place i members).lookup name =
      (members.lookup name).map (decodeAt ((i + members.findIdx (name == ·.1)) :: place)) := by
  induction members generalizing i with
  | nil => rfl
  | cons first rest ih =>
    rw [decodeMembers, List.lookup_cons, List.lookup_cons, List.findIdx_cons]
    cases name == first.1 with
    | true => rfl
    | false => rw [ih, cond_false, Nat.add_right_comm, Nat.add_assoc]

/-- A missing place counts as its default. -/
theorem gives_place (hname : name = "start" ∨ name = "end") :
    ((decodeMembers place 0 members).lookup name).getD (.ok (.int 0)) = .ok t ↔
      Gives place members name t := by
  rw [lookup_decodeMembers_eq, Nat.zero_add, Gives, member]
  cases members.lookup name with
  | none => rw [Option.getD_none, if_pos hname, decodeAt]; rfl
  | some j => rfl

/-- A missing field counts as its default if it has one. -/
theorem gives_field (hname : name ∈ kind.fields) :
    ((decodeMembers place 0 members).lookup name).getD (defaultField kind name) = .ok t ↔
      (kind ≠ .nullLiteral → members.lookup name ≠ none) ∧ Gives place members name t := by
  have hne : ¬ (name = "start" ∨ name = "end") := by
    have hnodup := nodup_members kind
    simp only [List.nodup_cons, List.mem_cons, not_or] at hnodup
    rintro (rfl | rfl)
    · exact hnodup.2.1.2 hname
    · exact hnodup.2.2.1 hname
  rw [lookup_decodeMembers_eq, Nat.zero_add, Gives, member]
  cases members.lookup name with
  | none => by_cases hkind : kind = .nullLiteral <;> simp [defaultField, hkind, hne, decodeAt]
  | some j => simp

theorem pickFields_eq_ok {names : List String} {fields : List Tree} (hnames : names ⊆ kind.fields) :
    pickFields kind (decodeMembers place 0 members) names = .ok fields ↔
      HasFields kind members names ∧ List.Forall₂ (Gives place members) names fields := by
  induction names generalizing fields with
  | nil =>
    simp only [pickFields, HasFields, List.forall₂_nil_left_iff, Except.ok.injEq, eq_comm (b := fields)]
    exact ⟨fun h => ⟨List.forall_mem_nil _, h⟩, And.right⟩
  | cons name names ih =>
    obtain ⟨hname, hnames⟩ := List.cons_subset.1 hnames
    simp only [pickFields, gives_field hname, bind_eq_ok, ih hnames, HasFields, List.forall_mem_cons,
      List.forall₂_cons_left_iff, pure, Except.pure, Except.ok.injEq]
    constructor
    · rintro ⟨t, ⟨hfirst, ht⟩, rest, ⟨hrest, hgives⟩, rfl⟩
      exact ⟨⟨hfirst, hrest⟩, t, rest, ht, hgives, rfl⟩
    · rintro ⟨⟨hfirst, hrest⟩, t, rest, ht, hgives, rfl⟩
      exact ⟨t, ⟨hfirst, ht⟩, rest, ⟨hrest, hgives⟩, rfl⟩

/-- An object is decoded if it names a kind, has its fields, and each of its members is decoded. -/
theorem decodeAt_object : decodeAt place (.object members) = .ok t ↔ ∃ kind start stop fields,
    kind? members = some kind ∧ HasFields kind members kind.fields ∧ t = .node kind start stop fields ∧
      List.Forall₂ (Gives place members) kind.members (start :: stop :: fields) := by
  simp only [decodeAt, ofMembers, bind_eq_ok, kindOf_eq_ok, gives_place (.inl rfl), gives_place (.inr rfl),
    pickFields_eq_ok (List.Subset.refl _), NodeKind.members, List.forall₂_cons]
  constructor
  · rintro ⟨kind, hkind, start, hstart, stop, hstop, fields, ⟨hfields, hgives⟩, ⟨⟩⟩
    exact ⟨kind, start, stop, fields, hkind, hfields, rfl, hstart, hstop, hgives⟩
  · rintro ⟨kind, start, stop, fields, hkind, hfields, rfl, hstart, hstop, hgives⟩
    exact ⟨kind, hkind, start, hstart, stop, hstop, fields, ⟨hfields, hgives⟩, rfl⟩

mutual

/-- Only complete data are decoded. -/
theorem complete_of_decodeAt (j : Json) {place : List Nat} {t : Tree} (h : decodeAt place j = .ok t) :
    j.Complete := by
  cases j with
  | scalar s => exact .scalar s
  | nan => exact .nan
  | foreign kind shown =>
    rw [decodeAt] at h
    cases h
  | list items =>
    rw [decodeAt, bind_eq_ok] at h
    obtain ⟨list, hlist, -⟩ := h
    exact .list (complete_of_decodeAll items hlist)
  | object members =>
    obtain ⟨kind, start, stop, fields, hkind, hfields, -, hgives⟩ := decodeAt_object.1 h
    have hall : List.Forall₂ (fun name t => (member members name).Complete ∧ Gives place members name t)
        kind.members (start :: stop :: fields) :=
      hgives.imp fun name t ht => ⟨complete_of_member members ht, ht⟩
    exact .object hkind hfields ((List.forall₂_and_left _ _).1 hall).1

theorem complete_of_decodeAll (items : List Json) {place : List Nat} {i : Nat} {list : List Tree}
    (h : decodeAll place i items = .ok list) : ∀ j ∈ items, j.Complete := by
  cases items with
  | nil => exact List.forall_mem_nil _
  | cons j rest =>
    simp only [decodeAll, bind_eq_ok] at h
    obtain ⟨t, ht, others, hothers, -⟩ := h
    exact List.forall_mem_cons.2 ⟨complete_of_decodeAt j ht, complete_of_decodeAll rest hothers⟩

theorem complete_of_member (members : List (String × Json)) {name : String} {place : List Nat} {t : Tree}
    (h : decodeAt place (member members name) = .ok t) : (member members name).Complete := by
  cases members with
  | nil => exact .scalar _
  | cons first rest =>
    obtain ⟨other, j⟩ := first
    rw [member, List.lookup_cons] at h ⊢
    cases hname : name == other with
    | true =>
      rw [hname] at h
      exact complete_of_decodeAt j h
    | false =>
      rw [hname] at h
      exact complete_of_member rest h

end

/-- Complete data are decoded as a tree that is encoded as their normal form. -/
theorem exists_decodeAt (h : j.Complete) (place : List Nat) :
    ∃ t, decodeAt place j = .ok t ∧ t.encode = .ok j.normal := by
  induction h generalizing place with
  | scalar s => exact ⟨.scalar s, by rw [decodeAt], by rw [encode, Json.normal]⟩
  | nan => exact ⟨.nan place, by rw [decodeAt], by rw [encode, Json.normal]⟩
  | @list items h ih =>
    have hall : ∀ i, ∃ list, decodeAll place i items = .ok list ∧
        encodeAll list = .ok (Json.normalAll items) := by
      clear h
      induction items with
      | nil => exact fun i => ⟨[], rfl, rfl⟩
      | cons j rest ihrest =>
        intro i
        obtain ⟨t, ht, hencode⟩ := ih j List.mem_cons_self (i :: place)
        obtain ⟨list, hlist, hencodes⟩ := ihrest (fun j hj => ih j (List.mem_cons_of_mem _ hj)) (i + 1)
        refine ⟨t :: list, by rw [decodeAll, ht, hlist]; rfl, ?_⟩
        rw [encodeAll, hencode, hencodes, Json.normalAll]
        rfl
    obtain ⟨list, hlist, hencode⟩ := hall 0
    refine ⟨.list list, by rw [decodeAt, hlist]; rfl, ?_⟩
    rw [encode, hencode, Json.normal]
    rfl
  | @object members kind hkind hfields _ ih =>
    have hgives : ∀ name ∈ kind.members, ∃ t, Gives place members name t ∧
        t.encode = .ok (member members name).normal := fun name hname => ih name hname _
    choose! part hpart hencode using hgives
    have hparts : ∀ names : List String, names ⊆ kind.members →
        encodeAll (names.map part) = .ok (names.map fun name => (member members name).normal) := by
      intro names hnames
      induction names with
      | nil => rfl
      | cons name names ih =>
        obtain ⟨hname, hnames⟩ := List.cons_subset.1 hnames
        rw [List.map_cons, encodeAll, hencode name hname, ih hnames]
        rfl
    refine ⟨.node kind (part "start") (part "end") (kind.fields.map part), decodeAt_object.2
      ⟨kind, _, _, _, hkind, hfields, rfl, List.forall₂_map_right_iff.2 (List.forall₂_same.2 hpart)⟩, ?_⟩
    rw [encode, hencode "start" List.mem_cons_self, hencode "end" (by simp [NodeKind.members]),
      hparts kind.fields fun name hname => List.mem_cons_of_mem _ (List.mem_cons_of_mem _ hname),
      Json.normal_object hkind, NodeKind.members, List.map_cons, List.map_cons, List.map_prod_left_eq_zip]
    rfl

/-- Data are decoded exactly if they are complete. The tree is then encoded as their normal form, from which
decoding and encoding give the same again. -/
theorem decode_normalizes (j : Json) :
    ((∃ t, decode j = .ok t) ↔ j.Complete) ∧
      ∀ t, decode j = .ok t → t.encode = .ok j.normal ∧
        ∃ t', decode j.normal = .ok t' ∧ t'.encode = .ok j.normal := by
  have hsome : j.Complete → ∃ t, decode j = .ok t ∧ t.encode = .ok j.normal := fun h => exists_decodeAt h []
  refine ⟨⟨?_, fun h => (hsome h).imp fun _ => And.left⟩, fun t ht => ?_⟩
  · rintro ⟨t, ht⟩
    exact complete_of_decodeAt j ht
  · have hcomplete := complete_of_decodeAt j ht
    obtain ⟨t', ht', hencode⟩ := hsome hcomplete
    cases ht.symm.trans ht'
    obtain ⟨t', ht', hencode'⟩ := exists_decodeAt hcomplete.normal.1 []
    rw [hcomplete.normal.2] at hencode'
    exact ⟨hencode, t', ht', hencode'⟩

/-- A member that no node has may be anything, and an undefined number may be a place. -/
theorem decode_normalizes_null_literal :
    let data : Json := .object [("note", .object []), ("type", .scalar (.text "ExpressionStatement")),
      ("expression", .object [("start", .nan), ("type", .scalar (.text "NullLiteral"))])]
    let normal : Json := .object [("type", .scalar (.text "ExpressionStatement")),
      ("start", .scalar (.number (.int 0))), ("end", .scalar (.number (.int 0))),
      ("expression", .object [("type", .scalar (.text "NullLiteral")), ("start", .nan),
        ("end", .scalar (.number (.int 0))), ("value", .scalar .null)])]
    data.Complete ∧ (∃ t, decode data = .ok t ∧ t.encode = .ok normal) ∧
      ¬ (Json.list [data, .object [("note", data)]]).Complete := by
  intro data normal
  obtain ⟨t, ht⟩ : ∃ t, decode data = .ok t := ⟨_, rfl⟩
  have hdata := decode_normalizes data
  refine ⟨hdata.1.1 ⟨t, ht⟩, ⟨t, ht, (hdata.2 t ht).1⟩, fun h => ?_⟩
  obtain ⟨t, ht⟩ := (decode_normalizes _).1.2 h
  cases ht

end Tree

end Scriptlet
