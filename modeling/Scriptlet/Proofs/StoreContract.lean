import Scriptlet.Proofs.MovedScopes
import Scriptlet.Proofs.Timelines

/-!
The contract that all runs keep with the store. The ledger of a store lists the parents of its scopes and,
for each function declared so far, how many scopes there were at its declaration; it is only ever added
to. A function held anywhere was declared in one of the scopes that were there at the time, so its scope
exists.

Some words may be kept: their global bindings stay what they are, as long as no tree that is run assigns
to such a word or declares it where declarations are global. Functions carry their bodies along, so the
same is asked of the body of every function that is held.

The rules go the same way on machines whose scopes are laid out differently (`storing`): same interrupt or
same result up to the layout, on machines that are laid out as before. Statements are carried out in the
home of a scope, as they may bind names there. Expressions bind nothing in the scope that they are
evaluated in, so any scope that stands for it will do.
-/

namespace Scriptlet

/-! ## Words in trees -/

namespace Tree

/-- The word that a node names, if it names one. -/
def words (t : Tree) : List String :=
  match t.name? with
  | some (.text word) => [word]
  | _ => []

/-- The word that a node itself assigns to. -/
def targets (kind : NodeKind) (fields : List Tree) : List String :=
  match kind, fields with
  | .assignmentExpression, [_, left, _] => left.words
  | _, _ => []

mutual

/-- The words that are assigned to anywhere in a tree. -/
def assigned : Tree → List String
  | .node kind _ _ fields => targets kind fields ++ assignedAll fields
  | .list items => assignedAll items
  | _ => []

def assignedAll : List Tree → List String
  | [] => []
  | t :: rest => t.assigned ++ assignedAll rest

end

/-- The words that the declarations of one statement declare. -/
def declaredIn (declarations : Tree) : List String :=
  (declarations.items?.getD []).flatMap fun d => (d.id?.map words).getD []

mutual

/-- The words that statements declare in the scope that they are carried out in: outside of every block,
`for` loop and function body. -/
def declared : Tree → List String
  | .list items => declaredAll items
  | .node .variableStatement _ _ [declarations] => declaredIn declarations
  | .node .functionDeclaration _ _ [name, _, _] => name.words
  | .node .ifStatement _ _ [_, consequent, alternate] => declared consequent ++ declared alternate
  | .node .whileStatement _ _ [_, body] => declared body
  | .node .doWhileStatement _ _ [body, _] => declared body
  | _ => []

def declaredAll : List Tree → List String
  | [] => []
  | t :: rest => t.declared ++ declaredAll rest

end

theorem mem_assignedAll {word : String} {list : List Tree} :
    word ∈ assignedAll list ↔ ∃ t ∈ list, word ∈ t.assigned := by
  induction list with
  | nil => simp [assignedAll]
  | cons t rest ih => simp [assignedAll, ih]

theorem mem_declaredAll {word : String} {list : List Tree} :
    word ∈ declaredAll list ↔ ∃ t ∈ list, word ∈ t.declared := by
  induction list with
  | nil => simp [declaredAll]
  | cons t rest ih => simp [declaredAll, ih]

/-- A node assigns to what its fields assign to. -/
theorem assigned_field {kind : NodeKind} {start stop t : Tree} {fields : List Tree} (h : t ∈ fields) :
    t.assigned ⊆ (node kind start stop fields).assigned := by
  intro word hword
  rw [assigned]
  exact List.mem_append_right _ (mem_assignedAll.2 ⟨t, h, hword⟩)

theorem assigned_item {t u : Tree} {list : List Tree} (hitems : t.items? = some list) (h : u ∈ list) :
    u.assigned ⊆ t.assigned := by
  intro word hword
  unfold items? at hitems
  split at hitems
  · cases hitems
    rw [assigned]
    exact mem_assignedAll.2 ⟨u, h, hword⟩
  · cases hitems
    obtain ⟨c, -, rfl⟩ := List.mem_map.1 h
    cases hword
  · cases hitems

theorem declared_item {t u : Tree} {list : List Tree} (hitems : t.items? = some list) (h : u ∈ list) :
    u.declared ⊆ t.declared := by
  intro word hword
  unfold items? at hitems
  split at hitems
  · cases hitems
    rw [declared]
    exact mem_declaredAll.2 ⟨u, h, hword⟩
  · cases hitems
    obtain ⟨c, -, rfl⟩ := List.mem_map.1 h
    simp [declared] at hword
  · cases hitems

theorem assigned_body {t body : Tree} (h : t.body? = some body) : body.assigned ⊆ t.assigned := by
  unfold body? at h
  split at h <;> cases h <;> exact assigned_field (by simp)

theorem assigned_init {t init : Tree} (h : t.init? = some init) : init.assigned ⊆ t.assigned := by
  unfold init? at h
  split at h <;> cases h <;> exact assigned_field (by simp)

end Tree

/-! ## Ledgers -/

/-- Of the scopes and functions that there were so far. -/
structure Ledger where
  /-- The parent of each scope. -/
  parents : List (Option Nat)
  /-- For each function, how many scopes there were when it was declared. -/
  births : List Nat
  older : ∀ i parent : Nat, parents[i]? = some (some parent) → parent < i
  born : ∀ born ∈ births, born ≤ parents.length

namespace Ledger

instance : Preorder Ledger where
  le w w' := w.parents <+: w'.parents ∧ w.births <+: w'.births
  le_refl w := ⟨List.prefix_refl _, List.prefix_refl _⟩
  le_trans _ _ _ h h' := ⟨h.1.trans h'.1, h.2.trans h'.2⟩

variable {w w' : Ledger}

/-- A scope exists. -/
def Has (w : Ledger) (s : Nat) : Prop :=
  s < w.parents.length

/-- The scope that is opened next is younger than its parent, as the others are. -/
theorem older_concat (w : Ledger) {parent : Nat} (h : w.Has parent) (i p : Nat)
    (hp : (w.parents ++ [some parent])[i]? = some (some p)) : p < i := by
  rcases Nat.lt_trichotomy i w.parents.length with hi | hi | hi
  · rw [List.getElem?_append_left hi] at hp
    exact w.older i p hp
  · subst hi
    rw [List.getElem?_concat_length] at hp
    cases hp
    exact h
  · have hlength : (w.parents ++ [some parent]).length ≤ i := by
      rw [List.length_append, List.length_singleton]
      exact hi
    rw [List.getElem?_eq_none hlength] at hp
    cases hp

/-- The ledger after a scope is opened. -/
def opened (w : Ledger) {parent : Nat} (h : w.Has parent) : Ledger where
  parents := w.parents ++ [some parent]
  births := w.births
  older := w.older_concat h
  born born hborn :=
    Nat.le_trans (w.born born hborn) (List.prefix_append w.parents [some parent]).length_le

/-- The ledger after a function gets its number. -/
def numbered (w : Ledger) : Ledger where
  parents := w.parents
  births := w.births ++ [w.parents.length]
  older := w.older
  born born hborn := by
    rcases List.mem_append.1 hborn with hborn | hborn
    · exact w.born born hborn
    · exact Nat.le_of_eq (List.mem_singleton.1 hborn)

theorem le_opened (w : Ledger) {parent : Nat} (h : w.Has parent) : w ≤ w.opened h :=
  ⟨List.prefix_append _ _, List.prefix_refl _⟩

theorem le_numbered (w : Ledger) : w ≤ w.numbered :=
  ⟨List.prefix_refl _, List.prefix_append _ _⟩

theorem Has.mono {s : Nat} (h : w.Has s) (hle : w ≤ w') : w'.Has s :=
  Nat.lt_of_lt_of_le h hle.1.length_le

end Ledger

/-- Which words are kept, with their values. -/
abbrev Keepsakes := String → Option Value

variable {kept : Keepsakes} {w w' : Ledger}

/-- A tree assigns to no word that is kept. -/
def Tree.Avoids (kept : Keepsakes) (t : Tree) : Prop :=
  ∀ word ∈ t.assigned, kept word = none

theorem Tree.Avoids.of_subset {t u : Tree} (h : t.Avoids kept) (hsub : u.assigned ⊆ t.assigned) :
    u.Avoids kept :=
  fun word hword => h word (hsub hword)

theorem Tree.Avoids.field {kind : NodeKind} {start stop t : Tree} {fields : List Tree}
    (h : (Tree.node kind start stop fields).Avoids kept) (ht : t ∈ fields) : t.Avoids kept :=
  h.of_subset (Tree.assigned_field ht)

/-- A statement may be carried out in a scope: it assigns to no word that is kept, and declares none in
the global scope. -/
def Tree.Suits (kept : Keepsakes) (s : Nat) (t : Tree) : Prop :=
  t.Avoids kept ∧ (s = Machine.globalScope → ∀ word ∈ t.declared, kept word = none)

/-- A name may get another value. -/
def Tree.Free (kept : Keepsakes) (name : Tree) : Prop :=
  ∀ word, name = .text word → kept word = none

/-- A value may be held: a function was declared in a scope that existed then, and its body assigns to no
word that is kept. -/
def Value.Held (kept : Keepsakes) (w : Ledger) : Value → Prop
  | .closure f => (∃ born, w.births[f.id]? = some born ∧ f.scope < born) ∧ f.body.Avoids kept
  | .scalar _ | .native _ | .data _ => True

theorem Value.Held.mono {v : Value} (h : v.Held kept w) (hle : w ≤ w') : v.Held kept w' := by
  cases v with
  | scalar | native | data => trivial
  | closure f =>
    obtain ⟨⟨born, hborn, hscope⟩, hbody⟩ := h
    exact ⟨⟨born, Pairing.getElem?_of_prefix hle.2 hborn, hscope⟩, hbody⟩

def Completion.Held (kept : Keepsakes) (w : Ledger) : Completion → Prop
  | .normal => True
  | .returned value _ => value.Held kept w

/-- A ledger describes the store of a machine, in which the kept words are bound as they should be. -/
structure Ledger.Describes (kept : Keepsakes) (w : Ledger) (m : Machine) : Prop where
  parents : m.scopes.all.toList.map (·.parent) = w.parents
  births : w.births.length = m.nextClosure
  held : ∀ scope ∈ m.scopes.all, ∀ binding ∈ scope.bindings, binding.2.Held kept w
  kept : ∀ word value, kept word = some value →
    (m.scopes.bindings Machine.globalScope).lookup (.word word) = some value

/-! ## The contract -/

/-- What the rules may rely on and have to bring about so that a ledger goes on to describe the store:
the scopes that they work in exist, the values that they handle belong to the store, and the words that
are kept are neither assigned nor declared in the global scope. -/
def storeContract (kept : Keepsakes) : Contract Ledger where
  Sound := Ledger.Describes kept
  Fits w
    | .evaluate s t => w.Has s ∧ t.Avoids kept
    | .call _ f args => f.Held kept w ∧ ∀ v ∈ args, v.Held kept w
    | .executeAll s t | .execute s t => w.Has s ∧ t.Suits kept s
  Yields w
    | .evaluate .., v | .call .., v => v.Held kept w
    | .executeAll .., done | .execute .., done => done.Held kept w
  Allows w
    | .openScope parent => w.Has parent
    | .define s name v => w.Has s ∧ v.Held kept w ∧ (s = Machine.globalScope → name.Free kept)
    | .lookup _ s _ => w.Has s
    | .assign _ s name v => w.Has s ∧ v.Held kept w ∧ name.Free kept
    | .native _ args => ∀ v ∈ args, v.Held kept w
    | .number | .debug .. => True
  Brings w
    | .openScope parent, s => w.parents[s]? = some (some parent) ∧ s ≠ Machine.globalScope
    | .number, id => w.births[id]? = some w.parents.length
    | .lookup .., v | .assign .., v | .native .., v => v.Held kept w
    | .define .., _ | .debug .., _ => True

/-! ## Accesses -/

theorem Name.word_beq {word : String} {name : Name} :
    (Name.word word == name) = true ↔ name = .word word := by
  cases name with
  | word text =>
    show decide (word = text) = true ↔ _
    rw [decide_eq_true_iff, Name.word.injEq, eq_comm]
  | datum t => exact ⟨nofun, nofun⟩

theorem Name.beq_word {word : String} {name : Name} :
    (name == Name.word word) = true ↔ name = .word word := by
  cases name with
  | word text =>
    show decide (text = word) = true ↔ _
    rw [decide_eq_true_iff, Name.word.injEq]
  | datum t => exact ⟨nofun, nofun⟩

/-- Binding one name leaves the others alone. -/
theorem Scope.lookup_setBinding {α : Type} {name : Name} {word : String} (h : name ≠ .word word)
    (value : α) (list : List (Name × α)) :
    (Scope.setBinding name value list).lookup (.word word) = list.lookup (.word word) := by
  induction list with
  | nil =>
    have hother : (Name.word word == name) = false := Bool.of_not_eq_true (h ∘ Name.word_beq.1)
    rw [Scope.setBinding, List.lookup_cons, hother]
  | cons first rest ih =>
    obtain ⟨other, old⟩ := first
    rw [Scope.setBinding]
    split
    · rename_i hsame
      have hother : (Name.word word == other) = false := by
        refine Bool.of_not_eq_true fun hword => h ?_
        rw [Name.word_beq.1 hword] at hsame
        exact Name.word_beq.1 hsame
      rw [List.lookup_cons, List.lookup_cons, hother]
    · rw [List.lookup_cons, List.lookup_cons, ih]

theorem Scopes.parents_define {α : Type} (scopes : Scopes α) (s : Nat) (name : Name) (value : α) :
    (scopes.define s name value).all.toList.map (·.parent) = scopes.all.toList.map (·.parent) := by
  apply List.ext_getElem?
  intro i
  simp only [Scopes.define, Array.toList_modify, List.getElem?_map, List.getElem?_modify]
  split <;> cases scopes.all.toList[i]? <;> rfl

namespace Ledger.Describes

variable {m m' : Machine}

theorem sameStore (h : w.Describes kept m) (hstore : m.SameStore m') : w.Describes kept m' where
  parents := hstore.scopes ▸ h.parents
  births := h.births.trans hstore.number.symm
  held := hstore.scopes ▸ h.held
  kept := hstore.scopes ▸ h.kept

theorem size (h : w.Describes kept m) : m.scopes.all.size = w.parents.length := by
  rw [← h.parents, List.length_map, Array.length_toList]

/-- What is bound in a larger ledger's world is held there too. -/
theorem held_mono (h : w.Describes kept m) (hle : w ≤ w') :
    m.scopes.Hold (Value.Held kept w') :=
  fun scope hscope binding hbinding => (h.held scope hscope binding hbinding).mono hle

/-- A scope is opened. -/
theorem push (h : w.Describes kept m) {parent : Nat} (hparent : w.Has parent) :
    (w.opened hparent).Describes kept { m with scopes := (m.scopes.push (some parent)).2 } where
  parents := by simp [opened, Scopes.push, h.parents]
  births := h.births
  held := Scopes.Hold.push (h.held_mono (w.le_opened hparent)) (some parent)
  kept word value hword := by
    have hbindings : Scopes.bindings (m.scopes.push (some parent)).2 Machine.globalScope =
        m.scopes.bindings Machine.globalScope := by
      have hsize : Machine.globalScope < m.scopes.all.size :=
        h.size ▸ Nat.lt_of_le_of_lt (Nat.zero_le _) hparent
      unfold Scopes.bindings Scopes.push
      dsimp only
      rw [Array.getElem?_push_lt hsize, Array.getElem?_eq_getElem hsize]
    rw [hbindings]
    exact h.kept word value hword

/-- A name is bound in a scope. -/
theorem define (h : w.Describes kept m) {s : Nat} {name : Name} {value : Value}
    (hvalue : value.Held kept w)
    (hfree : s = Machine.globalScope → ∀ word, name = .word word → kept word = none) :
    w.Describes kept { m with scopes := m.scopes.define s name value } where
  parents := (Scopes.parents_define m.scopes s name value).trans h.parents
  births := h.births
  held := Scopes.Hold.define h.held s name hvalue
  kept word other hword := by
    rw [← h.kept word other hword]
    by_cases hs : s = Machine.globalScope
    · subst hs
      have hname : name ≠ .word word := by
        intro hname
        rw [hfree rfl word hname] at hword
        cases hword
      cases hscope : m.scopes.all[Machine.globalScope]? with
      | none =>
        have hbound := h.kept word other hword
        simp [Scopes.bindings, hscope] at hbound
      | some scope =>
        rw [Scopes.bindings_define_self hscope, Scope.lookup_setBinding hname]
        simp only [Scopes.bindings, hscope]
    · rw [Scopes.bindings_define_of_ne hs]

/-- A function gets its number. -/
theorem number (h : w.Describes kept m) :
    w.numbered.Describes kept { m with nextClosure := m.nextClosure + 1 } where
  parents := h.parents
  births := by simp [numbered, h.births]
  held := h.held_mono w.le_numbered
  kept := h.kept

theorem get? (h : w.Describes kept m) {s : Nat} {name : Name} {value : Value}
    (hget : m.scopes.get? s name = some value) : value.Held kept w :=
  Scopes.Hold.get? h.held hget

end Ledger.Describes

/-! ## Runs -/

/-- A name that stands for a word is that word. -/
theorem Name.eq_text_of_ofTree? {name : Tree} {word : String}
    (h : Name.ofTree? name = some (.word word)) : name = .text word := by
  unfold Name.ofTree? at h
  split at h
  · cases h
    rfl
  · split at h <;> cases h

/-- Runs on machines whose scopes are laid out differently, with a ledger of the first. -/
def storing (kept : Keepsakes) (L : Layout) : Kinship Ledger where
  Sound w m m' := w.Describes kept m ∧ Moved L m m'
  Values w v v' := v' = v.moved L ∧ v.Held kept w
  Views w s s' := L.stands s' = s ∧ w.Has s
  Opened w s s' := s' = L.home s ∧ w.Has s ∧ s ≠ Machine.globalScope
  Binds w s s' name := s' = L.home s ∧ w.Has s ∧ (s = Machine.globalScope → name.Free kept)
  Exprs t t' := t = t' ∧ t.Avoids kept
  Stmts w s s' t t' := t = t' ∧ s' = L.home s ∧ w.Has s ∧ t.Suits kept s
  Bodies w s s' t t' := t = t' ∧ s' = L.home s ∧ w.Has s ∧ t.Suits kept s
  Numbers w n n' := n = n' ∧ w.births[n]? = some w.parents.length
  Targets name := name.Free kept

namespace storing

variable {L : Layout}

theorem basics : (storing kept L).Basics where
  values_mono hle h := ⟨h.1, h.2.mono hle⟩
  views_mono hle h := ⟨h.1, h.2.mono hle⟩
  opened_mono hle h := ⟨h.1, h.2.1.mono hle, h.2.2⟩
  binds_mono hle h := ⟨h.1, h.2.1.mono hle, h.2.2⟩
  stmts_mono hle h := ⟨h.1, h.2.1, h.2.2.1.mono hle, h.2.2.2⟩
  stmts_views := by
    rintro w s _ t _ ⟨-, rfl, hs, -⟩
    exact ⟨L.stands_home s, hs⟩
  opened_binds h _ := ⟨h.1, h.2.1, fun hglobal => absurd hglobal h.2.2⟩
  scalar := ⟨rfl, trivial⟩
  twin := by
    rintro w v _ ⟨rfl, -⟩
    cases v with
    | scalar | native | data => exact .same _
    | closure f => exact .closure rfl rfl
  noFuel := rfl
  raised := by
    rintro t _ cause rfl -
    rfl

theorem sameTrees : (storing kept L).SameTrees (Tree.Avoids kept)
    fun w s s' t => s' = L.home s ∧ w.Has s ∧ t.Suits kept s where
  exprs := Iff.rfl
  stmts := Iff.rfl
  bodies := Iff.rfl
  nodes := rfl
  names := trivial
  faults := rfl
  data := ⟨rfl, trivial⟩
  part := Tree.Avoids.field
  item h hlist hu := h.of_subset (Tree.assigned_item hlist hu)
  init h hinit := h.of_subset (Tree.assigned_init hinit)
  target := by
    rintro start stop operator left right name h hname word rfl
    exact h word (by simp [Tree.assigned, Tree.targets, Tree.words, hname])
  expr h := h.2.2.1
  branch := by
    rintro w s s' t u ⟨hs, hhas, havoids, hdeclared⟩ hu
    cases hu with
    | item hlist hu =>
      exact ⟨hs, hhas, havoids.of_subset (Tree.assigned_item hlist hu),
        fun hglobal word hword => hdeclared hglobal word (Tree.declared_item hlist hu hword)⟩
    | consequent | alternate | whileBody | doBody =>
      exact ⟨hs, hhas, havoids.field (by simp), fun hglobal word hword =>
        hdeclared hglobal word (by simp [Tree.declared, hword])⟩
  opened h ht := ⟨h.1, h.2.1, ht, fun hglobal => absurd hglobal h.2.2⟩
  introduces := by
    rintro w s s' t name ⟨hs, hhas, -, hdeclared⟩ hname
    refine ⟨hs, hhas, ?_⟩
    rintro hglobal word rfl
    refine hdeclared hglobal word ?_
    cases hname with
    | function hname => simp [Tree.declared, Tree.words, hname]
    | declaration hlist hd hid hname =>
      rw [Tree.declared, Tree.declaredIn, hlist]
      exact List.mem_flatMap.2 ⟨_, hd, by simp [hid, Tree.words, hname]⟩
  function := by
    rintro w s _ start stop w' n _ name id params body ⟨rfl, hhas, hsuits⟩ hle ⟨rfl, hborn⟩
    -- The function gets its number while its scope is there, and so it can be held.
    exact ⟨rfl, ⟨_, hborn, hhas.mono hle⟩, hsuits.1.field (by simp)⟩

theorem lawful : (storing kept L).Lawful := by
  refine sameTrees.lawful basics ?_
  rintro w f _ ⟨hf, ⟨born, hborn, hscope⟩, hbody⟩
  cases hf
  have hhas : w.Has f.scope :=
    Nat.lt_of_lt_of_le hscope (w.born born (List.mem_of_getElem? hborn))
  exact
    { scope := ⟨L.stands_home f.scope, hhas⟩
      params := sameTrees.items fun _ _ _ _ => sameTrees.named fun _ _ => trivial
      body := fun _ hs => sameTrees.need fun body hneed =>
        ⟨rfl, sameTrees.opened hs (hbody.of_subset (Tree.assigned_body hneed))⟩ }

theorem lt_of_views {m m' : Machine} {s s' : Nat} (hm : (storing kept L).Sound w m m')
    (hs : (storing kept L).Views w s s') : s' < m'.scopes.all.size := by
  apply hm.2.lt_of_stands_lt
  rw [hm.1.size, hs.1]
  exact hs.2

theorem calls : (storing kept L).Calls where
  others h := h.2.others
  aside := by
    rintro f w m m' hf ⟨hw, hm⟩
    obtain ⟨scopes, rfl⟩ := hm.others
    cases hf with
    | write | readLine | readClock | record | depth =>
      exact ⟨hw.sameStore ⟨rfl, rfl⟩, hm.update rfl rfl ⟨scopes, rfl⟩⟩
  push := by
    intro w m m' s s' hm hs
    have hlt := lt_of_views hm hs
    obtain ⟨rfl, hhas⟩ := hs
    refine ⟨_, w.le_opened hhas, ⟨(hm.2.next 0).symm, ?_, ?_⟩, hm.1.push hhas, hm.2.open_both hlt⟩
    · rw [hm.1.size, Ledger.Has, Ledger.opened, List.length_append]
      exact Nat.lt_succ_self _
    · rw [hm.1.size]
      exact Nat.ne_of_gt (Nat.lt_of_le_of_lt (Nat.zero_le _) hhas)
  define := by
    rintro w m m' s _ name key v _ ⟨hw, hm⟩ ⟨rfl, -, hfree⟩ hkey ⟨rfl, hv⟩
    refine ⟨hw.define hv fun hglobal word hword => ?_, hm.define s key v⟩
    exact hfree hglobal word (Name.eq_text_of_ofTree? (hword ▸ hkey))
  get := by
    intro w m m' s s' hm hs key
    have hget := hm.2.get? key (lt_of_views hm hs)
    rw [hget, hs.1]
    cases hfound : m.scopes.get? s key with
    | none => exact .none
    | some v => exact .some ⟨rfl, hm.1.get? hfound⟩
  assign := by
    rintro w m m' s s' name key v _ hm hs hfree hkey ⟨rfl, hv⟩
    have hfind := hm.2.find? key (lt_of_views hm hs)
    rw [hfind, hs.1]
    cases hfound : m.scopes.find? s key with
    | none => exact .none
    | some found =>
      refine .some ⟨hm.1.define hv fun _ word hword => ?_, hm.2.define found key v⟩
      exact hfree word (Name.eq_text_of_ofTree? (hword ▸ hkey))
  number := by
    rintro w m m' ⟨hw, hm⟩
    obtain ⟨scopes, rfl⟩ := hm.others
    refine ⟨_, w.le_numbered, ⟨rfl, ?_⟩, hw.number, hm.update rfl rfl ⟨scopes, rfl⟩⟩
    show (w.births ++ [w.parents.length])[m.nextClosure]? = _
    rw [← hw.births, List.getElem?_concat_length]
    rfl
  unnamed _ _ := rfl
  tooDeep := by
    rintro t _ limit rfl
    rfl
  called := by
    rintro t _ i _ rfl rfl
    rfl
  out := False.elim

/-- The rules go the same way. -/
theorem runs (cfg : Config) (room : Nat) : (storing kept L).Runs cfg room room :=
  sameTrees.runs lawful calls rfl cfg room

end storing

/-- The machine refers only to scopes that exist. -/
theorem Ledger.Describes.closed {m : Machine} (h : w.Describes kept m) : m.Closed where
  older {s scope parent} hscope hparent := by
    apply w.older s parent
    rw [← h.parents, List.getElem?_map, Array.getElem?_toList, hscope, Option.map_some, hparent]
  declared {s scope binding f} hscope hbinding hf := by
    have hheld := h.held scope (Array.mem_of_getElem? hscope) binding hbinding
    rw [hf] at hheld
    obtain ⟨⟨born, hborn, hlt⟩, -⟩ := hheld
    refine ⟨?_, h.births ▸ (List.getElem?_eq_some_iff.1 hborn).1⟩
    rw [h.size]
    exact Nat.lt_of_lt_of_le hlt (w.born born (List.mem_of_getElem? hborn))

namespace storeContract

variable {α : Type} {m : Machine} {cfg : Config}

/-! ## Accesses

With the scopes laid out as they are, what belongs together is the same. -/

theorem access (access : Access) (h : w.Describes kept m) (ha : (storeContract kept).Allows w access) :
    ∃ w', w ≤ w' ∧
      (storeContract kept).Lands w' ((storeContract kept).Brings · access) (access.run cfg m) := by
  have hself : ∀ {v : Value}, v.Held kept w → (storing kept .same).Values w v v :=
    fun {v} hv => ⟨v.moved_same.symm, hv⟩
  have hends : ∀ {a : Access}, (storing kept .same).Allows w a a →
      (∀ w' r, (storing kept .same).Brings w' a a r r → (storeContract kept).Brings w' a r) →
      ∃ w', w ≤ w' ∧
        (storeContract kept).Lands w' ((storeContract kept).Brings · a) (a.run cfg m) := by
    intro a ha hbrings
    have hrun : (storing kept .same).Ends Eq ((storing kept .same).Brings · a a) w (a.run cfg m)
        (a.run cfg m) := storing.calls.access storing.basics ⟨h, .refl h.closed⟩ ha
    generalize a.run cfg m = r at hrun
    cases hrun with
    | ok hle hm hr => exact ⟨_, hle, hm.1, hbrings _ _ hr⟩
    | error hle hm => exact ⟨_, hle, hm.1⟩
    | outLeft hi | outRight hi => exact hi.elim
  cases access with
  | openScope parent =>
    refine ⟨_, w.le_opened ha, h.push ha, ?_, ?_⟩
    · show (w.parents ++ [some parent])[m.scopes.all.size]? = _
      rw [h.size, List.getElem?_concat_length]
    · show m.scopes.all.size ≠ 0
      rw [h.size]
      exact Nat.ne_of_gt (Nat.lt_of_le_of_lt (Nat.zero_le _) ha)
  | number => exact hends .number fun _ _ hr => hr.2
  | define s name v => exact hends (.define trivial ⟨rfl, ha.1, ha.2.2⟩ (hself ha.2.1)) fun _ _ _ => trivial
  | lookup t s name => exact hends (.lookup rfl ⟨rfl, ha⟩ trivial) fun _ _ hr => hr.2
  | assign t s name v =>
    exact hends (.assign rfl ⟨rfl, ha.1⟩ trivial ha.2.2 (hself ha.2.1)) fun _ _ hr => hr.2
  | debug topic text => exact hends (.debug topic text) fun _ _ _ => trivial
  | native f args =>
    have htalks := Eval.Talks.native cfg f args
    have hstore := (htalks.left_alone m).1
    refine ⟨w, le_rfl, ?_⟩
    show Contract.Lands _ w _ (f.call cfg args m)
    cases hr : f.call cfg args m with
    | ok v m' =>
      rw [Eval.left_of_ok hr] at hstore
      obtain ⟨s, rfl⟩ := htalks.gives hr
      exact ⟨h.sameStore hstore, trivial⟩
    | error i m' =>
      rw [Eval.left_of_error hr] at hstore
      exact h.sameStore hstore

/-! ## Rules -/

/-- With the scopes laid out as they are, what belongs together is the same, so plans that match
themselves keep to the contract. -/
theorem follows {R : Ledger → α → α → Prop} {wanted : Ledger → α → Prop} {plan plan' : Plan α}
    (h : (storing kept .same).Match R w plan plan') (heq : plan = plan')
    (hwanted : ∀ {w a}, R w a a → wanted w a) : (storeContract kept).Follows wanted plan w := by
  induction h with
  | give h =>
    cases heq
    exact hwanted h
  | stop => trivial
  | @ask w job _ next _ h _ ih =>
    cases heq
    refine ⟨?_, fun w' r hle hr => ih w' r r hle ?_ rfl⟩
    · cases h with
      | evaluate hs ht => exact ⟨hs.2, ht.2⟩
      | call _ hf hargs => exact ⟨hf.2, fun v hv => (List.forall₂_same.1 hargs v hv).2⟩
      | executeAll h | execute h => exact h.2.2
    · cases job with
      | evaluate | call => exact ⟨(Value.moved_same r).symm, hr⟩
      | executeAll | execute =>
        cases r with
        | normal => exact .normal
        | returned v t => exact .returned ⟨v.moved_same.symm, hr⟩ rfl
  | @act w access _ next _ h _ ih =>
    cases heq
    refine ⟨?_, fun w' r hle hr => ih w' r r hle ?_ rfl⟩
    · cases h with
      | openScope hs | lookup _ hs => exact hs.2
      | define _ hs hv => exact ⟨hs.2.1, hv.2, hs.2.2⟩
      | assign _ hs _ htarget hv => exact ⟨hs.2, hv.2, htarget⟩
      | number | debug => trivial
    · cases access with
      | openScope => exact ⟨rfl, (List.getElem?_eq_some_iff.1 hr.1).1, hr.2⟩
      | number => exact ⟨rfl, hr⟩
      | lookup | assign => exact ⟨(Value.moved_same r).symm, hr⟩
      | define | debug => trivial
      | native => cases h

theorem keeps (kept : Keepsakes) (cfg : Config) : (storeContract kept).Keeps cfg where
  store hstore h := h.sameStore hstore
  access := access
  job {w} job h := by
    have hcompletes : ∀ {w done}, (storing kept .same).Completes w done done → done.Held kept w := by
      intro w done hdone
      cases hdone with
      | normal => trivial
      | returned hv => exact hv.2
    cases job with
    | evaluate s t =>
      exact follows (storing.lawful.evaluating ⟨rfl, h.1⟩ (storing.lawful.exprs ⟨rfl, h.2⟩)) rfl And.right
    | executeAll s t => exact follows (storing.lawful.executingAll ⟨rfl, rfl, h⟩) rfl hcompletes
    | execute s t =>
      have hparts := (storing.sameTrees (L := .same)).stmtParts storing.basics ⟨rfl, h⟩
      exact follows (storing.lawful.executing cfg.fuel ⟨rfl, h.1⟩ hparts) rfl hcompletes
    | call t f args =>
      by_cases hnative : ∃ g, f = .native g
      · obtain ⟨g, rfl⟩ := hnative
        exact .act h.2
      · refine follows (storing.lawful.calling rfl (fun g hg => hnative ⟨g, hg⟩)
          ⟨f.moved_same.symm, h.1⟩ ?_) rfl And.right
        exact List.forall₂_same.2 fun v hv => ⟨v.moved_same.symm, h.2 v hv⟩

end storeContract

/-! ## A fresh machine -/

/-- The ledger of a machine on which nothing has been run. -/
def Ledger.initial : Ledger where
  parents := [none]
  births := []
  older i parent h := by
    cases i with
    | zero => cases h
    | succ i => cases h
  born := nofun

theorem Ledger.describes_initial (kept : Keepsakes) (input : String)
    (h : ∀ word value, kept word = some value →
      (Native.all.map fun f => (Name.word f.name, Value.native f)).lookup (.word word) = some value) :
    Ledger.initial.Describes kept (.initial input) where
  parents := rfl
  births := rfl
  held scope hscope binding hbinding := by
    obtain rfl : scope = ⟨none, Native.all.map fun f => (.word f.name, .native f)⟩ :=
      Array.mem_singleton.1 hscope
    obtain ⟨f, -, rfl⟩ := List.mem_map.1 hbinding
    trivial
  kept := h

end Scriptlet
