import Scriptlet.Proofs.TableTrees

/-!
What the table-driven parser makes of a text is not much deeper than the text is long: constructs nest at
most two deep for each token. So a text of few tokens never nests too deeply, and its parts have no other
errors than bad numbers and assignments to something that is no name.
-/

namespace Scriptlet.Grammar

/-! ## How deep constructs nest -/

/-- What remains of twice the tokens of a symbol and two more when its constructs are taken off. -/
def slack : Symbol → Nat
  | .terminal _ => 4
  | .nonterminal .root => 0
  | .nonterminal .start => 1
  | .nonterminal .finalStatement | .nonterminal .forInit => 2
  | .nonterminal _ => 3

/-- Symbols other than those of the whole text; there is always a token of them. -/
def isInner (s : Symbol) : Bool :=
  s ≠ .nonterminal .root ∧ s ≠ .nonterminal .start

/-- The construct of a form itself. -/
def nesting (form : Form) : Nat :=
  if Form.nests form then 1 else 0

theorem rules_slack : ∀ r ∈ rules, isInner (.nonterminal r.left) = true → r.right ≠ [] ∧
    ∀ s ∈ r.right, isInner s = true ∧
      nesting r.form + slack (.nonterminal r.left) + 2 ≤ slack s + 2 * r.right.length := by
  decide +kernel

theorem rules_slack_start : ∀ r ∈ rules, r.left = .start →
    ∀ s ∈ r.right, isInner s = true ∧ 2 ≤ slack s := by
  decide +kernel

theorem slack_le (s : Symbol) : slack s ≤ 4 := by
  unfold slack
  split <;> decide

theorem height_apply (form : Form) (parts : List Attribute) :
    (Form.apply form parts).height = parts.foldl (fun h a => max h a.height) 0 + nesting form := by
  unfold Form.apply nesting
  dsimp only
  split <;> rfl

variable {form : Form} {w : List Token} {symbols : List Symbol} {e : SyntaxError}

theorem height_apply_le {parts : List Attribute} {c n : Nat} (hn : c + nesting form ≤ n)
    (h : ∀ a ∈ parts, a.height + c + nesting form ≤ n) : (Form.apply form parts).height + c ≤ n := by
  have hmax : ∀ m, m + c + nesting form ≤ n →
      parts.foldl (fun h a => max h a.height) m + c + nesting form ≤ n := by
    induction parts with
    | nil => exact fun m hm => hm
    | cons a parts ih =>
      intro m hm
      apply ih fun b hb => h b (List.mem_cons_of_mem a hb)
      have ha := h a List.mem_cons_self
      show max m a.height + c + nesting form ≤ n
      omega
  have hzero := hmax 0 (by omega)
  rw [height_apply]
  omega

/-- A symbol has a token at least, and for each of its tokens at most two constructs inside each other. -/
theorem Builds.height_le {next : TokenType} {parts : List Attribute} (h : Builds next symbols w parts)
    (hinner : ∀ s ∈ symbols, isInner s = true) :
    symbols.length ≤ w.length ∧ ∀ a ∈ parts, ∃ s ∈ symbols,
      a.height + slack s + 2 * symbols.length ≤ 2 * w.length + 4 := by
  induction h with
  | nil => exact ⟨Nat.le_refl 0, fun b hb => absurd hb List.not_mem_nil⟩
  | @token next t symbols w parts _ ih =>
    obtain ⟨hlen, hall⟩ := ih fun s hs => hinner s (List.mem_cons_of_mem _ hs)
    simp only [List.length_cons]
    refine ⟨by omega, fun a ha => ?_⟩
    rcases List.mem_cons.1 ha with rfl | ha
    · refine ⟨_, List.mem_cons_self, ?_⟩
      show 0 + 4 + 2 * (symbols.length + 1) ≤ _
      omega
    · obtain ⟨s, hs, hle⟩ := hall a ha
      exact ⟨s, List.mem_cons_of_mem _ hs, by omega⟩
  | @rule next r symbols v w inner parts hr _ _ _ ihi ih =>
    obtain ⟨hne, hright⟩ := rules_slack r hr (hinner _ List.mem_cons_self)
    obtain ⟨hleni, halli⟩ := ihi fun s hs => (hright s hs).1
    obtain ⟨hlen, hall⟩ := ih fun s hs => hinner s (List.mem_cons_of_mem _ hs)
    have hpos := List.length_pos_iff.2 hne
    simp only [List.length_cons, List.length_append]
    refine ⟨by omega, fun a ha => ?_⟩
    rcases List.mem_cons.1 ha with rfl | ha
    · refine ⟨_, List.mem_cons_self, ?_⟩
      have hheight : (Form.apply r.form inner).height + slack (.nonterminal r.left) ≤
          2 * v.length + 2 := by
        apply height_apply_le
        · obtain ⟨s, hs⟩ := List.exists_mem_of_ne_nil _ hne
          have hs' := (hright s hs).2
          have hle := slack_le s
          omega
        · intro b hb
          obtain ⟨s, hs, hle⟩ := halli b hb
          have hs' := (hright s hs).2
          omega
      omega
    · obtain ⟨s, hs, hle⟩ := hall a ha
      exact ⟨s, List.mem_cons_of_mem _ hs, by omega⟩

/-- How deep the constructs of a whole text nest. -/
theorem height_start_le {next : TokenType} {a : Attribute} (h : Builds next [.nonterminal .start] w [a]) :
    a.height ≤ 2 * w.length + 1 := by
  generalize hx : [Symbol.nonterminal .start] = symbols at h
  cases h with
  | token => cases hx
  | @rule next r symbols v w inner parts hr hi _ h =>
    cases h
    have hleft : r.left = .start := by simpa using (List.cons.inj hx).1.symm
    have hslack := rules_slack_start r hr hleft
    obtain ⟨-, hall⟩ := hi.height_le fun s hs => (hslack s hs).1
    have hle : nesting r.form ≤ 1 := by unfold nesting; split <;> omega
    rw [List.append_nil]
    apply height_apply_le (c := 0)
    · omega
    · intro b hb
      obtain ⟨s, hs, hb⟩ := hall b hb
      have htwo := (hslack s hs).2
      have hpos := List.length_pos_iff.2 (List.ne_nil_of_mem hs)
      omega

/-! ## Errors in parts -/

/-- Errors that the meaning of a part can have. -/
def IsMeaningError (e : SyntaxError) : Prop :=
  (∃ span kind, e = .invalidTarget span kind) ∨ ∃ fault, e = .badNumber fault

/-- What parts are made into: something that is no token, unless it is one of the parts; or there are two
ways in which they have no meaning. -/
theorem assemble_cases {span : Span} {parts : List Part} {r : Except SyntaxError Part}
    (h : assemble form span parts = some r) :
    (∃ p, r = .ok p ∧ ∀ t, p = .token t →
      form = .same ∧ parts = [.token t] ∨ form = .paren ∧ ∃ a b, parts = [a, .token t, b]) ∨
    (form = .assign ∧ (∃ span kind, r = .error (.invalidTarget span kind)) ∧
      ∃ other t value, parts = [.expr other, .token t, .expr value] ∧ ∀ id, other ≠ .ident id) ∨
    form = .number ∧ ∃ t fault, r = .error (.badNumber fault) ∧ parts = [.token t] ∧
      Number.read t.text = .error fault := by
  unfold assemble at h
  -- The other forms make a part of their own or nothing.
  split at h <;> first
    | (cases h; refine .inl ⟨_, rfl, ?_⟩; intro t ht; cases ht; done)
    | cases h
    | skip
  · exact .inl ⟨_, rfl, fun t ht => .inl ⟨rfl, by rw [ht]⟩⟩
  · exact .inl ⟨_, rfl, fun t ht => .inr ⟨rfl, _, _, by rw [ht]⟩⟩
  · obtain ⟨_, -, rfl⟩ := Option.map_eq_some_iff.1 h
    exact .inl ⟨_, rfl, fun t ht => by cases ht⟩
  · rename_i hother
    exact .inr (.inl ⟨rfl, ⟨_, _, rfl⟩, _, _, _, rfl, fun id hid => hother id hid⟩)
  · rename_i u
    cases hn : Number.read u.text with
    | ok n => exact .inl ⟨_, rfl, fun t ht => by cases ht⟩
    | error fault => exact .inr (.inr ⟨rfl, u, fault, rfl, rfl, hn⟩)

theorem assemble_error {span : Span} {parts : List Part} (h : assemble form span parts = some (.error e)) :
    IsMeaningError e := by
  rcases assemble_cases h with ⟨_, ⟨⟩, -⟩ | ⟨-, ⟨span, kind, heq⟩, -⟩ | ⟨-, -, fault, heq, -⟩
  · exact .inl ⟨span, kind, Except.error.inj heq⟩
  · exact .inr ⟨fault, Except.error.inj heq⟩

theorem mapM_part_error {parts : List Attribute} (h : parts.mapM (·.part) = Except.error e) :
    ∃ a ∈ parts, a.part = .error e := by
  induction parts with
  | nil => cases h
  | cons a parts ih =>
    rw [List.mapM_cons] at h
    cases ha : a.part with
    | error e' =>
      rw [ha] at h
      cases h
      exact ⟨a, List.mem_cons_self, ha⟩
    | ok p =>
      rw [ha] at h
      cases hrest : parts.mapM (·.part) with
      | error e' =>
        rw [hrest] at h
        cases h
        obtain ⟨b, hb, he⟩ := ih hrest
        exact ⟨b, List.mem_cons_of_mem a hb, he⟩
      | ok rest =>
        rw [hrest] at h
        cases h

theorem Builds.part_error {next : TokenType} {parts : List Attribute} (h : Builds next symbols w parts) :
    ∀ a ∈ parts, ∀ e, a.part = .error e → IsMeaningError e := by
  induction h with
  | nil => exact fun a ha => absurd ha List.not_mem_nil
  | token _ ih =>
    intro a ha e he
    rcases List.mem_cons.1 ha with rfl | ha
    · cases he
    · exact ih a ha e he
  | @rule next r symbols v w inner parts _ _ _ _ ihi ih =>
    intro a ha e he
    rcases List.mem_cons.1 ha with rfl | ha
    · change (inner.mapM (·.part) >>= fun inside =>
        (assemble r.form (coveredSpan inner) inside).getD (.ok (.stmts []))) = .error e at he
      cases hm : inner.mapM (·.part) with
      | error e' =>
        rw [hm] at he
        cases he
        obtain ⟨b, hb, hbe⟩ := mapM_part_error hm
        exact ihi b hb e hbe
      | ok inside =>
        rw [hm] at he
        change (assemble r.form (coveredSpan inner) inside).getD (.ok (.stmts [])) = .error e at he
        cases hassemble : assemble r.form (coveredSpan inner) inside with
        | none =>
          rw [hassemble] at he
          cases he
        | some result =>
          rw [hassemble] at he
          cases he
          exact assemble_error hassemble
    · exact ih a ha e he

end Scriptlet.Grammar
