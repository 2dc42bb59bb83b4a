import Scriptlet.Proofs.Derivation

/-!
Single steps of the descent parser. While it reads the tokens of a text that was cut to its end, its
state is given by the tokens that are left and by where the last one taken ends (`stateAt`).
-/

namespace Scriptlet

variable {α β : Type}

/-! ## Results -/

section
variable {ε : Type} {x : Except ε α} {f : α → β}

/-- There is a result if something is made of it. -/
theorem exists_ok_of_map {b : β} (h : x.map f = .ok b) : ∃ a, x = .ok a ∧ f a = b := by
  cases x with
  | error e => cases h
  | ok a => exact ⟨a, rfl, Except.ok.inj h⟩

theorem exists_of_isOk (h : x.isOk = true) : ∃ a, x = .ok a := by
  cases x with
  | error e => cases h
  | ok a => exact ⟨a, rfl⟩

theorem error_of_map {e : ε} (h : x.map f = .error e) : x = .error e := by
  cases x with
  | error e => rw [Except.error.inj h]
  | ok a => cases h

end

namespace Parser

/-- The tokens that may follow the target of an assignment. -/
def assignments : List TokenType := [.simpleAssignment, .complexAssignment]

/-! ## States -/

/-- The state in front of tokens that the end of the input follows. -/
def stateAt (eof : Token) (last : Nat) (w : List Token) : State :=
  ⟨w.headD eof, w.tail, .ok eof, last⟩

variable {s s' : State} {x : Parse α} {f : α → Parse β} {a : α} {b : β}

theorem bind_of_ok (h : x s = .ok (a, s')) : (x >>= f) s = f a s' := by
  change (x s >>= fun p => f p.1 p.2) = _
  rw [h]
  rfl

theorem bind_of_error {e : SyntaxError} (h : x s = .error e) : (x >>= f) s = .error e := by
  change (x s >>= fun p => f p.1 p.2) = _
  rw [h]
  rfl

theorem bind_eq_ok {s'' : State} :
    (x >>= f) s = .ok (b, s'') ↔ ∃ a s', x s = .ok (a, s') ∧ f a s' = .ok (b, s'') := by
  cases h : x s with
  | error e => simp [bind_of_error h]
  | ok p =>
    obtain ⟨a, s'⟩ := p
    rw [bind_of_ok h]
    constructor
    · intro hf
      exact ⟨a, s', rfl, hf⟩
    · rintro ⟨a', s₁, he, hf⟩
      cases he
      exact hf

theorem map_eq_ok {f : α → β} :
    (f <$> x) s = .ok (b, s') ↔ ∃ a, x s = .ok (a, s') ∧ f a = b := by
  change (x s >>= fun p => .ok (f p.1, p.2)) = _ ↔ _
  cases h : x s with
  | error e => simp [bind, Except.bind]
  | ok p =>
    obtain ⟨a, s''⟩ := p
    simp only [bind, Except.bind, Except.ok.injEq, Prod.mk.injEq]
    constructor
    · rintro ⟨rfl, rfl⟩
      exact ⟨a, ⟨rfl, rfl⟩, rfl⟩
    · rintro ⟨b, ⟨rfl, rfl⟩, rfl⟩
      exact ⟨rfl, rfl⟩

theorem map_of_ok {f : α → β} (h : x s = .ok (a, s')) :
    (f <$> x) s = .ok (f a, s') :=
  map_eq_ok.2 ⟨a, h, rfl⟩

@[simp] theorem pure_apply (a : α) (s : State) : (pure a : Parse α) s = .ok (a, s) := rfl

theorem pure_eq_ok {b : α} (h : (pure a : Parse α) s = .ok (b, s')) :
    b = a ∧ s' = s := by
  cases h
  exact ⟨rfl, rfl⟩

@[simp] theorem fail_apply (e : SyntaxError) (s : State) : (fail e : Parse α) s = .error e := rfl

theorem peek_apply (f : Token → Parse α) (s : State) : (peek >>= f) s = f s.lookahead s := rfl

theorem ifAhead_apply (types : List TokenType) (x y : Parse α) (s : State) :
    (ahead types >>= fun b => if b = true then x else y) s =
      if s.lookahead.type ∈ types then x s else y s := by
  change (if decide (s.lookahead.type ∈ types) = true then x else y) s = _
  split <;> simp_all

theorem advance_fst {t : Token} (h : advance s = .ok (t, s')) : t = s.lookahead := by
  obtain ⟨look, rest, ending, last⟩ := s
  cases rest with
  | cons => cases h; rfl
  | nil => cases ending <;> cases h; rfl

/-- The token taken is the one that was ahead. -/
theorem advance_apply (f : Token → Parse α) (s : State) :
    (advance >>= f) s = (advance >>= fun _ => f s.lookahead) s := by
  cases h : advance s with
  | error e => rw [bind_of_error h, bind_of_error h]
  | ok p => rw [bind_of_ok h, bind_of_ok h, advance_fst h]

section
variable {eof : Token} {last : Nat}

@[simp] theorem peek_stateAt (w : List Token) :
    peek (stateAt eof last w) = .ok (w.headD eof, stateAt eof last w) := rfl

@[simp] theorem peek_bind (f : Token → Parse α) (w : List Token) :
    (peek >>= f) (stateAt eof last w) = f (w.headD eof) (stateAt eof last w) := rfl

@[simp] theorem lastEnd_bind (f : Nat → Parse α) (w : List Token) :
    (lastEnd >>= f) (stateAt eof last w) = f last (stateAt eof last w) := rfl

theorem headD_type (w : List Token) : (w.headD eof).type = headType w eof.type := by
  cases w <;> rfl

theorem ahead_stateAt (types : List TokenType) (w : List Token) :
    ahead types (stateAt eof last w) =
      .ok (decide (headType w eof.type ∈ types), stateAt eof last w) := by
  rw [← headD_type]
  rfl

theorem advance_cons (t : Token) (w : List Token) :
    advance (stateAt eof last (t :: w)) = .ok (t, stateAt eof t.stop w) := by
  cases w <;> rfl

@[simp] theorem advance_bind (f : Token → Parse α) (t : Token) (w : List Token) :
    (advance >>= f) (stateAt eof last (t :: w)) = f t (stateAt eof t.stop w) :=
  bind_of_ok (advance_cons t w)

theorem expect_cons {t : Token} {type : TokenType} (h : t.type = type) (w : List Token) :
    expect type (stateAt eof last (t :: w)) = .ok (t, stateAt eof t.stop w) := by
  rw [expect, bind_of_ok (peek_stateAt _)]
  simp [h, advance_cons]

theorem expect_bind {t : Token} {type : TokenType} (h : t.type = type) (f : Token → Parse α)
    (w : List Token) : (expect type >>= f) (stateAt eof last (t :: w)) = f t (stateAt eof t.stop w) :=
  bind_of_ok (expect_cons h w)

section
variable {types : List TokenType} {x y : Parse α} {w : List Token}

theorem ahead_of_mem (h : headType w eof.type ∈ types) :
    (ahead types >>= fun b => if b = true then x else y) (stateAt eof last w) =
      x (stateAt eof last w) := by
  rw [bind_of_ok (ahead_stateAt types w)]
  simp only [h, decide_true, ↓reduceIte]

theorem ahead_of_notMem (h : headType w eof.type ∉ types) :
    (ahead types >>= fun b => if b = true then x else y) (stateAt eof last w) =
      y (stateAt eof last w) := by
  rw [bind_of_ok (ahead_stateAt types w)]
  simp only [h, decide_false, Bool.false_eq_true, ↓reduceIte]

end

/-- A token that was expected was there. -/
theorem expect_eq_ok {type : TokenType} {w : List Token} {t : Token} {s : State}
    (htype : type ≠ eof.type) (h : expect type (stateAt eof last w) = .ok (t, s)) :
    ∃ v, w = t :: v ∧ t.type = type ∧ s = stateAt eof t.stop v := by
  rw [expect, bind_of_ok (peek_stateAt _)] at h
  cases w with
  | nil => simp [htype.symm] at h
  | cons u v =>
    by_cases hu : u.type = type
    · simp only [List.headD_cons, hu, ↓reduceIte, advance_cons, Except.ok.injEq,
        Prod.mk.injEq] at h
      obtain ⟨rfl, rfl⟩ := h
      exact ⟨v, rfl, hu, rfl⟩
    · simp [hu] at h

end

theorem endOf_append (last : Nat) (w v : List Token) :
    endOf last (w ++ v) = endOf (endOf last w) v := by
  induction w generalizing last with
  | nil => rfl
  | cons t w ih => exact ih t.stop

variable {w : List Token} {tokens : Lexer.Tokens} {eof : Token}

theorem endOf_of_ne_nil (h : w ≠ []) (last last' : Nat) :
    endOf last w = endOf last' w := by
  cases w with
  | nil => exact absurd rfl h
  | cons t w => rfl

theorem startOf_append (h : w ≠ []) (v : List Token) :
    startOf (w ++ v) = startOf w := by
  cases w with
  | nil => exact absurd rfl h
  | cons t w => rfl

theorem covered_append {v : List Token} (hw : w ≠ []) (hv : v ≠ []) :
    covered (w ++ v) = ⟨startOf w, endOf 0 v⟩ := by
  rw [covered, startOf_append hw, endOf_append, endOf_of_ne_nil hv _ 0]

theorem headType_append (w v : List Token) (next : TokenType) :
    headType (w ++ v) next = headType w (headType v next) := by
  cases w <;> rfl

/-! ## Whole texts -/

theorem start_eq (heof : tokens.ending = .ok eof) :
    start tokens = .ok (stateAt eof 0 tokens.tokens) := by
  unfold start
  split <;> simp_all [stateAt]

theorem parseTokens_eq {room length : Nat} (heof : tokens.ending = .ok eof) :
    parseTokens room length tokens =
      (statements (tokens.tokens.length + 1) room (stateAt eof 0 tokens.tokens)).map
        fun q => ⟨q.1, ⟨0, length⟩⟩ := by
  rw [parseTokens, start_eq heof]
  change (statements _ room (stateAt eof 0 tokens.tokens) >>= fun q =>
    .ok (⟨q.1, ⟨0, length⟩⟩ : Program)) = _
  cases statements (tokens.tokens.length + 1) room (stateAt eof 0 tokens.tokens) <;> rfl

/-- The parser on a text with a first token. -/
theorem parseTokens_cons (room length : Nat) {tokens : Lexer.Tokens} {t : Token} {rest : List Token}
    (h : tokens.tokens = t :: rest) :
    parseTokens room length tokens =
      (statements (rest.length + 2) room ⟨t, rest, tokens.ending, 0⟩).map
        fun p => ⟨p.1, ⟨0, length⟩⟩ := by
  obtain ⟨list, ending, stop⟩ := tokens
  cases h
  show (statements _ room ⟨t, rest, ending, 0⟩ >>= fun q => _) = _
  cases statements (rest.length + 2) room ⟨t, rest, ending, 0⟩ <;> rfl

theorem eq_error_of_map {r : Except SyntaxError α} {f : α → β} {e : SyntaxError} (h : r.map f = .error e) :
    r = .error e := by
  cases r with
  | error => cases h; rfl
  | ok => cases h

end Parser

end Scriptlet
