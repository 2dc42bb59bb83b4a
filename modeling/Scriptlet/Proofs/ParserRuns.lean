import Scriptlet.Proofs.Erasure
import Scriptlet.Proofs.ParserSteps

/-!
Two runs of the descent parser side by side. What the parser does depends on the types of the tokens,
and on the texts of those that are no keywords; places only end up in the places of nodes, and the room
only decides whether it gives up. So a run in less room, or in a state that is like another one, gives up
or ends as the other run does, up to places.

This is used four times. More room changes no answer, so what is shown for enough room holds for the
room at hand. What stands behind the tokens of a text, its end or a place where no token starts, makes a
difference only to a run that gets there. Tokens that are cut from two different texts are parsed
alike if they differ in their places and in the spelling of keywords only. And of two texts that differ in
their last token, the operator of an assignment in the one and of a disjunction in the other, the first is
not refused for its operator if the second is not: where a disjunction may go on, the left side of an
assignment may end.
-/

namespace Scriptlet

/-- A token without its place, and a keyword without its spelling. -/
def Token.erase (t : Token) : Token :=
  ⟨t.type, match t.type with | .keyword _ => "" | _ => t.text, .nowhere⟩

theorem Token.type_eq_of_erase {t t' : Token} (h : t.erase = t'.erase) : t.type = t'.type := by
  have htype : t.erase.type = t'.erase.type := by rw [h]
  exact htype

theorem Token.text_eq_of_erase {t t' : Token} (h : t.erase = t'.erase)
    (hk : ∀ k, t.type ≠ .keyword k) : t.text = t'.text := by
  have htext := congrArg Token.text h
  unfold Token.erase at htext
  rw [← Token.type_eq_of_erase h] at htext
  dsimp only at htext
  split at htext
  · rename_i k hkeyword
    exact absurd hkeyword (hk k)
  · exact htext

theorem Parser.Level.build_erase (level : Level) (operator : String) (left right : Expr) (span : Span) :
    (level.build operator left right span).erase =
      level.build operator left.erase right.erase .nowhere := by
  cases level <;> rfl

namespace Parser

variable {α β γ : Type} {R : State → State → Prop} {gives : SyntaxError → Prop} {stops : Prop}

/-- The parser refuses a token. -/
def Refuses : SyntaxError → Prop
  | .lexical _ | .tooDeep _ => False
  | _ => True

/-- In front of the operator of an assignment, where the parser gives up whatever is assigned to. -/
structure Stuck (gives : SyntaxError → Prop) (s : State) : Prop where
  assigns : s.lookahead.type ∈ assignments
  taken : ∃ e, advance s = .error e ∧ gives e
  target (span : Span) (kind : NodeKind) : gives (.invalidTarget span kind)

/-- The first parser gives up, or both fail, or both end with results and in states that are alike. Where it
may stop, the first parser may also end stuck, whatever the second does. -/
inductive Tracks (R : State → State → Prop) (gives : SyntaxError → Prop) (stops : Prop)
    (like : α → α → Prop) : Except SyntaxError (α × State) → Except SyntaxError (α × State) → Prop
  | givenUp {e : SyntaxError} {r : Except SyntaxError (α × State)} (h : gives e) :
      Tracks R gives stops like (.error e) r
  | failed {e e' : SyntaxError} (h : Refuses e' ∨ e = e') : Tracks R gives stops like (.error e) (.error e')
  | ended {a a' : α} {s s' : State} (hlike : like a a') (hR : R s s') :
      Tracks R gives stops like (.ok (a, s)) (.ok (a', s'))
  | stopped (h : stops) {a : α} {s : State} {r : Except SyntaxError (α × State)} (hs : Stuck gives s) :
      Tracks R gives stops like (.ok (a, s)) r

/-- The first parser keeps track of the second from states that are alike. -/
def Below (R : State → State → Prop) (gives : SyntaxError → Prop) (like : α → α → Prop)
    (x y : Parse α) (stops : Prop := False) : Prop :=
  ∀ s s', R s s' → Tracks R gives stops like (x s) (y s')

/-- The end of the last token may be anywhere. -/
theorem lastEnd_below : Below R gives (fun _ _ => True) lastEnd lastEnd :=
  fun _ _ hR => .ended trivial hR

/-- Results that look the same. -/
def Same (view : α → β) (a a' : α) : Prop :=
  view a = view a'

/-- What an expression is, given what it starts with. -/
def assigned (value : Parse Expr) (left : Expr) : Parse Expr := do
  if ← ahead assignments then
    let operator ← peek
    match left with
    | .ident target =>
      let _ ← advance
      let value ← value
      return .assign (assignOp operator.text) target value ⟨target.span.start, ← lastEnd⟩
    | other => fail (.invalidTarget ⟨other.span.start, operator.stop⟩ (kindOf other))
  else return left

theorem expression_succ (n room : Nat) :
    expression n (room + 1) = ladder n room Level.all >>= assigned (expression n room) := rfl

/-- States alike are not told apart until a token is taken, and then by giving up; or the first is stuck
where a disjunction may go on in the second. -/
structure Alike (R : State → State → Prop) (gives : SyntaxError → Prop) : Prop where
  look {s s' : State} : R s s' →
    Same Token.erase s.lookahead s'.lookahead ∨ Stuck gives s ∧ s'.lookahead.type = .logicalOr
  step {s s' : State} : R s s' → Same Token.erase s.lookahead s'.lookahead →
    Tracks R gives False (fun _ _ => True) (advance s) (advance s')
  gives_tooDeep (span : Span) : gives (.tooDeep span)

/-- The tokens ahead in states that are alike. -/
def Ahead (t t' : Token) : Prop :=
  Same Token.erase t t' ∨ t.type ∈ assignments ∧ t'.type = .logicalOr

theorem Ahead.congr {t t' : Token} (h : Ahead t t') {f : TokenType → Bool}
    (hf : ∀ type ∈ assignments, f type = f .logicalOr) : f t.type = f t'.type := by
  rcases h with h | ⟨h, h'⟩
  · rw [Token.type_eq_of_erase h]
  · rw [h', hf _ h]

theorem mem_assignments {type : TokenType} :
    type ∈ assignments ↔ type = .simpleAssignment ∨ type = .complexAssignment := by
  simp [assignments]

section
variable {like : α → α → Prop} {like' : β → β → Prop}

theorem Tracks.bind_of {x y : Parse α} {f g : α → Parse β} {s s' : State} {stops' : Prop}
    (h : Tracks R gives stops like (x s) (y s'))
    (hf : ∀ a a', like a a' → Below R gives like' (f a) (g a') stops')
    (hstop : stops → ∀ a t r, Stuck gives t → Tracks R gives stops' like' (f a t) r) :
    Tracks R gives stops' like' ((x >>= f) s) ((y >>= g) s') := by
  generalize hx : x s = r at h
  generalize hy : y s' = r' at h
  cases h with
  | givenUp he =>
    rw [bind_of_error hx]
    exact .givenUp he
  | failed he =>
    rw [bind_of_error hx, bind_of_error hy]
    exact .failed he
  | @ended a a' t t' hlike hR =>
    rw [bind_of_ok hx, bind_of_ok hy]
    exact hf a a' hlike t t' hR
  | stopped h hs =>
    rw [bind_of_ok hx]
    exact hstop h _ _ _ hs

namespace Below

theorem bind {x y : Parse α} {f g : α → Parse β} (h : Below R gives like x y)
    (hf : ∀ a a', like a a' → Below R gives like' (f a) (g a') stops) :
    Below R gives like' (x >>= f) (y >>= g) stops :=
  fun s s' hR => (h s s' hR).bind_of hf False.elim

theorem pure {a a' : α} (h : like a a') : Below R gives like (pure a) (pure a') stops :=
  fun _ _ hR => .ended h hR

theorem fail (e : SyntaxError) {e' : SyntaxError} (h : Refuses e') :
    Below R gives like (fail e) (fail e') :=
  fun _ _ _ => .failed (.inl h)

theorem map_some {x y : Parse α} {view : α → γ} (h : Below R gives (Same view) x y) :
    Below R gives (Same (Option.map view)) (some <$> x) (some <$> y) := by
  rw [map_eq_pure_bind, map_eq_pure_bind]
  exact h.bind fun a a' ha => pure (congrArg some ha)

end Below

theorem Stuck.taken_bind {f : Token → Parse α} {s : State} {r : Except SyntaxError (α × State)}
    (hs : Stuck gives s) : Tracks R gives stops like ((advance >>= f) s) r := by
  obtain ⟨e, he, hgives⟩ := hs.taken
  rw [bind_of_error he]
  exact .givenUp hgives

theorem Stuck.assigned {value : Parse Expr} {left : Expr} {s : State} {like : Expr → Expr → Prop}
    {r : Except SyntaxError (Expr × State)} (hs : Stuck gives s) :
    Tracks R gives stops like (assigned value left s) r := by
  rw [Parser.assigned, ifAhead_apply, if_pos hs.assigns, peek_apply]
  cases left with
  | ident target => exact hs.taken_bind
  | _ => exact .givenUp (hs.target _ _)

end

namespace Alike

variable (h : Alike R gives)
include h

variable {like : α → α → Prop} {s s' : State} {x y x' y' : Parse α} {view : α → β}

theorem gives_up (x : Parse α) : Below R gives like tooDeep x stops :=
  fun s _ _ => .givenUp (h.gives_tooDeep s.lookahead.span)

theorem peek : Below R gives Ahead peek peek :=
  fun _ _ hR => .ended ((h.look hR).imp_right (And.imp_left Stuck.assigns)) hR

theorem advance_bind {f g : Token → Parse α} (hR : R s s')
    (hf : Same Token.erase s.lookahead s'.lookahead →
      Below R gives like (f s.lookahead) (g s'.lookahead) stops) :
    Tracks R gives stops like ((Parser.advance >>= f) s) ((Parser.advance >>= g) s') := by
  rcases h.look hR with hlook | ⟨hstuck, -⟩
  · rw [advance_apply f, advance_apply g]
    exact (h.step hR hlook).bind_of (fun _ _ _ => hf hlook) False.elim
  · exact hstuck.taken_bind

theorem advance : Below R gives (Same Token.erase) advance advance := by
  intro s s' hR
  have hbind : Tracks R gives False (Same Token.erase) ((Parser.advance >>= Pure.pure) s)
      ((Parser.advance >>= Pure.pure) s') := h.advance_bind hR fun hlook => .pure hlook
  rwa [bind_pure] at hbind

/-- What is done if certain tokens are ahead, none of them an operator at which the runs part. -/
theorem ifAhead {types : List TokenType} (htypes : ∀ type ∈ .logicalOr :: assignments, type ∉ types)
    (hx : Below R gives like x x') (hy : Below R gives like y y') :
    Below R gives like (ahead types >>= fun b => if b = true then x else y)
      (ahead types >>= fun b => if b = true then x' else y') := by
  intro s s' hR
  rw [ifAhead_apply, ifAhead_apply]
  rcases h.look hR with hlook | ⟨hstuck, hor⟩
  · rw [Token.type_eq_of_erase hlook]
    split
    · exact hx s s' hR
    · exact hy s s' hR
  · rw [hor, if_neg (htypes _ (.tail _ hstuck.assigns)), if_neg (htypes _ (.head _))]
    exact hy s s' hR

/-- What is done with a token of certain types. -/
theorem ifTaken {types : List TokenType} (htypes : .logicalOr ∉ types) {f g : Token → Parse α}
    (hf : ∀ t t', t.type ∈ types → Same Token.erase t t' → Below R gives like (f t) (g t'))
    (hy : Below R gives like y y') :
    Below R gives like (ahead types >>= fun b => if b = true then Parser.advance >>= f else y)
      (ahead types >>= fun b => if b = true then Parser.advance >>= g else y') := by
  intro s s' hR
  rw [ifAhead_apply, ifAhead_apply]
  rcases h.look hR with hlook | ⟨hstuck, hor⟩
  · rw [← Token.type_eq_of_erase hlook]
    split
    · exact h.advance_bind hR (hf _ _ ‹_›)
    · exact hy s s' hR
  · rw [hor, if_neg htypes]
    split
    · exact hstuck.taken_bind
    · exact hy s s' hR

theorem expect {type : TokenType} (htype : type ∉ .logicalOr :: assignments) :
    Below R gives (fun t t' => t.type = type ∧ Same Token.erase t t') (expect type) (expect type) := by
  intro s s' hR
  change Tracks R gives False _
    ((if s.lookahead.type = type then Parser.advance
      else Parser.fail (.unexpected s.lookahead (.token type))) s)
    ((if s'.lookahead.type = type then Parser.advance
      else Parser.fail (.unexpected s'.lookahead (.token type))) s')
  rcases h.look hR with hlook | ⟨hstuck, hor⟩
  · rw [← Token.type_eq_of_erase hlook]
    split
    · have hbind : Tracks R gives False (fun t t' => t.type = type ∧ Same Token.erase t t')
          ((Parser.advance >>= Pure.pure) s) ((Parser.advance >>= Pure.pure) s') :=
        h.advance_bind hR fun _ => .pure ⟨‹_›, hlook⟩
      rwa [bind_pure] at hbind
    · exact .failed (.inl trivial)
  · have hne : s.lookahead.type ≠ type := fun heq => htype (heq ▸ .tail _ hstuck.assigns)
    have hne' : s'.lookahead.type ≠ type := fun heq => htype (heq ▸ hor ▸ .head _)
    rw [if_neg hne, if_neg hne']
    exact .failed (.inl trivial)

theorem terminator : Below R gives (fun _ _ => True) terminator terminator :=
  h.ifAhead (by decide) (.pure trivial) ((h.expect (by decide)).bind fun _ _ _ => .pure trivial)

theorem identifier : Below R gives (Same Ident.erase) identifier identifier := by
  refine (h.expect (by decide)).bind fun t t' ht => .pure ?_
  have htext : t.text = t'.text := Token.text_eq_of_erase ht.2 fun k => by simp [ht.1]
  rw [Same, Ident.erase, Ident.erase, htext]

theorem literalToken (value : Literal) :
    Below R gives (Same Expr.erase) (literalToken value) (literalToken value) :=
  h.advance.bind fun _ _ _ => .pure rfl

/-- Numerals are tokens whose text counts. -/
theorem numberLiteral (hR : R s s') (htype : s.lookahead.type = .number) :
    Tracks R gives False (Same Expr.erase) (numberLiteral s) (numberLiteral s') := by
  refine h.advance_bind hR fun hlook => ?_
  rw [← Token.text_eq_of_erase hlook (by simp [htype])]
  split
  · exact .pure rfl
  · exact .fail _ trivial

/-- A repetition whose condition is on the type of the token ahead. -/
theorem repeatWhile (f : TokenType → Bool) (hf : ∀ type ∈ assignments, f type = f .logicalOr)
    (hx : Below R gives (Same view) x y) (n : Nat) :
    Below R gives (Same (List.map view)) (repeatWhile (f ·.type) x n) (repeatWhile (f ·.type) y n) := by
  induction n with
  | zero => exact .pure rfl
  | succ n ih =>
    refine h.peek.bind fun t t' ht => ?_
    simp only [ht.congr hf]
    split
    · refine hx.bind fun a a' ha => ih.bind fun list list' hlist => .pure ?_
      exact List.cons_eq_cons.2 ⟨ha, hlist⟩
    · exact .pure rfl

theorem commaList (hx : Below R gives (Same view) x y) (n : Nat) :
    Below R gives (Same (List.map view)) (commaList n x) (commaList n y) := by
  refine hx.bind fun a a' ha => ?_
  refine (h.repeatWhile (fun type => type = .comma) (by decide)
    ((h.expect (by decide)).bind fun _ _ _ => hx) n).bind fun _ _ hlist => ?_
  exact .pure (List.cons_eq_cons.2 ⟨ha, hlist⟩)

/-- Operands are joined. The first run may stop where a disjunction goes on in the second. -/
theorem chain {x y : Parse Expr} (hx : Below R gives (Same Expr.erase) x y) (level : Level)
    (hstops : level = .or → stops) (n : Nat) {left left' : Expr} (hleft : Same Expr.erase left left') :
    Below R gives (Same Expr.erase) (chain x level n left) (chain y level n left') stops := by
  induction n generalizing left left' with
  | zero => exact .pure hleft
  | succ n ih =>
    intro s s' hR
    rw [Parser.chain, Parser.chain, ifAhead_apply, ifAhead_apply]
    rcases h.look hR with hlook | ⟨hstuck, hor⟩
    · rw [← Token.type_eq_of_erase hlook]
      split
      · rename_i htype
        have htext := Token.text_eq_of_erase hlook fun k hk => by
          rw [hk] at htype
          cases level <;> simp [Level.type] at htype
        refine h.advance_bind hR fun _ => hx.bind fun right right' hright =>
          lastEnd_below.bind fun _ _ _ => ih ?_
        rw [Same, Level.build_erase, Level.build_erase, hleft, hright, htext]
      · exact .ended hleft hR
    · have hassign : ∀ type ∈ assignments, type ∉ [level.type] := by cases level <;> decide
      rw [if_neg (hassign _ hstuck.assigns)]
      by_cases hlevel : level = .or
      · exact .stopped (hstops hlevel) hstuck
      · rw [hor, if_neg (by cases level <;> simp_all [Level.type])]
        exact .ended hleft hR

theorem calls {x y : Parse (List Expr)} (hx : Below R gives (Same (List.map Expr.erase)) x y) (n : Nat)
    {callee callee' : Expr} (hcallee : Same Expr.erase callee callee') :
    Below R gives (Same Expr.erase) (calls x n callee) (calls y n callee') := by
  induction n generalizing callee callee' with
  | zero => exact .pure hcallee
  | succ n ih =>
    refine h.ifAhead (by decide) (hx.bind fun args args' hargs => lastEnd_below.bind fun _ _ _ => ih ?_)
      (.pure hcallee)
    rw [Same, Expr.erase, Expr.erase, Expr.eraseAll_eq_map, Expr.eraseAll_eq_map, hcallee, hargs]

theorem assigned {x y : Parse Expr} (hx : Below R gives (Same Expr.erase) x y) {left left' : Expr}
    (hleft : Same Expr.erase left left') :
    Below R gives (Same Expr.erase) (assigned x left) (assigned y left') := by
  intro s s' hR
  rcases h.look hR with hlook | ⟨hstuck, -⟩
  · rw [Parser.assigned, Parser.assigned, ifAhead_apply, ifAhead_apply, ← Token.type_eq_of_erase hlook]
    split
    · rename_i htype
      have htext := Token.text_eq_of_erase hlook fun k hk => by simp [hk, assignments] at htype
      rw [peek_apply, peek_apply, ← htext]
      -- Only names can be assigned to, and names look like nothing else.
      cases left with
      | ident target =>
        obtain ⟨target', rfl, htarget⟩ := Expr.erase_eq_ident (Eq.symm hleft)
        refine h.advance_bind hR fun _ => hx.bind fun value value' hvalue =>
          lastEnd_below.bind fun _ _ _ => .pure ?_
        rw [Same, Expr.erase, Expr.erase, hvalue, htarget]
      | _ =>
        cases left' with
        | ident => simp [Same, Expr.erase] at hleft
        | _ => exact .failed (.inl trivial)
    · exact .ended hleft hR
  · exact hstuck.assigned

/-! ## The rules -/

theorem expressions (n : Nat) {room room' : Nat} (hroom : room ≤ room') :
    Below R gives (Same Expr.erase) (expression n room) (expression n room') ∧
      Below R gives (Same Expr.erase) (ladder n room Level.all) (ladder n room' Level.all) True ∧
      (∀ levels, .or ∉ levels →
        Below R gives (Same Expr.erase) (ladder n room levels) (ladder n room' levels)) ∧
      Below R gives (Same Expr.erase) (unary n room) (unary n room') ∧
      Below R gives (Same (List.map Expr.erase)) (arguments n room) (arguments n room') ∧
      Below R gives (Same Expr.erase) (primary n room) (primary n room') := by
  induction room generalizing room' with
  | zero =>
    simp only [expression, ladder, unary, arguments, primary]
    exact ⟨h.gives_up _, h.gives_up _, fun _ _ => h.gives_up _, h.gives_up _, h.gives_up _, h.gives_up _⟩
  | succ room ih =>
    obtain ⟨k, rfl⟩ : ∃ k, room' = k + 1 := ⟨room' - 1, by omega⟩
    obtain ⟨hexpr, hor, hladder, hunary, hargs, hprimary⟩ := ih (Nat.le_of_succ_le_succ hroom)
    refine ⟨?_, ?_, ?_, ?_, ?_, ?_⟩
    · rw [expression_succ, expression_succ]
      exact fun s s' hR => (hor s s' hR).bind_of (fun _ _ hleft => h.assigned hexpr hleft) fun _ _ _ _ hs =>
        hs.assigned
    · have hoperand := hladder [.and, .equality, .relational, .additive, .multiplicative] (by decide)
      exact hoperand.bind fun _ _ hleft => h.chain hoperand _ (fun _ => trivial) _ hleft
    · intro levels hlevels
      cases levels with
      | nil =>
        rw [ladder, ladder]
        exact hunary
      | cons level tighter =>
        rw [ladder, ladder]
        obtain ⟨hlevel, htighter⟩ := List.ne_and_not_mem_of_not_mem_cons hlevels
        have hoperand := hladder tighter htighter
        exact hoperand.bind fun _ _ hleft => h.chain hoperand _ (fun heq => hlevel heq.symm) _ hleft
    · rw [unary, unary]
      refine h.ifTaken (by decide) (fun t t' htype ht => hunary.bind fun operand operand' hoperand =>
        lastEnd_below.bind fun _ _ _ => .pure ?_)
        (hprimary.bind fun _ _ hcallee => h.calls hargs _ hcallee)
      have htext := Token.text_eq_of_erase ht fun k hk => by simp [hk] at htype
      rw [Same, Expr.erase, Expr.erase, htext, hoperand]
    · rw [arguments, arguments]
      have hnone : Below R gives (Same (List.map Expr.erase)) (Pure.pure []) (Pure.pure []) := .pure rfl
      exact (h.expect (by decide)).bind fun _ _ _ => h.ifAhead (by decide)
        (hnone.bind fun _ _ hlist => (h.expect (by decide)).bind fun _ _ _ => .pure hlist)
        ((h.commaList hexpr _).bind fun _ _ hlist => (h.expect (by decide)).bind fun _ _ _ => .pure hlist)
    · intro s s' hR
      rw [primary, primary, peek_apply, peek_apply]
      rcases h.look hR with hlook | ⟨hstuck, hjoins⟩
      · rw [← Token.type_eq_of_erase hlook]
        generalize htype : s.lookahead.type = type
        split
        · exact (h.advance.bind fun _ _ _ => hexpr.bind fun _ _ hinner =>
            (h.expect (by decide)).bind fun _ _ _ => .pure hinner) s s' hR
        · refine (h.identifier.bind fun id id' hid => .pure ?_) s s' hR
          rw [Same, Expr.erase, Expr.erase, hid]
        · exact h.numberLiteral hR htype
        · rw [Token.text_eq_of_erase hlook (by simp [htype])]
          exact h.literalToken _ s s' hR
        · exact h.literalToken _ s s' hR
        · exact h.literalToken _ s s' hR
        · exact h.literalToken _ s s' hR
        · exact .failed (.inl trivial)
      · -- Neither operator starts an operand.
        rw [hjoins]
        rcases mem_assignments.1 hstuck.assigns with htype | htype <;> rw [htype] <;>
          exact .failed (.inl trivial)

section
variable {n room room' : Nat} (hroom : room ≤ room')
include hroom

theorem expression : Below R gives (Same Expr.erase) (expression n room) (expression n room') :=
  (h.expressions n hroom).1

theorem declaration :
    Below R gives (Same Declaration.erase) (declaration n room) (declaration n room') := by
  have hnone : Below R gives (Same (Option.map Expr.erase)) (Pure.pure none) (Pure.pure none) :=
    .pure rfl
  refine h.identifier.bind fun id id' hid => h.ifTaken (by decide) (fun _ _ _ _ =>
    (h.expression hroom).map_some.bind fun init init' hinit => ?_) (hnone.bind fun init init' hinit => ?_)
  all_goals
    refine lastEnd_below.bind fun _ _ _ => .pure ?_
    rw [Same, Declaration.erase, Declaration.erase, hid, hinit]

theorem declarations :
    Below R gives (fun p p' => Same (List.map Declaration.erase) p.1 p'.1) (declarations n room)
      (declarations n room') :=
  (h.expect (by decide)).bind fun _ _ _ => (h.commaList (h.declaration hroom) _).bind fun _ _ hlist =>
    lastEnd_below.bind fun _ _ _ => .pure hlist

theorem condition : Below R gives (Same Expr.erase) (condition n room) (condition n room') :=
  (h.expect (by decide)).bind fun _ _ _ => (h.expression hroom).bind fun _ _ htest =>
    (h.expect (by decide)).bind fun _ _ _ => .pure htest

theorem optionalUnless {stop : TokenType} (hstop : ∀ type ∈ .logicalOr :: assignments, type ∉ [stop]) :
    Below R gives (Same (Option.map Expr.erase)) (optionalUnless stop n room)
      (optionalUnless stop n room') :=
  h.ifAhead hstop (.pure rfl) (h.expression hroom).map_some

theorem forInit :
    Below R gives (Same (Option.map ForInit.erase)) (forInit n room) (forInit n room') := by
  refine h.ifAhead (by decide) (.pure rfl) (h.ifAhead (by decide) ?_ ?_)
  · refine (h.declarations hroom).bind fun p p' hlist => .pure ?_
    rw [Same, Option.map_some, Option.map_some, ForInit.erase, ForInit.erase, hlist]
  · refine (h.expression hroom).bind fun e e' he => .pure ?_
    rw [Same, Option.map_some, Option.map_some, ForInit.erase, ForInit.erase, he]

end

theorem parameters (n : Nat) :
    Below R gives (Same (List.map Ident.erase)) (parameters n) (parameters n) :=
  h.ifAhead (by decide) (.pure rfl) (h.commaList h.identifier _)


variable {room room' : Nat}

theorem variableStatement {n : Nat} (hroom : room ≤ room') :
    Below R gives (Same Stmt.erase) (variableStatement n room) (variableStatement n room') := by
  refine (h.declarations hroom).bind fun p p' hlist => h.terminator.bind fun _ _ _ =>
    lastEnd_below.bind fun _ _ _ => .pure ?_
  rw [Same, Stmt.erase, Stmt.erase, hlist]

theorem returnStatement {n : Nat} (hroom : room ≤ room') :
    Below R gives (Same Stmt.erase) (returnStatement n room) (returnStatement n room') := by
  have hnone : Below R gives (Same (Option.map Expr.erase)) (Pure.pure none) (Pure.pure none) :=
    .pure rfl
  refine h.advance.bind fun _ _ _ => h.ifAhead (by decide) (hnone.bind fun value value' hvalue => ?_)
    ((h.expression hroom).map_some.bind fun value value' hvalue => ?_)
  all_goals
    refine h.terminator.bind fun _ _ _ => lastEnd_below.bind fun _ _ _ => .pure ?_
    rw [Same, Stmt.erase, Stmt.erase, hvalue]

theorem expressionStatement {n : Nat} (hroom : room ≤ room') :
    Below R gives (Same Stmt.erase) (expressionStatement n room) (expressionStatement n room') := by
  refine h.peek.bind fun _ _ _ => (h.expression hroom).bind fun e e' he =>
    h.terminator.bind fun _ _ _ => lastEnd_below.bind fun _ _ _ => .pure ?_
  rw [Same, Stmt.erase, Stmt.erase, he]

theorem statement_block (n : Nat) (hroom : room ≤ room') :
    Below R gives (Same Stmt.erase) (statement n room) (statement n room') ∧
      Below R gives (fun p p' => Same (List.map Stmt.erase) p.1 p'.1) (block n room) (block n room') := by
  induction room generalizing room' with
  | zero =>
    simp only [statement, block]
    exact ⟨h.gives_up _, h.gives_up _⟩
  | succ room ih =>
    obtain ⟨k, rfl⟩ : ∃ k, room' = k + 1 := ⟨room' - 1, by omega⟩
    have hk : room ≤ k := by omega
    obtain ⟨hstmt, hblock⟩ := ih hk
    have hcond := h.condition (n := n) hk
    constructor
    · rw [statement, statement]
      refine h.peek.bind fun token token' htoken => ?_
      rcases htoken with htoken | ⟨hassigns, hor⟩
      · rw [← Token.type_eq_of_erase htoken]
        split
        · exact h.advance.bind fun _ _ _ => .pure rfl
        · refine hblock.bind fun p p' hbody => .pure ?_
          rw [Same, Stmt.erase, Stmt.erase, Stmt.eraseAll_eq_map, Stmt.eraseAll_eq_map, hbody]
        · exact h.variableStatement hk
        · refine h.advance.bind fun _ _ _ => hcond.bind fun test test' htest =>
            hstmt.bind fun body body' hbody => h.ifAhead (by decide) (h.advance.bind fun _ _ _ =>
              hstmt.bind fun other other' hother => lastEnd_below.bind fun _ _ _ => .pure ?_)
              (lastEnd_below.bind fun _ _ _ => .pure ?_)
          · rw [Same, Stmt.erase, Stmt.erase, htest, hbody, hother]
          · rw [Same, Stmt.erase, Stmt.erase, htest, hbody]
        · refine h.advance.bind fun _ _ _ => hcond.bind fun test test' htest =>
            hstmt.bind fun body body' hbody => lastEnd_below.bind fun _ _ _ => .pure ?_
          rw [Same, Stmt.erase, Stmt.erase, htest, hbody]
        · refine h.advance.bind fun _ _ _ => hstmt.bind fun body body' hbody =>
            (h.expect (by decide)).bind fun _ _ _ => hcond.bind fun test test' htest =>
            h.terminator.bind fun _ _ _ => lastEnd_below.bind fun _ _ _ => .pure ?_
          rw [Same, Stmt.erase, Stmt.erase, htest, hbody]
        · refine h.advance.bind fun _ _ _ => (h.expect (by decide)).bind fun _ _ _ =>
            (h.forInit hk).bind fun init init' hinit => (h.expect (by decide)).bind fun _ _ _ =>
            (h.optionalUnless hk (by decide)).bind fun test test' htest =>
            (h.expect (by decide)).bind fun _ _ _ =>
            (h.optionalUnless hk (by decide)).bind fun update update' hupdate =>
            (h.expect (by decide)).bind fun _ _ _ =>
            hstmt.bind fun body body' hbody => lastEnd_below.bind fun _ _ _ => .pure ?_
          rw [Same, Stmt.erase, Stmt.erase, hinit, htest, hupdate, hbody]
        · refine h.advance.bind fun _ _ _ => h.identifier.bind fun name name' hname =>
            (h.expect (by decide)).bind fun _ _ _ => (h.parameters n).bind fun params params' hparams =>
            (h.expect (by decide)).bind fun _ _ _ => hblock.bind fun p p' hbody =>
            lastEnd_below.bind fun _ _ _ => .pure ?_
          rw [Same, Stmt.erase, Stmt.erase, Stmt.eraseAll_eq_map, Stmt.eraseAll_eq_map, hname, hparams,
            hbody]
        · exact h.returnStatement hk
        · exact h.expressionStatement hk
      · -- Both operators are taken for the beginning of an expression.
        rw [hor]
        rcases mem_assignments.1 hassigns with htype | htype <;> rw [htype] <;>
          exact h.expressionStatement hk
    · rw [block, block]
      exact (h.expect (by decide)).bind fun _ _ _ => (h.repeatWhile
        (fun type => type != .curlyEnd && type != .endOfInput) (by decide) hstmt _).bind fun _ _ hbody =>
        (h.expect (by decide)).bind fun _ _ _ => lastEnd_below.bind fun _ _ _ => .pure hbody

theorem statements (n : Nat) (hroom : room ≤ room') :
    Below R gives (Same (List.map Stmt.erase)) (statements n room) (statements n room') :=
  h.repeatWhile (· != .endOfInput) (by decide) (h.statement_block n hroom).1 n

end Alike

/-! ## Room, endings and places -/

/-- The same state in both runs, so that only the room differs. -/
theorem alike_eq : Alike Eq fun e => ∃ span, e = .tooDeep span where
  look h := .inl (by rw [h]; rfl)
  gives_tooDeep span := ⟨span, rfl⟩
  step := by
    rintro s _ rfl -
    cases Parser.advance s with
    | error e => exact .failed (.inr rfl)
    | ok p => exact .ended trivial rfl

/-- More room changes no answer. -/
theorem statements_le (n : Nat) {room room' : Nat} (hroom : room ≤ room') {s t : State}
    {body : List Stmt} (h : statements n room' s = .ok (body, t)) :
    (∃ span, statements n room s = .error (.tooDeep span)) ∨
      ∃ body', statements n room s = .ok (body', t) ∧ body'.map Stmt.erase = body.map Stmt.erase := by
  have hbelow := alike_eq.statements n hroom s s rfl
  rw [h] at hbelow
  generalize statements n room s = r at hbelow
  cases hbelow with
  | givenUp he =>
    obtain ⟨span, rfl⟩ := he
    exact .inl ⟨span, rfl⟩
  | ended hbody hR =>
    subst hR
    exact .inr ⟨_, rfl, hbody⟩
  | stopped h => exact h.elim

/-- In front of the same tokens, none of them the end of the input: behind them the one state has a
place where no token starts and the other the end. -/
structure Broken (eof : Token) (s s' : State) : Prop where
  lookahead : s.lookahead = s'.lookahead
  rest : s.rest = s'.rest
  ending : ∃ e, s.ending = .error e
  ending' : s'.ending = .ok eof
  ne_end : ∀ t ∈ s.lookahead :: s.rest, t.type ≠ .endOfInput

theorem alike_broken (eof : Token) : Alike (Broken eof) fun _ => True where
  look h := .inl (by rw [h.lookahead]; rfl)
  gives_tooDeep _ := trivial
  step := by
    rintro ⟨look, rest, ending, last⟩ ⟨look', rest', ending', last'⟩ ⟨hl, hr, ⟨e, hs⟩, hs', hne⟩ -
    dsimp only at hl hr hs hs' hne
    subst hl hr hs hs'
    cases rest with
    | nil => exact .givenUp trivial
    | cons t rest =>
      exact .ended trivial ⟨rfl, rfl, ⟨e, rfl⟩, rfl, fun u hu => hne u (List.mem_cons_of_mem _ hu)⟩

/-- In front of tokens that differ in their places and in the spelling of keywords only. -/
inductive Relaid : State → State → Prop
  | intro {eof eof' : Token} {w w' : List Token} (last last' : Nat)
      (heof : Same Token.erase eof eof') (hw : Same (List.map Token.erase) w w') :
      Relaid (stateAt eof last w) (stateAt eof' last' w')

theorem alike_relaid : Alike Relaid fun e => ∃ span, e = .tooDeep span where
  look h := by
    obtain @⟨eof, eof', w, w', last, last', heof, hw⟩ := h
    cases w with
    | nil =>
      obtain rfl := List.map_eq_nil_iff.1 hw.symm
      exact .inl heof
    | cons t w =>
      obtain ⟨t', w', rfl, ht, -⟩ := List.map_eq_cons_iff.1 hw.symm
      exact .inl ht.symm
  gives_tooDeep span := ⟨span, rfl⟩
  step := by
    rintro _ _ @⟨eof, eof', w, w', last, last', heof, hw⟩ -
    cases w with
    | nil =>
      obtain rfl := List.map_eq_nil_iff.1 hw.symm
      have hend : Relaid (stateAt eof eof.stop []) (stateAt eof' eof'.stop []) := .intro _ _ heof rfl
      exact .ended trivial hend
    | cons t w =>
      obtain ⟨t', w', rfl, ht, hw'⟩ := List.map_eq_cons_iff.1 hw.symm
      rw [advance_cons, advance_cons]
      exact .ended trivial (.intro t.stop t'.stop heof hw'.symm)

/-- Tokens that differ in their places and in the spelling of keywords only are parsed as programs that
differ in their places only, in the same room. -/
theorem parseTokens_relaid {room length length' : Nat} {tokens tokens' : Lexer.Tokens} {eof eof' : Token}
    {p : Program} (heof : tokens.ending = .ok eof) (heof' : tokens'.ending = .ok eof')
    (hending : Same Token.erase eof eof')
    (htokens : Same (List.map Token.erase) tokens.tokens tokens'.tokens)
    (h : parseTokens room length tokens = .ok p) :
    ∃ q, parseTokens room length' tokens' = .ok q ∧ q.erase = p.erase := by
  have hlength : tokens.tokens.length = tokens'.tokens.length := by
    simpa using congrArg List.length htokens
  rw [parseTokens_eq heof] at h
  rw [parseTokens_eq heof', ← hlength]
  have hbelow := alike_relaid.statements (tokens.tokens.length + 1) (Nat.le_refl room) _ _
    (.intro 0 0 hending htokens)
  generalize statements (tokens.tokens.length + 1) room (stateAt eof 0 tokens.tokens) = r at h hbelow
  generalize statements (tokens.tokens.length + 1) room (stateAt eof' 0 tokens'.tokens) = r' at hbelow
  cases hbelow with
  | givenUp | failed => cases h
  | stopped hstop => exact hstop.elim
  | @ended body body' t t' hbody _ =>
    cases h
    refine ⟨_, rfl, Program.erase_congr ?_⟩
    rw [Program.erase, Program.erase, Stmt.eraseAll_eq_map, Stmt.eraseAll_eq_map]
    exact hbody.symm

/-! ## The last operator -/

/-- In front of some tokens and a last one, behind which no token starts. -/
def frontOf (error : LexError) (last : Nat) (t : Token) (w : List Token) : State :=
  ⟨w.headD t, (w ++ [t]).tail, .error error, last⟩

/-- In front of the same tokens, and of the operator of an assignment or of a disjunction. -/
def Swapped (error : LexError) (assign or : Token) (s s' : State) : Prop :=
  ∃ last w, s = frontOf error last assign w ∧ s' = frontOf error last or w

/-- What a run may give up with at the operator of an assignment. -/
def GivesUp (error : LexError) (e : SyntaxError) : Prop :=
  e = .lexical error ∨ (∃ span, e = .tooDeep span) ∨ ∃ span kind, e = .invalidTarget span kind

theorem alike_swapped (error : LexError) {assign or : Token} (hassign : assign.type ∈ assignments)
    (hor : or.type = .logicalOr) : Alike (Swapped error assign or) (GivesUp error) where
  look := by
    rintro _ _ ⟨last, w, rfl, rfl⟩
    cases w with
    | nil => exact .inr ⟨⟨hassign, ⟨_, rfl, .inl rfl⟩, fun span kind => .inr (.inr ⟨span, kind, rfl⟩)⟩, hor⟩
    | cons u w => exact .inl rfl
  step := by
    rintro _ _ ⟨last, w, rfl, rfl⟩ -
    cases w with
    | nil => exact .givenUp (.inl rfl)
    | cons u w =>
      have hstep : ∀ t, advance (frontOf error last t (u :: w)) = .ok (u, frontOf error u.stop t w) := by
        intro t
        cases w <;> rfl
      rw [hstep, hstep]
      exact .ended trivial ⟨u.stop, w, rfl, rfl⟩
  gives_tooDeep span := .inr (.inl ⟨span, rfl⟩)

theorem parseTokens_frontOf (room length : Nat) (error : LexError) (w : List Token) (t : Token)
    (c : Lexer.Cursor) :
    parseTokens room length ⟨w ++ [t], .error error, c⟩ =
      (statements (w.length + 2) room (frontOf error 0 t w)).map fun p => ⟨p.1, ⟨0, length⟩⟩ := by
  have hlength : (w ++ [t]).length + 1 = w.length + 2 := by simp
  rw [← hlength]
  cases w <;> exact parseTokens_cons room length rfl

/-- Where a disjunction may go on, an assignment fails for what it assigns to or not at all. -/
theorem parseTokens_swap {error : LexError} {assign or : Token} {room length : Nat} {w : List Token}
    {c : Lexer.Cursor} {e : SyntaxError} (hassign : assign.type ∈ assignments) (hor : or.type = .logicalOr)
    (h : parseTokens room length ⟨w ++ [assign], .error error, c⟩ = .error e) (he : Refuses e) :
    (∃ span kind, e = .invalidTarget span kind) ∨
      ∃ e', parseTokens room length ⟨w ++ [or], .error error, c⟩ = .error e' ∧ Refuses e' := by
  rw [parseTokens_frontOf] at h ⊢
  have hbelow := (alike_swapped error hassign hor).statements (w.length + 2) (Nat.le_refl room) _ _
    ⟨0, w, rfl, rfl⟩
  rw [eq_error_of_map h] at hbelow
  generalize statements (w.length + 2) room (frontOf error 0 or w) = r at hbelow
  cases hbelow with
  | givenUp hgives =>
    rcases hgives with rfl | ⟨span, rfl⟩ | htarget
    · exact he.elim
    · exact he.elim
    · exact .inl htarget
  | @failed _ e' hrefuses => exact .inr ⟨e', rfl, hrefuses.elim id fun heq => heq ▸ he⟩

end Parser

end Scriptlet
