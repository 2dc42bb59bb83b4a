import Scriptlet.Proofs.ParserSteps

/-!
What the descent parser makes of the beginning of a text. Its tokens are cut off somewhere and a place
where no token starts is put behind them; a run that gets there fails with this error. A run that does not
get there has not seen what comes behind, so it goes the same way on every text that begins like this. A
run that gets there can be completed: a few tokens behind the cut make the parser succeed, if it has a
little more room than it used (`Viable`).
-/

namespace Scriptlet.Parser

variable {α β : Type}

/-! ## Errors and the tokens they are about -/

/-- The token at the end, if the text was cut to its end. -/
def final : Except LexError Token → List Token
  | .ok eof => [eof]
  | .error _ => []

/-- All tokens that the parser may still see. -/
def State.all (s : State) : List Token :=
  s.lookahead :: (s.rest ++ final s.ending)

/-- The error was raised with the token ahead, or just behind it. -/
def Blames (t : Token) : SyntaxError → Prop
  | .unexpected u _ => t = u
  | .invalidTarget span _ => t.type ∈ assignments ∧ t.stop = span.stop
  | .badNumber e => t.type = .number ∧ Number.read t.text = .error e
  | _ => False

/-- An error that one of the given tokens is to blame for. -/
def About (tokens : List Token) (e : SyntaxError) : Prop :=
  ∃ t ∈ tokens, Blames t e

variable {tokens tokens' : List Token} {x : Parse α} {f : α → Parse β} {s : State}

theorem About.mono (hsub : tokens ⊆ tokens') {e : SyntaxError} (h : About tokens e) : About tokens' e := by
  obtain ⟨t, ht, hblames⟩ := h
  exact ⟨t, hsub ht, hblames⟩

/-- A result among the given tokens: the parser stands in front of some of them, or its error is about
one of them or about what comes behind. -/
inductive Lands (tokens : List Token) (ending : Except LexError Token) :
    Except SyntaxError (α × State) → Prop
  | ok {a : α} {s : State} (hend : s.ending = ending) (hsub : s.all ⊆ tokens) :
      Lands tokens ending (.ok (a, s))
  | about {e : SyntaxError} (h : About tokens e) : Lands tokens ending (.error e)
  | lexical {e : LexError} (h : ending = .error e) : Lands tokens ending (.error (.lexical e))
  | deep (span : Span) : Lands tokens ending (.error (.tooDeep span))

/-- From a state the parser goes forward. -/
def ForwardAt (x : Parse α) (s : State) : Prop :=
  Lands s.all s.ending (x s)

theorem Lands.mono {ending : Except LexError Token} {r : Except SyntaxError (α × State)}
    (hsub : tokens ⊆ tokens') (h : Lands tokens ending r) :
    Lands tokens' ending r := by
  cases h with
  | ok hend hs => exact .ok hend fun _ ht => hsub (hs ht)
  | about h => exact .about (h.mono hsub)
  | lexical h => exact .lexical h
  | deep span => exact .deep span

theorem Lands.bind_of {ending : Except LexError Token} (h : Lands tokens ending (x s))
    (hf : ∀ a s', x s = .ok (a, s') → s'.ending = ending → s'.all ⊆ tokens → Lands tokens ending (f a s')) :
    Lands tokens ending ((x >>= f) s) := by
  generalize hx : x s = r at h
  cases h with
  | ok hend hsub =>
    rw [bind_of_ok hx]
    exact hf _ _ hx hend hsub
  | about h =>
    rw [bind_of_error hx]
    exact .about h
  | lexical h =>
    rw [bind_of_error hx]
    exact .lexical h
  | deep span =>
    rw [bind_of_error hx]
    exact .deep span

theorem Lands.bind {ending : Except LexError Token} (h : Lands tokens ending (x s))
    (hf : ∀ a s, ForwardAt (f a) s) :
    Lands tokens ending ((x >>= f) s) :=
  h.bind_of fun a s' _ hend hsub => hend ▸ (hf a s').mono hsub

/-! ## Texts that go on -/

/-- Two runs, the first on tokens that are cut off and the second on a text that begins with them. -/
structure Cut where
  /-- What stands behind the tokens that are cut off. -/
  error : LexError
  /-- Both runs have the same room. -/
  exact : Prop
  /-- The second run has room to spare. -/
  spare : Prop
  /-- A bound on the number of tokens for the first run. -/
  n : Nat
  /-- How many tokens were taken from the bound for the second run, which may be any. -/
  k : Nat

/-- When some tokens were taken, fewer are left. -/
def Cut.less (C : Cut) (d : Nat) : Cut :=
  { C with n := C.n - d, k := C.k + d }

/-- The state in a text that goes on. -/
def State.extend (s : State) (more : List Token) (ending : Except LexError Token) : State :=
  { s with rest := s.rest ++ more, ending }

/-- What the second run makes of the tokens, given what the first makes of them. -/
inductive Extended (C : Cut) (d : Nat) (s : State) (more : List Token)
    (ending : Except LexError Token) :
    Except SyntaxError (α × State) → Except SyntaxError (α × State) → Prop
  | taken {a : α} {s' : State} (hend : s'.ending = .error C.error)
      (hlen : s'.rest.length + d ≤ s.rest.length)
      (hsub : s'.lookahead :: s'.rest ⊆ s.lookahead :: s.rest) :
      Extended C d s more ending (.ok (a, s')) (.ok (a, s'.extend more ending))
  | stuck {e : SyntaxError} (h : About (s.lookahead :: s.rest) e) :
      Extended C d s more ending (.error e) (.error e)
  | beyond {r : Except SyntaxError (α × State)}
      (h : C.exact → Lands (more ++ final ending) ending r) :
      Extended C d s more ending (.error (.lexical C.error)) r
  | deep {span : Span} {r : Except SyntaxError (α × State)}
      (h : C.exact → r = .error (.tooDeep span)) :
      Extended C d s more ending (.error (.tooDeep span)) r

/-! ## Tokens that complete -/

/-- The types of the tokens that texts are completed with. -/
def fillers : List TokenType :=
  [.identifier, .semi, .parenStart, .parenEnd, .curlyStart, .curlyEnd, .comma, .keyword .kwLet,
   .keyword .kwWhile]

def fillerText : TokenType → String
  | .identifier => "x"
  | .semi => ";"
  | .parenStart => "("
  | .parenEnd => ")"
  | .curlyStart => "\x7b"
  | .curlyEnd => "\x7d"
  | .comma => ","
  | .keyword k => k.english
  | _ => ""

def filler (type : TokenType) : Token :=
  ⟨type, fillerText type, ⟨0, 0⟩⟩

theorem headType_fillers (v : List TokenType) (more : List Token) (next : TokenType) :
    headType (v.map filler ++ more) next = v.headD (headType more next) := by
  cases v <;> rfl

/-- With some tokens behind the cut, and a token of one of the given types behind these, the parser
succeeds and stops in front of that token. -/
def Completable (C : Cut) (follow : List TokenType) (s : State) (y : Nat → Parse α) : Prop :=
  ∃ v ⊆ fillers, ∀ (bound : Nat) (eof : Token) (more : List Token), s.rest.length + 1 + C.k < bound →
    eof.type = .endOfInput → headType more eof.type ∈ follow →
    ∃ a last, y bound (s.extend (v.map filler ++ more) (.ok eof)) = .ok (a, stateAt eof last more)

/-- The numerals ahead are numbers. -/
def Readable (s : State) : Prop :=
  ∀ t ∈ s.lookahead :: s.rest, t.type = .number → ∃ n, Number.read t.text = .ok n

/-- From a state in front of tokens that are cut off. -/
structure ViableAt (C : Cut) (d : Nat) (follow : List TokenType) (x : Parse α) (y : Nat → Parse α)
    (s : State) : Prop where
  goesOn : s.ending = .error C.error → s.rest.length + 1 < C.n → Readable s →
    ∀ bound more ending, s.rest.length + 1 + C.k < bound →
      Extended C d s more ending (x s) (y bound (s.extend more ending))
  completes : C.spare → s.ending = .error C.error → s.rest.length + 1 < C.n → Readable s →
    x s = .error (.lexical C.error) → Completable C follow s y

/-- The parser succeeds on fillers of the types `v`, if a token of one of the types in `follow` comes
behind them. -/
def Fresh (v follow : List TokenType) (y : Parse α) : Prop :=
  ∀ (eof : Token) (last : Nat) (more : List Token), eof.type = .endOfInput →
    headType more eof.type ∈ follow →
    ∃ a last', y (stateAt eof last (v.map filler ++ more)) = .ok (a, stateAt eof last' more)

/-- The second parser goes on where the first comes to the cut, and the text can be completed there. The
parser takes `d` tokens at least, and succeeds on the tokens `v`. -/
structure Viable (C : Cut) (v : List TokenType) (d : Nat) (follow : List TokenType) (x : Parse α)
    (y : Nat → Parse α) : Prop where
  forward : C.exact → ∀ bound s, ForwardAt (y bound) s
  viableAt (s : State) : ViableAt C d follow x y s
  fresh : C.spare → ∀ bound, Fresh v follow (y bound)

section
variable {C : Cut} {d d' : Nat} {v v' follow follow' : List TokenType} {x : Parse α}
  {y : Nat → Parse α} {f : α → Parse β} {g : Nat → α → Parse β} {s : State}

variable {r r' : Except SyntaxError (α × State)}

/-- A step that comes behind others. -/
theorem Extended.after {s s' : State} {more : List Token} {ending : Except LexError Token}
    (h : Extended (C.less d) d' s' more ending r r') (hlen : s'.rest.length + d ≤ s.rest.length)
    (hsub : s'.lookahead :: s'.rest ⊆ s.lookahead :: s.rest) :
    Extended C (d + d') s more ending r r' := by
  cases h with
  | taken hend hlen' hsub' => exact .taken hend (by omega) fun _ ht => hsub (hsub' ht)
  | stuck h => exact .stuck (h.mono hsub)
  | beyond h => exact .beyond h
  | deep h => exact .deep h

/-- Tokens of the given types can stand behind a part that one of the types in `follow` has to follow,
if one of the types in `follow'` comes behind them. -/
def Joins (v follow follow' : List TokenType) : Prop :=
  v ⊆ fillers ∧ ∀ type ∈ follow', v.headD type ∈ follow

instance (v follow follow' : List TokenType) : Decidable (Joins v follow follow') :=
  inferInstanceAs (Decidable (_ ∧ _))

theorem Joins.headType (h : Joins v follow follow') {more : List Token} {next : TokenType}
    (hmore : headType more next ∈ follow') : headType (v.map filler ++ more) next ∈ follow := by
  rw [headType_fillers]
  exact h.2 _ hmore

theorem Fresh.bind (hx : Fresh v follow x) (hf : ∀ a, Fresh v' follow' (f a))
    (hv : Joins v' follow follow') : Fresh (v ++ v') follow' (x >>= f) := by
  intro eof last more heof hmore
  obtain ⟨a, last₁, hy⟩ := hx eof last (v'.map filler ++ more) heof (hv.headType hmore)
  obtain ⟨b, last₂, hg⟩ := hf a eof last₁ more heof hmore
  refine ⟨b, last₂, ?_⟩
  rw [List.map_append, List.append_assoc, bind_of_ok hy]
  exact hg

theorem ViableAt.bind (hx : ViableAt C d follow x y s)
    (hf : ∀ a, Viable (C.less d) v d' follow' (f a) (fun bound => g bound a))
    (hv : Joins v follow follow') :
    ViableAt C (d + d') follow' (x >>= f) (fun bound => y bound >>= g bound) s where
  goesOn hend hn hread bound more ending hbound := by
    have hstep := hx.goesOn hend hn hread bound more ending hbound
    generalize hxs : x s = r at hstep
    generalize hys : y bound (s.extend more ending) = r' at hstep
    cases hstep with
    | @taken a s' hend' hlen hsub =>
      rw [bind_of_ok hxs, bind_of_ok hys]
      refine (((hf a).viableAt s').goesOn hend' ?_ (fun t ht => hread t (hsub ht)) bound more ending
        ?_).after hlen hsub
      · show s'.rest.length + 1 < C.n - d
        omega
      · show s'.rest.length + 1 + (C.k + d) < bound
        omega
    | stuck h =>
      rw [bind_of_error hxs, bind_of_error hys]
      exact .stuck h
    | beyond h =>
      rw [bind_of_error hxs]
      refine .beyond fun hexact => ?_
      have hlands := h hexact
      rw [← hys] at hlands
      exact hlands.bind fun a => (hf a).forward hexact bound
    | deep h =>
      rw [bind_of_error hxs]
      refine .deep fun hexact => ?_
      rw [h hexact] at hys
      exact bind_of_error hys
  completes hspare hend hn hread hlex := by
    cases hxs : x s with
    | error e =>
      -- The first part is completed on its own, and the rest is made of fillers.
      rw [bind_of_error hxs] at hlex
      cases hlex
      obtain ⟨v₁, hv₁, hdone⟩ := hx.completes hspare hend hn hread hxs
      refine ⟨v₁ ++ v, List.append_subset.2 ⟨hv₁, hv.1⟩, fun bound eof more hbound heof hmore => ?_⟩
      obtain ⟨a, last, hy⟩ := hdone bound eof (v.map filler ++ more) hbound heof (hv.headType hmore)
      obtain ⟨b, last', hg⟩ := (hf a).fresh hspare bound eof last more heof hmore
      refine ⟨b, last', ?_⟩
      rw [List.map_append, List.append_assoc]
      exact (bind_of_ok hy).trans hg
    | ok p =>
      obtain ⟨a, s'⟩ := p
      rw [bind_of_ok hxs] at hlex
      have hfirst := hx.goesOn hend hn hread (s.rest.length + 2 + C.k) [] (.error C.error) (by omega)
      rw [hxs] at hfirst
      generalize y _ (s.extend [] (.error C.error)) = r at hfirst
      cases hfirst with
      | taken hend' hlen hsub =>
        obtain ⟨v₂, hv₂, hdone⟩ := ((hf a).viableAt s').completes hspare hend'
          (show s'.rest.length + 1 < C.n - d by omega) (fun t ht => hread t (hsub ht)) hlex
        refine ⟨v₂, hv₂, fun bound eof more hbound heof hmore => ?_⟩
        have hstep := hx.goesOn hend hn hread bound (v₂.map filler ++ more) (.ok eof) hbound
        rw [hxs] at hstep
        generalize hys : y bound (s.extend (v₂.map filler ++ more) (.ok eof)) = r at hstep
        cases hstep with
        | taken =>
          obtain ⟨b, last, hg⟩ := hdone bound eof more
            (show s'.rest.length + 1 + (C.k + d) < bound by omega) heof hmore
          exact ⟨b, last, (bind_of_ok hys).trans hg⟩

theorem Viable.bind (hx : Viable C v d follow x y)
    (hf : ∀ a, Viable (C.less d) v' d' follow' (f a) (fun bound => g bound a))
    (hv : Joins v' follow follow') :
    Viable C (v ++ v') (d + d') follow' (x >>= f) (fun bound => y bound >>= g bound) where
  forward hexact bound s := (hx.forward hexact bound s).bind fun a => (hf a).forward hexact bound
  viableAt s := (hx.viableAt s).bind hf hv
  fresh hspare bound := (hx.fresh hspare bound).bind (fun a => (hf a).fresh hspare bound) hv

/-! ## Weaker statements -/

/-- Fewer tokens are taken for sure. -/
theorem Extended.le {more : List Token} {ending : Except LexError Token} (hd : d' ≤ d)
    (h : Extended C d s more ending r r') :
    Extended C d' s more ending r r' := by
  cases h with
  | taken hend hlen hsub => exact .taken hend (by omega) hsub
  | stuck h => exact .stuck h
  | beyond h => exact .beyond h
  | deep h => exact .deep h

theorem ViableAt.le (hd : d' ≤ d) (h : ViableAt C d follow x y s) : ViableAt C d' follow x y s where
  goesOn hend hn hread bound more ending hbound :=
    (h.goesOn hend hn hread bound more ending hbound).le hd
  completes := h.completes

theorem Viable.le (hd : d' ≤ d) (h : Viable C v d follow x y) : Viable C v d' follow x y :=
  { h with viableAt := fun s => (h.viableAt s).le hd }

/-- Fewer types may follow. -/
theorem Viable.narrow (hsub : follow' ⊆ follow) (h : Viable C v d follow x y) :
    Viable C v d follow' x y where
  forward := h.forward
  viableAt s :=
    { goesOn := (h.viableAt s).goesOn
      completes := fun hspare hend hn hread hlex => by
        obtain ⟨u, hu, hdone⟩ := (h.viableAt s).completes hspare hend hn hread hlex
        exact ⟨u, hu, fun bound eof more hbound heof hmore =>
          hdone bound eof more hbound heof (hsub hmore)⟩ }
  fresh hspare bound eof last more heof hmore :=
    h.fresh hspare bound eof last more heof (hsub hmore)

/-- Fewer tokens are left. -/
theorem Viable.shrink {n k : Nat} (hn : n ≤ C.n) (hk : C.k ≤ k) (h : Viable C v d follow x y) :
    Viable { C with n, k } v d follow x y where
  forward := h.forward
  viableAt s :=
    { goesOn := fun hend hlt hread bound more ending hbound => by
        have hstep := (h.viableAt s).goesOn hend (Nat.lt_of_lt_of_le hlt hn) hread bound more ending
          (Nat.lt_of_le_of_lt (Nat.add_le_add_left hk _) hbound)
        generalize x s = r at hstep
        generalize y bound (s.extend more ending) = r' at hstep
        cases hstep with
        | taken hend hlen hsub => exact .taken hend hlen hsub
        | stuck h => exact .stuck h
        | beyond h => exact .beyond h
        | deep h => exact .deep h
      completes := fun hspare hend hlt hread hlex => by
        obtain ⟨u, hu, hdone⟩ := (h.viableAt s).completes hspare hend (Nat.lt_of_lt_of_le hlt hn)
          hread hlex
        exact ⟨u, hu, fun bound eof more hbound =>
          hdone bound eof more (Nat.lt_of_le_of_lt (Nat.add_le_add_left hk _) hbound)⟩ }
  fresh := h.fresh

theorem Viable.less (h : Viable C v d follow x y) : Viable (C.less d') v d follow x y :=
  h.shrink (Nat.sub_le ..) (Nat.le_add_right ..)

/-- The rest of a rule, which is viable however many tokens are left. -/
theorem Viable.then (hx : Viable C v d follow x y)
    (hf : ∀ a, Viable C v' d' follow' (f a) (fun bound => g bound a)) (hv : Joins v' follow follow') :
    Viable C (v ++ v') (d + d') follow' (x >>= f) (fun bound => y bound >>= g bound) :=
  hx.bind (fun a => (hf a).less) hv

end

/-! ## Steps -/

section
variable {C : Cut} {d d' : Nat} {v v' follow follow' : List TokenType}

theorem fresh_pure (a : α) : Fresh [] follow (pure a) :=
  fun _ last _ _ _ => ⟨a, last, rfl⟩

variable {s : State} {y x : Parse α} {k f : Token → Parse α} {g : α → Parse β}

theorem Fresh.peek_bind {type : TokenType} (h : Fresh (type :: v) follow (k (filler type))) :
    Fresh (type :: v) follow (peek >>= k) :=
  h

/-- Behind a part that anything may follow. -/
theorem Fresh.any (hx : ∀ follow, Fresh v follow y) (hf : ∀ a, Fresh v' follow (g a)) (hv : v' ⊆ fillers) :
    Fresh (v ++ v') follow (y >>= g) :=
  (hx (follow.map v'.headD)).bind hf ⟨hv, fun _ htype => List.mem_map_of_mem htype⟩

/-- A part behind, which may be left out. -/
theorem Fresh.map (hx : Fresh v follow y) (hf : ∀ a, Fresh [] follow (g a)) : Fresh v follow (y >>= g) := by
  have hbind := hx.bind hf ⟨List.nil_subset _, fun _ htype => htype⟩
  rwa [List.append_nil] at hbind

theorem viable_pure (a : α) : Viable C [] 0 follow (pure a) (fun _ => pure a) where
  forward _ _ _ := .ok rfl (List.Subset.refl _)
  viableAt _ :=
    { goesOn := fun hend _ _ _ _ _ _ => .taken hend (Nat.le_refl _) (List.Subset.refl _)
      completes := fun _ _ _ _ hlex => nomatch hlex }
  fresh _ _ := fresh_pure a

theorem viable_lastEnd : Viable C [] 0 follow lastEnd (fun _ => lastEnd) where
  forward _ _ _ := .ok rfl (List.Subset.refl _)
  viableAt _ :=
    { goesOn := fun hend _ _ _ _ _ _ => .taken hend (Nat.le_refl _) (List.Subset.refl _)
      completes := fun _ _ _ _ hlex => nomatch hlex }
  fresh _ _ _ last _ _ _ := ⟨last, last, rfl⟩

theorem advance_forward (s : State) : ForwardAt advance s := by
  obtain ⟨look, rest, ending, last⟩ := s
  cases rest with
  | cons t rest => exact .ok rfl (List.subset_cons_self ..)
  | nil =>
    cases ending with
    | ok eof => exact .ok rfl (by simp [State.all, final])
    | error e => exact .lexical rfl

theorem advance_viableAt (s : State) : ViableAt C 1 follow advance (fun _ => advance) s where
  goesOn := by
    obtain ⟨look, rest, ending, last⟩ := s
    rintro ⟨⟩ _ _ _ more ending _
    cases rest with
    | cons t rest => exact .taken rfl (Nat.le_refl _) (List.subset_cons_self ..)
    | nil =>
      refine .beyond fun _ => ?_
      cases more with
      | cons t more => exact .ok rfl (List.Subset.refl _)
      | nil =>
        cases ending with
        | ok eof => exact .ok rfl (by simp [State.all, final, State.extend])
        | error e => exact .lexical rfl
  completes := by
    obtain ⟨look, rest, ending, last⟩ := s
    rintro _ ⟨⟩ _ _ hlex
    cases rest with
    | cons t rest => cases hlex
    | nil =>
      refine ⟨[], List.nil_subset _, fun _ eof more _ _ _ => ⟨look, look.stop, ?_⟩⟩
      cases more <;> rfl

theorem advance_fresh (type : TokenType) : Fresh [type] follow advance :=
  fun _ _ more _ _ => ⟨_, _, advance_cons (filler type) more⟩

theorem viable_advance (type : TokenType) : Viable C [type] 1 follow advance (fun _ => advance) where
  forward _ _ := advance_forward
  viableAt := advance_viableAt
  fresh _ _ := advance_fresh type

theorem fail_viableAt {e : SyntaxError} (h : About (s.lookahead :: s.rest) e) :
    ViableAt C d follow (fail e : Parse α) (fun _ => fail e) s where
  goesOn _ _ _ _ _ _ _ := .stuck h
  completes _ _ _ _ hlex := by
    cases hlex
    obtain ⟨_, _, hblames⟩ := h
    exact hblames.elim

theorem ForwardAt.peek_bind (h : ForwardAt (k s.lookahead) s) :
    ForwardAt (peek >>= k) s :=
  h

theorem ForwardAt.ahead_bind {types : List TokenType} {k : Bool → Parse α}
    (h : ForwardAt (k (decide (s.lookahead.type ∈ types))) s) : ForwardAt (ahead types >>= k) s :=
  h

/-- What is done may depend on the token ahead. -/
theorem ViableAt.peek_bind {g : Nat → Token → Parse α}
    (h : ViableAt C d follow (f s.lookahead) (fun bound => g bound s.lookahead) s) :
    ViableAt C d follow (peek >>= f) (fun bound => peek >>= g bound) s :=
  ⟨h.goesOn, h.completes⟩

theorem viable_peek {g : Nat → Token → Parse α}
    (h : ∀ t, ∃ v', Viable C v' d follow (f t) (fun bound => g bound t))
    (hfresh : C.spare → ∀ bound, Fresh v follow (peek >>= g bound)) :
    Viable C v d follow (peek >>= f) (fun bound => peek >>= g bound) where
  forward hexact bound s := by
    obtain ⟨_, hf⟩ := h s.lookahead
    exact hf.forward hexact bound s
  viableAt s := by
    obtain ⟨_, hf⟩ := h s.lookahead
    exact ViableAt.peek_bind (hf.viableAt s)
  fresh := hfresh

theorem ViableAt.ahead_bind {types : List TokenType} {f : Bool → Parse α} {g : Nat → Bool → Parse α}
    (h : ViableAt C d follow (f (decide (s.lookahead.type ∈ types)))
      (fun bound => g bound (decide (s.lookahead.type ∈ types))) s) :
    ViableAt C d follow (ahead types >>= f) (fun bound => ahead types >>= g bound) s :=
  ⟨h.goesOn, h.completes⟩

theorem expect_fresh (type : TokenType) : Fresh [type] follow (expect type) :=
  fun _ _ more _ _ => ⟨_, _, expect_cons rfl more⟩

theorem viable_expect (type : TokenType) :
    Viable C [type] 1 follow (expect type) (fun _ => expect type) where
  forward _ _ s := by
    apply ForwardAt.peek_bind
    split
    · exact advance_forward s
    · exact .about ⟨_, List.mem_cons_self, rfl⟩
  viableAt s := by
    apply ViableAt.peek_bind
    split
    · exact advance_viableAt s
    · exact fail_viableAt ⟨_, List.mem_cons_self, rfl⟩
  fresh _ _ := expect_fresh type

theorem Fresh.ifAhead_skip {types : List TokenType} (hy : Fresh v follow y)
    (hskip : ∀ type ∈ follow, v.headD type ∉ types) :
    Fresh v follow (ahead types >>= fun b => if b = true then x else y) := by
  intro eof last more heof hmore
  have htype := hskip _ hmore
  rw [← headType_fillers] at htype
  rw [bind_of_ok (ahead_stateAt _ _), if_neg (by simpa using htype)]
  exact hy eof last more heof hmore

theorem Fresh.ifAhead_take {types : List TokenType} (hx : Fresh v follow x)
    (htake : ∀ type ∈ follow, v.headD type ∈ types) :
    Fresh v follow (ahead types >>= fun b => if b = true then x else y) := by
  intro eof last more heof hmore
  have htype := htake _ hmore
  rw [← headType_fillers] at htype
  rw [bind_of_ok (ahead_stateAt _ _), if_pos (by simpa using htype)]
  exact hx eof last more heof hmore

section
variable (types : List TokenType) {x y : Parse α} {x' y' : Nat → Parse α}

/-- What is done if certain tokens are ahead may rely on their types. -/
theorem viable_ifAhead_of
    (hforward : C.exact → ∀ bound, ∀ s : State, s.lookahead.type ∈ types → ForwardAt (x' bound) s)
    (hx : ∀ s : State, s.lookahead.type ∈ types → ViableAt C d follow x x' s)
    (hy : Viable C v' d follow y y')
    (hfresh : C.spare → ∀ bound,
      Fresh v follow (ahead types >>= fun b => if b = true then x' bound else y' bound)) :
    Viable C v d follow (ahead types >>= fun b => if b = true then x else y)
      (fun bound => ahead types >>= fun b => if b = true then x' bound else y' bound) where
  forward hexact bound s := by
    apply ForwardAt.ahead_bind
    by_cases htype : s.lookahead.type ∈ types
    · rw [if_pos (decide_eq_true htype)]
      exact hforward hexact bound s htype
    · rw [if_neg (by simpa using htype)]
      exact hy.forward hexact bound s
  viableAt s := by
    apply ViableAt.ahead_bind
    by_cases htype : s.lookahead.type ∈ types
    · simp only [if_pos (decide_eq_true htype)]
      exact hx s htype
    · simp only [decide_eq_false htype, Bool.false_eq_true, if_false]
      exact hy.viableAt s
  fresh := hfresh

/-- An optional part that is left out by default. -/
theorem viable_ifAhead (hx : Viable C v' d follow x x') (hy : Viable C v d follow y y')
    (hskip : ∀ type ∈ follow, v.headD type ∉ types) :
    Viable C v d follow (ahead types >>= fun b => if b = true then x else y)
      (fun bound => ahead types >>= fun b => if b = true then x' bound else y' bound) :=
  viable_ifAhead_of types (fun hexact bound s _ => hx.forward hexact bound s)
    (fun s _ => hx.viableAt s) hy fun hspare bound => (hy.fresh hspare bound).ifAhead_skip hskip

/-- An optional part that is there unless a token that may follow it is ahead. -/
theorem viable_unlessAhead (hx : Viable C v d follow x x') (hy : Viable C v' d follow y y')
    (htake : ∀ type ∈ follow, v.headD type ∈ types) :
    Viable C v d follow (ahead types >>= fun b => if b = true then x else y)
      (fun bound => ahead types >>= fun b => if b = true then x' bound else y' bound) :=
  viable_ifAhead_of types (fun hexact bound s _ => hx.forward hexact bound s)
    (fun s _ => hx.viableAt s) hy fun hspare bound => (hx.fresh hspare bound).ifAhead_take htake

end

section
variable {x : Parse α} {y : Nat → Parse α}

variable {f : α → Parse β} {g : Nat → α → Parse β}

/-- Behind a part that anything may follow. -/
theorem Viable.any (hx : ∀ follow, Viable C v d follow x y)
    (hf : ∀ a, Viable C v' d' follow (f a) (fun bound => g bound a)) (hv : v' ⊆ fillers) :
    Viable C (v ++ v') (d + d') follow (x >>= f) (fun bound => y bound >>= g bound) :=
  (hx (follow.map v'.headD)).then hf ⟨hv, fun _ htype => List.mem_map_of_mem htype⟩

/-- A part behind, which may be left out. -/
theorem Viable.map (hx : Viable C v d follow x y)
    (hf : ∀ a, Viable C [] 0 follow (f a) (fun bound => g bound a)) :
    Viable C v d follow (x >>= f) (fun bound => y bound >>= g bound) := by
  have hthen := hx.then hf ⟨List.nil_subset _, fun _ htype => htype⟩
  rwa [List.append_nil] at hthen

end

section
variable {f : Token → Parse α} {g : Nat → Token → Parse α}

theorem advance_then_viableAt {s : State}
    (hf : ∀ t, Viable (C.less 1) v d follow (f t) (fun bound => g bound t)) (hv : v ⊆ fillers) :
    ViableAt C (1 + d) follow (advance >>= f) (fun bound => advance >>= g bound) s := by
  have hadvance : ViableAt C 1 (follow.map v.headD) advance (fun _ => advance) s := advance_viableAt s
  exact hadvance.bind hf ⟨hv, fun _ htype => List.mem_map_of_mem htype⟩

theorem viable_expect_then (type : TokenType)
    (hf : ∀ t, Viable C v d follow (f t) (fun bound => g bound t)) (hv : v ⊆ fillers) :
    Viable C (type :: v) (1 + d) follow (expect type >>= f) (fun bound => expect type >>= g bound) :=
  Viable.any (fun _ => viable_expect type) hf hv

end

theorem viable_lastEnd_then {f : Nat → Parse α} {g : Nat → Nat → Parse α}
    (hf : ∀ stop, Viable C [] 0 follow (f stop) (fun bound => g bound stop)) :
    Viable C [] 0 follow (lastEnd >>= f) (fun bound => lastEnd >>= g bound) :=
  viable_lastEnd.map hf

theorem viable_terminator : Viable C [.semi] 0 follow terminator (fun _ => terminator) := by
  have hsemi : Viable C [.semi] 1 follow _ _ := (viable_expect .semi).map fun _ => viable_pure ()
  exact viable_ifAhead _ (viable_pure ()) (hsemi.le (Nat.zero_le _)) (by simp)

theorem viable_identifier : Viable C [.identifier] 1 follow identifier (fun _ => identifier) :=
  (viable_expect _).map fun _ => viable_pure _

theorem viable_literalToken (value : Literal) (type : TokenType) :
    Viable C [type] 1 follow (literalToken value) (fun _ => literalToken value) :=
  (viable_advance type).map fun _ => viable_pure _

/-- A numeral that is a number is a token like others. -/
theorem numberLiteral_eq {s : State} {n : Number} (hn : Number.read s.lookahead.text = .ok n) :
    numberLiteral s = literalToken (.number n) s := by
  rw [numberLiteral, advance_apply]
  simp only [hn]
  exact (advance_apply (fun t => pure (Expr.literal (.number n) t.span)) s).symm

theorem numberLiteral_forward {s : State} (htype : s.lookahead.type = .number) :
    ForwardAt numberLiteral s := by
  refine (advance_forward s).bind_of fun t s' hs hend hsub => ?_
  rw [advance_fst hs]
  cases hn : Number.read s.lookahead.text with
  | ok n => exact .ok hend hsub
  | error e => exact .about ⟨s.lookahead, List.mem_cons_self, htype, hn⟩

/-- A numeral is read when the next token was found behind it. -/
theorem numberLiteral_viableAt {s : State} (htype : s.lookahead.type = .number) :
    ViableAt C 1 follow numberLiteral (fun _ => numberLiteral) s := by
  cases hn : Number.read s.lookahead.text with
  | ok n =>
    have hliteral : ViableAt C 1 follow (literalToken (.number n)) (fun _ => literalToken (.number n)) s :=
      (viable_literalToken _ .number).viableAt s
    constructor
    · rw [numberLiteral_eq hn]
      intro hend hlt hread bound more ending hbound
      rw [numberLiteral_eq (s := s.extend more ending) hn]
      exact hliteral.goesOn hend hlt hread bound more ending hbound
    · rw [numberLiteral_eq hn]
      intro hspare hend hlt hread hlex
      obtain ⟨u, hu, hdone⟩ := hliteral.completes hspare hend hlt hread hlex
      refine ⟨u, hu, fun bound eof more hbound heof hmore => ?_⟩
      obtain ⟨a, last, ha⟩ := hdone bound eof more hbound heof hmore
      exact ⟨a, last, (numberLiteral_eq (s := s.extend _ _) hn).trans ha⟩
  | error e =>
    have hunread : ¬Readable s := fun hread => by
      obtain ⟨n, hok⟩ := hread s.lookahead List.mem_cons_self htype
      cases hn.symm.trans hok
    exact ⟨fun _ _ hread => absurd hread hunread, fun _ _ _ hread => absurd hread hunread⟩

end

/-! ## Repetitions -/

section
variable {C : Cut} {d : Nat} {v follow : List TokenType}

/-- The second parser matters only for bounds that are large enough. -/
theorem ViableAt.congr {x : Parse α} {y y' : Nat → Parse α} {s : State}
    (hy : ∀ bound, C.k < bound → y bound = y' bound) (h : ViableAt C d follow x y' s) :
    ViableAt C d follow x y s where
  goesOn hend hn hread bound more ending hbound := by
    rw [hy bound (by omega)]
    exact h.goesOn hend hn hread bound more ending hbound
  completes hspare hend hn hread hlex := by
    obtain ⟨u, hu, hdone⟩ := h.completes hspare hend hn hread hlex
    refine ⟨u, hu, fun bound eof more hbound heof hmore => ?_⟩
    rw [hy bound (by omega)]
    exact hdone bound eof more hbound heof hmore

/-- A repetition takes a token in every round, so when no rounds are left, no tokens are left. One round
may rely on the rounds behind it; `j` rounds came before. -/
theorem viable_rounds {σ : Type} {x : Nat → σ → Parse α} {y : Nat → Nat → σ → Parse α}
    (hforward : C.exact → ∀ bound n a s, ForwardAt (y bound n a) s)
    (hround : ∀ n j, n < C.n →
      (∀ a, Viable { C with n, k := C.k + j + 1 } [] 0 follow (x n a)
        (fun bound => y bound (bound - (j + 1)) a)) →
      ∀ a s, ViableAt { C with n := n + 1, k := C.k + j } 0 follow (x (n + 1) a)
        (fun bound => y bound (bound - (j + 1) + 1) a) s)
    (hstop : ∀ bound n a, Fresh [] follow (y bound n a)) (a : σ) :
    Viable C [] 0 follow (x C.n a) (fun bound => y bound bound a) := by
  suffices h : ∀ n j, n ≤ C.n → ∀ a,
      Viable { C with n, k := C.k + j } [] 0 follow (x n a) (fun bound => y bound (bound - j) a) from
    h C.n 0 (Nat.le_refl _) a
  intro n
  induction n with
  | zero =>
    exact fun j _ a =>
      { forward := fun hexact bound => hforward hexact bound (bound - j) a
        viableAt := fun s => ⟨fun _ hlt => absurd hlt (Nat.not_lt_zero _),
          fun _ _ hlt => absurd hlt (Nat.not_lt_zero _)⟩
        fresh := fun _ bound => hstop bound (bound - j) a }
  | succ n ih =>
    intro j hn a
    have hrest := ih (j + 1) (Nat.le_of_lt hn)
    exact
      { forward := fun hexact bound => hforward hexact bound (bound - j) a
        viableAt := fun s => (hround n j hn hrest a s).congr fun bound hbound => by
          rw [show bound - j = bound - (j + 1) + 1 by simp only at hbound; omega]
        fresh := fun _ bound => hstop bound (bound - j) a }

section
variable {go : Token → Bool} {item : Parse α} {item' : Nat → Parse α}

theorem repeatWhile_forward (hitem : ∀ s, ForwardAt item s) (n : Nat) (s : State) :
    ForwardAt (repeatWhile go item n) s := by
  induction n generalizing s with
  | zero => exact .ok rfl (List.Subset.refl _)
  | succ n ih =>
    apply ForwardAt.peek_bind
    split
    · exact (hitem s).bind fun first s' => (ih s').bind fun _ _ => .ok rfl (List.Subset.refl _)
    · exact .ok rfl (List.Subset.refl _)

theorem repeatWhile_fresh (hstop : ∀ t : Token, t.type ∈ follow → go t = false) (n : Nat) :
    Fresh [] follow (repeatWhile go item n) := by
  intro eof last more _ hmore
  refine ⟨[], last, ?_⟩
  cases n with
  | zero => rfl
  | succ n =>
    have hgo : go (more.headD eof) = false := hstop _ (by rwa [headD_type])
    rw [List.map_nil, List.nil_append, repeatWhile, bind_of_ok (peek_stateAt more), hgo]
    rfl

theorem viable_repeatWhile (go : Token → Bool) (hitem : Viable C v 1 follow item item')
    (hstop : ∀ t : Token, t.type ∈ follow → go t = false) :
    Viable C [] 0 follow (repeatWhile go item C.n)
      (fun bound => repeatWhile go (item' bound) bound) := by
  refine viable_rounds (x := fun n _ => repeatWhile go item n)
    (y := fun bound n _ => repeatWhile go (item' bound) n)
    (fun hexact bound n _ => repeatWhile_forward (hitem.forward hexact bound) n) ?_
    (fun bound n _ => repeatWhile_fresh hstop n) ()
  intro n j hn hrest _ s
  apply ViableAt.peek_bind
  split
  · have hnext (first : α) := (hrest ()).map fun others => viable_pure (first :: others)
    exact (((hitem.shrink hn (Nat.le_add_right ..)).viableAt s).bind hnext
      ⟨List.nil_subset _, fun _ h => h⟩).le (Nat.zero_le _)
  · exact (viable_pure _).viableAt s

theorem viable_commaList (hitem : Viable C v d follow item item') (hv : v ⊆ fillers)
    (hcomma : .comma ∉ follow) :
    Viable C v d follow (commaList C.n item) (fun bound => commaList bound (item' bound)) := by
  have hround := viable_expect_then .comma (fun _ => hitem) hv
  have hrounds := viable_repeatWhile (·.type = .comma) (hround.le (Nat.le_add_right 1 d))
    fun t ht => decide_eq_false fun htype => hcomma (htype ▸ ht)
  exact hitem.map fun first => hrounds.map fun others => viable_pure (first :: others)

end

section
variable {operand : Parse Expr} {operand' : Nat → Parse Expr} {level : Level}

theorem chain_forward (hoperand : ∀ s, ForwardAt operand s) (n : Nat) (left : Expr) (s : State) :
    ForwardAt (chain operand level n left) s := by
  induction n generalizing left s with
  | zero => exact .ok rfl (List.Subset.refl _)
  | succ n ih =>
    apply ForwardAt.ahead_bind
    split
    · exact (advance_forward s).bind fun operator s' => (hoperand s').bind fun right s' =>
        Lands.bind (x := lastEnd) (.ok rfl (List.Subset.refl _)) fun stop => ih _
    · exact .ok rfl (List.Subset.refl _)

theorem chain_fresh (hstop : level.type ∉ follow) (n : Nat) (left : Expr) :
    Fresh [] follow (chain operand level n left) := by
  cases n with
  | zero => exact fresh_pure left
  | succ n =>
    exact (fresh_pure left).ifAhead_skip fun _ htype h => hstop (List.mem_singleton.1 h ▸ htype)

theorem viable_chain (hoperand : Viable C v d follow operand operand') (hv : v ⊆ fillers)
    (hstop : level.type ∉ follow) (left : Expr) :
    Viable C [] 0 follow (chain operand level C.n left)
      (fun bound => chain (operand' bound) level bound left) := by
  refine viable_rounds (y := fun bound => chain (operand' bound) level)
    (fun hexact bound => chain_forward (hoperand.forward hexact bound)) ?_
    (fun _ => chain_fresh hstop) left
  intro n j hn hrest left s
  apply ViableAt.ahead_bind
  split
  · have hnext (operator : Token) :=
      (hoperand.shrink (Nat.le_of_lt hn) (Nat.le_add_right C.k (j + 1))).map fun right =>
        viable_lastEnd_then fun stop =>
          hrest (level.build operator.text left right ⟨left.span.start, stop⟩)
    exact (advance_then_viableAt (C := { C with n := n + 1, k := C.k + j }) hnext hv).le
      (Nat.zero_le _)
  · exact (viable_pure _).viableAt s

end

section
variable {args : Parse (List Expr)} {args' : Nat → Parse (List Expr)}

theorem calls_forward (hargs : ∀ s, ForwardAt args s) (n : Nat) (callee : Expr) (s : State) :
    ForwardAt (calls args n callee) s := by
  induction n generalizing callee s with
  | zero => exact .ok rfl (List.Subset.refl _)
  | succ n ih =>
    apply ForwardAt.ahead_bind
    split
    · exact (hargs s).bind fun list s' =>
        Lands.bind (x := lastEnd) (.ok rfl (List.Subset.refl _)) fun stop => ih _
    · exact .ok rfl (List.Subset.refl _)

theorem calls_fresh (hstop : .parenStart ∉ follow) (n : Nat) (callee : Expr) :
    Fresh [] follow (calls args n callee) := by
  cases n with
  | zero => exact fresh_pure callee
  | succ n =>
    exact (fresh_pure callee).ifAhead_skip fun _ htype h => hstop (List.mem_singleton.1 h ▸ htype)

theorem viable_calls (hargs : Viable C v 1 follow args args') (hstop : .parenStart ∉ follow)
    (callee : Expr) :
    Viable C [] 0 follow (calls args C.n callee) (fun bound => calls (args' bound) bound callee) := by
  refine viable_rounds (y := fun bound => calls (args' bound))
    (fun hexact bound => calls_forward (hargs.forward hexact bound)) ?_
    (fun _ => calls_fresh hstop) callee
  intro n j hn hrest callee s
  apply ViableAt.ahead_bind
  split
  · have hnext (list : List Expr) := viable_lastEnd_then fun stop =>
      hrest (.call callee list ⟨callee.span.start, stop⟩)
    exact (((hargs.shrink hn (Nat.le_add_right ..)).viableAt s).bind hnext
      ⟨List.nil_subset _, fun _ h => h⟩).le (Nat.zero_le _)
  · exact (viable_pure _).viableAt s

end

end

end Scriptlet.Parser
