import Scriptlet.Proofs.Rooms

/-!
Terminators at the end of a text. There, a statement may go without its terminator, also one that is
the body of others. The last token tells whether it does: with its terminator every statement ends in
`;` or in `}`, and without it in neither. So one terminator behind the last token, if it is missing,
makes a text whose statements could also stand in front of other tokens.
-/

namespace Scriptlet

/-! ## Last tokens -/

/-- What a statement with its terminator can end with. -/
def stmtEnders : List TokenType :=
  [.semi, .curlyEnd]

/-- What an expression can end with. -/
def exprEnders : List TokenType :=
  [.parenEnd, .identifier, .number, .string, .keyword .kwTrue, .keyword .kwFalse, .keyword .kwNull]

/-- What a phrase can end with; `none` if there may be nothing of it, or no terminator. -/
def Phrase.enders : Phrase → Option (List TokenType)
  | .ident _ | .idents _ => some [.identifier]
  | .expr .. | .exprs _ | .declaration _ | .declarations _ | .variables .. => some exprEnders
  | .condition _ => some [.parenEnd]
  | .block .. => some [.curlyEnd]
  | .terminator next | .stmt next _ => if next = .endOfInput then none else some stmtEnders
  | .parameters _ | .arguments _ | .optional _ | .forInit _ | .stmts .. => none

/-- There is a last token, of one of the given types. -/
def Ends (types : List TokenType) (w : List Token) : Prop :=
  ∃ v t, w = v ++ [t] ∧ t.type ∈ types

section

variable {types types' : List TokenType} {v w : List Token} {t : Token}

theorem ends_single (h : t.type ∈ types) : Ends types [t] :=
  ⟨[], t, rfl, h⟩

theorem Ends.behind (h : Ends types w) (v : List Token) : Ends types (v ++ w) := by
  obtain ⟨u, t, rfl, ht⟩ := h
  exact ⟨v ++ u, t, (List.append_assoc v u [t]).symm, ht⟩

theorem Ends.cons (h : Ends types w) (t : Token) : Ends types (t :: w) :=
  h.behind [t]

theorem Ends.weaken (h : Ends types w) (hsub : types ⊆ types') : Ends types' w := by
  obtain ⟨u, t, rfl, ht⟩ := h
  exact ⟨u, t, rfl, hsub ht⟩

theorem Ends.last (h : Ends types w) (ht : t ∈ w.getLast?) : t.type ∈ types := by
  obtain ⟨u, s, rfl, hs⟩ := h
  obtain rfl : s = t := by simpa using ht
  exact hs

theorem Ends.ne_nil (h : Ends types w) : w ≠ [] := by
  obtain ⟨u, t, rfl, -⟩ := h
  simp

theorem Derives.ends {place : Placing} {phrase : Phrase} (h : Derives place w phrase) :
    ∀ types, phrase.enders = some types → Ends types w := by
  induction h with
  | ident ht | number ht | string ht =>
    rintro _ ⟨⟩
    exact ends_single (by simp [ht, exprEnders])
  | @word t k value span ht hk =>
    rintro _ ⟨⟩
    apply ends_single
    cases k <;> simp_all [exprEnders, Keyword.literal?]
  | oneIdent _ ih | atom _ ih | ofCall _ ih | ofOperand _ ih | ofOr _ ih | oneExpr _ ih
  | oneDeclaration _ ih => exact ih
  | moreIdents _ _ _ _ ih | moreExprs _ _ _ _ ih | moreDeclarations _ _ _ _ ih
  | initialized _ _ _ _ _ ih | binary _ _ _ _ _ _ ih | logical _ _ _ _ _ _ ih
  | assign _ _ _ _ _ _ ih =>
    intro types htypes
    exact ((ih types htypes).cons _).behind _
  | name _ ih | paren _ ih | bare _ _ ih =>
    rintro _ ⟨⟩
    exact (ih _ rfl).weaken (by simp [exprEnders])
  | unary _ _ _ _ ih | declared _ _ _ ih =>
    intro types htypes
    exact (ih types htypes).cons _
  | call _ _ _ hu =>
    rintro _ ⟨⟩
    exact (((ends_single (by simp [hu, exprEnders])).behind _).cons _).behind _
  | condition _ _ hu | block _ _ hu =>
    rintro _ ⟨⟩
    exact ((ends_single (by simp [hu])).behind _).cons _
  | semi ht | emptyStmt ht =>
    intro types htypes
    obtain ⟨-, rfl⟩ : _ ∧ stmtEnders = types := by simpa [Phrase.enders] using htypes
    exact ends_single (by simp [ht, stmtEnders])
  | atEnd => rintro _ ⟨⟩
  | exprStmt _ _ _ _ ihe | variableStmt _ _ _ _ ihe =>
    intro types htypes
    exact (ihe types htypes).behind _
  | blockStmt _ ih =>
    intro types htypes
    obtain ⟨-, rfl⟩ : _ ∧ stmtEnders = types := by simpa [Phrase.enders] using htypes
    exact (ih _ rfl).weaken (by simp [stmtEnders])
  | ifThen _ _ _ _ _ _ ihb | whileLoop _ _ _ _ _ ihb =>
    intro types htypes
    exact ((ihb types htypes).behind _).cons _
  | ifElse _ _ _ _ _ _ _ _ iho =>
    intro types htypes
    exact ((((iho types htypes).cons _).behind _).behind _).cons _
  | doLoop _ _ _ _ _ _ _ _ ihe =>
    intro types htypes
    exact ((((ihe types htypes).behind _).cons _).behind _).cons _
  | forLoop _ _ _ _ _ _ _ _ _ _ _ _ _ ihx =>
    intro types htypes
    exact ((((((((ihx types htypes).cons _).behind _).cons _).behind _).cons _).behind _).cons _).cons _
  | function _ _ _ _ _ _ _ _ _ ihx =>
    intro types htypes
    obtain ⟨-, rfl⟩ : _ ∧ stmtEnders = types := by simpa [Phrase.enders] using htypes
    have hblock : Ends stmtEnders _ := (ihx _ rfl).weaken (by simp [stmtEnders])
    exact ((((hblock.cons _).behind _).cons _).behind _).cons _
  | ret _ _ _ _ _ ihe =>
    intro types htypes
    exact ((ihe types htypes).behind _).cons _
  | noParameters | parameters | noArguments | arguments | absent | present | noInit
  | initVariables | initExpr | noStmts | moreStmts => rintro _ ⟨⟩

end

/-! ## Closed texts -/

/-- There is no token, or the last one may end a statement with its terminator. -/
def isClosed (w : List Token) : Bool :=
  w.getLast?.all (·.type ∈ stmtEnders)

section

variable {types : List TokenType} {v w : List Token} {t : Token} {next : TokenType} {place : Placing}

theorem isClosed_append (h : w ≠ []) : isClosed (v ++ w) = isClosed w := by
  rw [isClosed, isClosed, List.getLast?_append, List.getLast?_eq_some_getLast h, Option.some_or]

theorem Ends.isClosed_eq (h : Ends types w) : ∃ type ∈ types, isClosed w = decide (type ∈ stmtEnders) := by
  obtain ⟨v, t, rfl, ht⟩ := h
  exact ⟨t.type, ht, by simp [isClosed]⟩

theorem Ends.isClosed (h : Ends types w) (hsub : ∀ type ∈ types, type ∈ stmtEnders) :
    isClosed w = true := by
  obtain ⟨type, hmem, heq⟩ := h.isClosed_eq
  rw [heq]
  exact decide_eq_true (hsub type hmem)

theorem Ends.not_isClosed (h : Ends types w) (hd : ∀ type ∈ types, type ∉ stmtEnders) :
    Scriptlet.isClosed w = false := by
  obtain ⟨type, hmem, heq⟩ := h.isClosed_eq
  rw [heq]
  exact decide_eq_false (hd type hmem)

/-- Without its terminator, a return statement is not closed. -/
theorem not_isClosed_ret {value : Option Expr} (ht : t.type = .keyword .kwReturn)
    (h : Derives place w (.optional value)) : isClosed (t :: w) = false := by
  have hends : Ends (.keyword .kwReturn :: exprEnders) (t :: w) := by
    cases h with
    | absent => exact ends_single (by simp [ht])
    | present h => exact ((h.ends _ rfl).cons t).weaken (List.subset_cons_self ..)
  exact hends.not_isClosed (by decide)

/-- A terminator is as good in front of anything; where it is missing, the text is not closed. -/
theorem Fits.terminator {room : Nat} {next' : TokenType} (h : Fits place room v (.terminator next))
    (hw : Scriptlet.isClosed w = false) (hc : Scriptlet.isClosed (w ++ v) = true ∨ next' = .endOfInput) :
    Fits place room v (.terminator next') := by
  cases h with
  | semi ht => exact .semi ht
  | atEnd =>
    rcases hc with hc | rfl
    · rw [List.append_nil, hw] at hc
      cases hc
    · exact .atEnd

/-- A phrase in front of something else. -/
def Phrase.before (next : TokenType) : Phrase → Phrase
  | .stmt _ s => .stmt next s
  | phrase => phrase

/-- What is read as a statement in front of something is one in front of the end of the input, and if it is
closed, in front of anything but `else`. -/
theorem Fits.before {room : Nat} {phrase : Phrase} (h : Fits place room w phrase)
    (hnext : next ≠ .keyword .kwElse) (hc : Scriptlet.isClosed w = true ∨ next = .endOfInput) :
    Fits place room w (phrase.before next) := by
  have hself := h
  have hlast : ∀ {x v : List Token}, v ≠ [] → Scriptlet.isClosed (x ++ v) = true ∨ next = .endOfInput →
      Scriptlet.isClosed v = true ∨ next = .endOfInput := by
    intro x v hv hc
    rwa [isClosed_append hv] at hc
  induction h with
  | exprStmt h he hs =>
    exact .exprStmt h (he.terminator ((h.derives.ends _ rfl).not_isClosed (by decide)) hc) hs
  | variableStmt h he hs =>
    exact .variableStmt h (he.terminator ((h.derives.ends _ rfl).not_isClosed (by decide)) hc) hs
  | blockStmt h => exact .blockStmt h
  | emptyStmt ht hs => exact .emptyStmt ht hs
  | @ifThen _ w v t _ _ _ _ ht h hb _ hs _ ihb =>
    exact .ifThen ht h (ihb (hlast (x := t :: w) hb.derives.stmt_ne_nil hc) hb) hnext hs
  | @ifElse _ w v v' t u _ _ _ _ _ ht h hb hu ho hs _ _ iho =>
    refine .ifElse ht h hb hu (iho (hlast (x := t :: (w ++ (v ++ [u]))) ho.derives.stmt_ne_nil ?_) ho) hs
    simpa using hc
  | @whileLoop _ w v t _ _ _ _ ht h hb hs _ ihb =>
    exact .whileLoop ht h (ihb (hlast (x := t :: w) hb.derives.stmt_ne_nil hc) hb) hs
  | @doLoop _ w v v' t u _ _ _ _ ht hb hu h he hs =>
    have hends := h.derives.ends _ rfl
    refine .doLoop ht hb hu h (he.terminator (hends.not_isClosed (by decide))
      (hlast (x := t :: (w ++ [u])) (by simp [hends.ne_nil]) ?_)) hs
    simpa using hc
  | @forLoop _ w v v' x t a b c d _ _ _ _ _ _ ht ha hi hb h hc' hu hd hx hs _ _ _ ihx =>
    refine .forLoop ht ha hi hb h hc' hu hd (ihx (hlast
      (x := t :: a :: (w ++ b :: (v ++ c :: (v' ++ [d])))) hx.derives.stmt_ne_nil ?_) hx) hs
    simpa using hc
  | function ht h ha hp hb hx hs => exact .function ht h ha hp hb hx hs
  | @ret _ w v t _ _ _ ht h he hs =>
    exact .ret ht h (he.terminator (not_isClosed_ret ht h.derives) hc) hs
  | _ => exact hself

end

/-! ## Missing terminators -/

/-- The tokens with a terminator behind the last one, if it is missing. -/
def withTerminator (t : Token) (w : List Token) : List Token :=
  if isClosed w then w else w ++ [t]

section

variable {v w : List Token} {t : Token} {next : TokenType} {place : Placing}

theorem withTerminator_of_isClosed (h : isClosed w = true) : withTerminator t w = w := by
  rw [withTerminator, if_pos h]

theorem withTerminator_append (h : w ≠ []) : withTerminator t (v ++ w) = v ++ withTerminator t w := by
  rw [withTerminator, withTerminator, isClosed_append h]
  split
  · rfl
  · exact List.append_assoc v w [t]

theorem withTerminator_cons (h : w ≠ []) (u : Token) :
    withTerminator t (u :: w) = u :: withTerminator t w :=
  withTerminator_append (v := [u]) h

theorem headType_withTerminator (h : w ≠ []) (next next' : TokenType) :
    headType (withTerminator t w) next = headType w next' := by
  cases w with
  | nil => exact absurd rfl h
  | cons u w =>
    rw [withTerminator]
    split <;> rfl

theorem Derives.stmts_nil {list : List Stmt} (h : Derives place [] (.stmts next list)) : list = [] := by
  generalize hw : ([] : List Token) = w at h
  cases h with
  | noStmts => rfl
  | moreStmts h => exact absurd (List.append_eq_nil_iff.1 hw.symm).1 h.stmt_ne_nil

/-- In front of any token, statements are closed. -/
theorem isClosed_of_derives {list : List Stmt} (h : Derives place w (.stmts next list))
    (hn : next ≠ .endOfInput) : isClosed w = true := by
  induction list generalizing w with
  | nil =>
    cases h
    rfl
  | cons s list ih =>
    cases h with
    | @moreStmts w v _ _ _ h hl =>
      by_cases hv : v = []
      · subst hv
        rw [List.append_nil]
        exact (h.ends stmtEnders (if_neg hn)).isClosed (fun _ => id)
      · rw [isClosed_append hv]
        exact ih hl

/-- A terminator is there, or one comes behind. -/
theorem exists_terminator (hw : isClosed w = false) (hv : Derives place v (.terminator .endOfInput))
    (ht : t.type = .semi) :
    ∃ u : Token, u.type = .semi ∧ withTerminator t (w ++ v) = w ++ [u] := by
  cases hv with
  | @semi u _ hu =>
    refine ⟨u, hu, ?_⟩
    rw [withTerminator_append (by simp), withTerminator_of_isClosed]
    simp [isClosed, hu, stmtEnders]
  | atEnd => exact ⟨t, ht, by simp [withTerminator, hw]⟩

/-- A phrase that is derived at the end of the text is derived in front of any token, `else` apart, if a
terminator is behind it. -/
def Terminable (w : List Token) : Phrase → Prop
  | .stmt next s => next = .endOfInput → ∀ t : Token, t.type = .semi →
    ∀ next', next' ≠ .keyword .kwElse → Derives .free (withTerminator t w) (.stmt next' s)
  | .stmts next list => next = .endOfInput → ∀ t : Token, t.type = .semi →
    ∀ next', next' ≠ .keyword .kwElse → Derives .free (withTerminator t w) (.stmts next' list)
  | _ => True

theorem terminable_of_derives {phrase : Phrase} (h : Derives .free w phrase) : Terminable w phrase := by
  induction h with
  | exprStmt h he =>
    rintro rfl t ht next' -
    obtain ⟨u, hu, heq⟩ := exists_terminator ((h.ends _ rfl).not_isClosed (by decide)) he ht
    rw [heq]
    exact .exprStmt h (.semi hu) trivial
  | variableStmt h he =>
    rintro rfl t ht next' -
    obtain ⟨u, hu, heq⟩ := exists_terminator ((h.ends _ rfl).not_isClosed (by decide)) he ht
    rw [heq]
    exact .variableStmt h (.semi hu) trivial
  | blockStmt h =>
    rintro rfl t - next' -
    rw [withTerminator_of_isClosed ((h.ends _ rfl).isClosed (by decide))]
    exact .blockStmt h
  | emptyStmt ht =>
    rintro rfl t - next' -
    rw [withTerminator_of_isClosed (by simp [isClosed, ht, stmtEnders])]
    exact .emptyStmt ht trivial
  | ifThen ht h hb _ _ _ ih =>
    rintro rfl t hsemi next' hnext
    rw [withTerminator_cons (by simp [hb.stmt_ne_nil]), withTerminator_append hb.stmt_ne_nil]
    exact .ifThen ht h (ih rfl t hsemi next' hnext) hnext trivial
  | ifElse ht h hb hu ho _ _ _ ih =>
    rintro rfl t hsemi next' hnext
    rw [withTerminator_cons (by simp), withTerminator_append (by simp), withTerminator_append (by simp),
      withTerminator_cons ho.stmt_ne_nil]
    exact .ifElse ht h hb hu (ih rfl t hsemi next' hnext) trivial
  | whileLoop ht h hb _ _ ih =>
    rintro rfl t hsemi next' hnext
    rw [withTerminator_cons (by simp [hb.stmt_ne_nil]), withTerminator_append hb.stmt_ne_nil]
    exact .whileLoop ht h (ih rfl t hsemi next' hnext) trivial
  | @doLoop w v v' t u _ _ _ _ ht hb hu h he =>
    rintro rfl t' hsemi next' -
    obtain ⟨c, hc, heq⟩ := exists_terminator ((h.ends _ rfl).not_isClosed (by decide)) he hsemi
    have hne : v ++ v' ≠ [] := by simp [(h.ends _ rfl).ne_nil]
    rw [withTerminator_cons (by simp), withTerminator_append (by simp), withTerminator_cons hne, heq]
    exact .doLoop ht hb hu h (.semi hc) trivial
  | forLoop ht ha hi hb h hc hu hd hx _ _ _ _ ih =>
    rintro rfl t hsemi next' hnext
    rw [withTerminator_cons (by simp), withTerminator_cons (by simp), withTerminator_append (by simp),
      withTerminator_cons (by simp), withTerminator_append (by simp), withTerminator_cons (by simp),
      withTerminator_append (by simp), withTerminator_cons hx.stmt_ne_nil]
    exact .forLoop ht ha hi hb h hc hu hd (ih rfl t hsemi next' hnext) trivial
  | @function w v x t a b _ _ _ _ _ _ ht h ha hp hb hx =>
    rintro rfl t' - next' -
    have hends : Ends [.curlyEnd] (t :: (w ++ a :: (v ++ b :: x))) :=
      (((((hx.ends _ rfl).cons _).behind _).cons _).behind _).cons _
    rw [withTerminator_of_isClosed (hends.isClosed (by decide))]
    exact .function ht h ha hp hb hx trivial
  | @ret w v t _ value _ ht h he =>
    rintro rfl t' hsemi next' -
    obtain ⟨u, hu, heq⟩ := exists_terminator (not_isClosed_ret ht h) he hsemi
    rw [← List.cons_append, heq]
    exact .ret ht h (.semi hu) trivial
  | noStmts =>
    rintro rfl t - next' -
    exact .noStmts
  | @moreStmts w v next s list h hl ih ihl =>
    rintro rfl t hsemi next' hnext
    by_cases hv : v = []
    · -- This statement is the last one.
      subst hv
      rw [hl.stmts_nil, List.append_nil, ← List.append_nil (withTerminator t w)]
      exact .moreStmts (ih rfl t hsemi next' hnext) .noStmts
    · rw [withTerminator_append hv]
      refine .moreStmts ?_ (ihl rfl t hsemi next' hnext)
      rwa [headType_withTerminator hv next' .endOfInput]
  | _ => trivial

end

end Scriptlet
