import Scriptlet.Proofs.Atoms

/-!
Printed programs read as themselves. Every printer function either runs out of room or gives a text
that can be cut into tokens again (`Lexer.Writes`), and these tokens derive what was printed. An
operator is printed in parentheses, so a printed expression is of the layer of calls, whatever the
operator; a printed statement has all its terminators, so it may come before anything but an `else`
that it would take.

What is derived from a printed statement is the statement with the braces that the printer adds,
`Stmt.braced`. Statements that were read need none, and so they come back unchanged.
-/

namespace Scriptlet

open Lexer Text

/-! ## Texts of single tokens -/

/-- All of these atoms can be written down. -/
abbrev Spelled (table : KeywordTable) (spell : Printer.Spelling) (atoms : List Atom) : Prop :=
  ∀ a ∈ atoms, a.Writable table spell

section
variable {table : KeywordTable} (hp : table.Proper)

theorem opens_of_isName {text : List Char} (h : IsName text) :
    ∃ c rest, text = c :: rest ∧ isBlank c = false ∧ c ≠ '=' := by
  obtain ⟨c, rest, heq, hc, -⟩ := h
  refine ⟨c, rest, heq, isBlank_of_isNameStart hc, ?_⟩
  rintro rfl
  cases hc

include hp

theorem writes_keyword {k : Keyword} {s : String} (hs : s ∈ table.spellings k) :
    Writes table s.toList fun u => ∃ t : Token, u = [t] ∧ t.type = .keyword k where
  opens := opens_of_isName (hp.isName hs)
  reads hb hcs h := reads_keyword hp hs hb hcs (h.mono fun _ hv t ht => hv [t] ⟨t, rfl, ht⟩)

theorem writes_name {spell : Printer.Spelling} {name : String}
    (h : (Atom.name name).Writable table spell) (span : Span) :
    Writes table name.toList fun u => Derives .free u (.ident ⟨name, span⟩) where
  opens := opens_of_isName h.1
  reads hb hcs hready := by
    refine reads_name hp h.1 h.2 hcs (hready.mono fun _ hv t ht htext => hv [t] ?_)
    subst htext
    exact .ident ht trivial

theorem writes_number {n : Number} {s : String}
    (hs : number none s.toList = some s.toList.length) (hn : Number.read s = .ok n) (span : Span) :
    Writes table s.toList fun u => Derives .free u (.expr .primary (.literal (.number n) span)) where
  opens := by
    obtain ⟨c, whole, rest, hwhole, htext, -⟩ := number_eq_some hs
    have hc : isDigit c = true := List.mem_takeWhile_imp (hwhole ▸ List.mem_cons_self)
    exact ⟨c, whole ++ rest, htext, isBlank_of_isDigit hc, ne_of_isDigit hc (by decide)⟩
  reads _ hcs h := by
    refine ready_number hp hs hcs (h.mono fun _ hv t ht htext => hv [t] ?_) _
    exact .number ht (htext ▸ hn) trivial

theorem writes_quoted {quote : Char} {s : String} (hq : quote = '"' ∨ quote = '\'')
    (hquote : quote ∉ s.toList) (hline : '\n' ∉ s.toList) (span : Span) :
    Writes table (quote :: (s.toList ++ [quote])) fun u =>
      Derives .free u (.expr .primary (.literal (.text s) span)) where
  opens := ⟨quote, _, rfl, by rcases hq with rfl | rfl <;> decide,
    by rcases hq with rfl | rfl <;> decide⟩
  reads _ _ h := by
    rw [List.cons_append, List.append_assoc]
    refine ready_quoted hp hq hquote hline (h.mono fun _ hv t ht htext => hv [t] ?_) _
    have hs : Parser.unquote t.text = s := by
      rw [← String.toList_inj, htext, unquote_quoted]
    exact hs ▸ .string ht trivial

end

/-! ## Texts one behind the other -/

/-- The tokens are two parts, one behind the other. -/
def Then (Q R : List Token → Prop) (u : List Token) : Prop :=
  ∃ x y, u = x ++ y ∧ Q x ∧ R y

/-- The tokens are one of a type and those behind it. -/
def Led (type : TokenType) (Q : List Token → Prop) (u : List Token) : Prop :=
  ∃ t v, u = t :: v ∧ t.type = type ∧ Q v

/-- The text may come where no word goes on. -/
structure Fills (table : KeywordTable) (text : List Char) (Q : List Token → Prop) : Prop where
  reads {before : Option Char} {cs : List Char} {P : List Token → Prop} :
    before.any isWord = false → Stops cs → Ready table cs (fun v => ∀ u, Q u → P (u ++ v)) →
      Reads table before (text ++ cs) P

/-- The text may come right behind a word. -/
structure Follows (table : KeywordTable) (text : List Char) (Q : List Token → Prop) : Prop where
  stops {cs : List Char} : Stops cs → Stops (text ++ cs)
  ready {cs : List Char} {P : List Token → Prop} :
    Stops cs → Ready table cs (fun v => ∀ u, Q u → P (u ++ v)) → Ready table (text ++ cs) P

/-- The marks that are tokens in front of anything. -/
def markType : Char → Option TokenType
  | '(' => some .parenStart
  | ')' => some .parenEnd
  | '{' => some .curlyStart
  | '}' => some .curlyEnd
  | ';' => some .semi
  | ',' => some .comma
  | _ => none

theorem of_markType {c : Char} {type : TokenType} (h : markType c = some type) :
    isNameStart c = false ∧ isWord c = false ∧ (isBlank c = false ∧ c ≠ '=') ∧
      ∀ before cs, symbolMatch before (c :: cs) = some (some type, 1) := by
  unfold markType at h
  split at h <;> cases h <;> exact ⟨by decide, by decide, ⟨by decide, by decide⟩, fun _ _ => rfl⟩

section
variable {table : KeywordTable} {a b : List Char} {P Q R : List Token → Prop} {c : Char} {type : TokenType}

theorem follows_nil (h : Q []) : Follows table [] Q where
  stops := id
  ready _ hready := hready.mono fun _ hv => hv [] h

theorem Follows.fills (h : Follows table a Q) : Fills table a Q :=
  ⟨fun _ hcs hready => h.ready hcs hready _⟩

theorem Fills.mono (h : Fills table a P) (hPQ : ∀ u, P u → Q u) : Fills table a Q where
  reads hb hcs hready := h.reads hb hcs (hready.mono fun _ hv u hu => hv u (hPQ u hu))

theorem Fills.then (ha : Fills table a Q) (hb : Follows table b R) : Fills table (a ++ b) (Then Q R) where
  reads hbefore hcs h := by
    rw [List.append_assoc]
    refine ha.reads hbefore (hb.stops hcs) (hb.ready hcs (h.mono fun v hv y hy x hx => ?_))
    rw [← List.append_assoc]
    exact hv _ ⟨x, y, rfl, hx, hy⟩

end

namespace Lexer.Writes

variable {table : KeywordTable} {a b : List Char} {Q R : List Token → Prop}

theorem fills (h : Writes table a Q) : Fills table a Q :=
  ⟨h.reads⟩

theorem «then» (ha : Writes table a Q) (hb : Follows table b R) : Writes table (a ++ b) (Then Q R) :=
  ⟨ha.opens_append _, (ha.fills.then hb).reads⟩

end Lexer.Writes

section
variable {table : KeywordTable} {a b : List Char} {Q R : List Token → Prop} {c : Char} {type : TokenType}

theorem follows_blank (hc : isBlank c && stoppers.contains c) (h : Fills table a Q) :
    Follows table (c :: a) Q where
  stops _ := stops_cons (List.contains_iff_mem.1 (Bool.and_eq_true_iff.1 hc).2)
  ready hcs hready := by
    have hblank := (Bool.and_eq_true_iff.1 hc).1
    exact ready_blank hblank (h.reads (isWord_of_isBlank hblank) hcs hready)

theorem fills_spaces (n : Nat) (h : Fills table a Q) : Fills table (List.replicate n ' ' ++ a) Q where
  reads hb hcs hready := by
    rw [List.append_assoc]
    exact reads_spaces n hb fun before hb => h.reads hb hcs hready

theorem writes_spaced (ha : Writes table a Q) (hb : Writes table b R) :
    Writes table (a ++ ' ' :: b) (Then Q R) :=
  ha.then (follows_blank rfl hb.fills)

variable (hp : table.Proper)
include hp

/-- A mark and what stands behind it. -/
theorem ready_led (hc : markType c = some type) (h : Fills table a Q) {cs : List Char}
    {P : List Token → Prop} (hcs : Stops cs)
    (hready : Ready table cs fun v => ∀ u, Led type Q u → P (u ++ v)) : Ready table (c :: a ++ cs) P := by
  obtain ⟨hstart, hword, -, hmatch⟩ := of_markType hc
  refine ready_mark hp hstart (hmatch · _) (h.reads hword hcs (hready.mono fun v hv u hu t ht => ?_))
  exact hv _ ⟨t, u, rfl, ht, hu⟩

theorem follows_mark (hc : markType c = some type) (hs : stoppers.contains c) (h : Fills table a Q) :
    Follows table (c :: a) (Led type Q) :=
  ⟨fun _ => stops_cons (List.contains_iff_mem.1 hs), ready_led hp hc h⟩

theorem writes_mark (hc : markType c = some type) (h : Fills table a Q) :
    Writes table (c :: a) (Led type Q) :=
  ⟨⟨c, a, rfl, (of_markType hc).2.2.1⟩, fun _ hcs hready => ready_led hp hc h hcs hready _⟩

/-- A mark at the end. -/
theorem writes_last (hc : markType c = some type) : Writes table [c] (Led type (· = [])) :=
  writes_mark hp hc (follows_nil (Q := (· = [])) rfl).fills

theorem follows_last (hc : markType c = some type) (hs : stoppers.contains c) :
    Follows table [c] (Led type (· = [])) :=
  follows_mark hp hc hs (follows_nil (Q := (· = [])) rfl).fills

/-- A keyword in front of a text. -/
theorem writes_led {k : Keyword} {s : String} (hs : s ∈ table.spellings k) (h : Writes table a Q) :
    Writes table (s.toList ++ ' ' :: a) (Led (.keyword k) Q) := by
  refine (writes_spaced (writes_keyword hp hs) h).mono ?_
  rintro _ ⟨_, v, rfl, ⟨t, rfl, ht⟩, hv⟩
  exact ⟨t, v, rfl, ht, hv⟩

variable {α : Type} (item : α → Phrase) (items : List α → Phrase)
  (hone : ∀ {a u}, Derives .free u (item a) → Derives .free u (items [a]))
  (hmore : ∀ {u v} {t : Token} {a rest}, Derives .free u (item a) → t.type = .comma →
    Derives .free v (items rest) → Derives .free (u ++ t :: v) (items (a :: rest)))
  {list : List α} {texts : List String}
  (h : List.Forall₂ (fun a text => Writes table text.toList (Derives .free · (item a))) list texts)
include hone hmore h

/-- Texts with commas between them. -/
theorem writes_joined (hne : list ≠ []) :
    Writes table (", ".intercalate texts).toList (Derives .free · (items list)) := by
  induction h with
  | nil => exact absurd rfl hne
  | @cons a text list texts ha hrest ih =>
    cases hrest with
    | nil =>
      rw [String.intercalate_singleton]
      exact ha.mono fun _ => hone
    | @cons b next list texts hb hrest =>
      have hlist := ih (List.cons_ne_nil _ _)
      have htext : (", ".intercalate (text :: next :: texts)).toList =
          text.toList ++ ',' :: ' ' :: (", ".intercalate (next :: texts)).toList := by
        simp [String.toList_intercalate]
      rw [htext]
      refine (ha.then (follows_mark hp rfl rfl (follows_blank rfl hlist.fills).fills)).mono ?_
      rintro _ ⟨u, _, rfl, hu, t, v, rfl, ht, hv⟩
      exact hmore hu ht hv

theorem fills_joined {all : List α → Phrase} (hnone : Derives .free [] (all []))
    (hall : ∀ {list u}, Derives .free u (items list) → Derives .free u (all list)) :
    Fills table (", ".intercalate texts).toList (Derives .free · (all list)) := by
  cases h with
  | nil => exact (follows_nil hnone).fills
  | cons ha hrest =>
    refine (Writes.mono ?_ fun _ => hall).fills
    exact writes_joined hp item items hone hmore (.cons ha hrest) (List.cons_ne_nil _ _)

end

/-! ## Printer functions -/

/-- The printer runs out of room, or gives something with a property. -/
def Prints {α : Type} (x : Printer.Print α) (Q : α → Prop) : Prop :=
  x = .error .tooDeep ∨ ∃ a, x = .ok a ∧ Q a

section
variable {α β : Type} {P Q : α → Prop} {R : β → Prop}

theorem prints_ok {a : α} (h : Q a) : Prints (.ok a) Q :=
  .inr ⟨a, rfl, h⟩

variable {x : Printer.Print α} {f : α → Printer.Print β}

theorem Prints.bind (h : Prints x Q) (hf : ∀ a, Q a → Prints (f a) R) : Prints (x >>= f) R := by
  rcases h with rfl | ⟨a, rfl, ha⟩
  · exact .inl rfl
  · exact hf a ha

theorem prints_step {a : α} (hx : x = .ok a) (h : Prints (f a) R) : Prints (x >>= f) R := by
  rw [hx]
  exact h

theorem Prints.mono (h : Prints x P) (hPQ : ∀ a, P a → Q a) : Prints x Q := by
  rcases h with h | ⟨a, h, ha⟩
  · exact .inl h
  · exact .inr ⟨a, h, hPQ a ha⟩

theorem prints_mapM {γ : Type} {S : γ → β → Prop} {toTree : γ → α} (list : List γ)
    (h : ∀ c ∈ list, Prints (f (toTree c)) (S c)) :
    Prints ((list.map toTree).mapM f) fun results => List.Forall₂ S list results := by
  induction list with
  | nil => exact prints_ok .nil
  | cons c list ih =>
    rw [List.map_cons, List.mapM_cons]
    refine (h c List.mem_cons_self).bind fun b hb => ?_
    refine (ih fun d hd => h d (List.mem_cons_of_mem _ hd)).bind fun bs hbs => ?_
    exact prints_ok (.cons hb hbs)

end

/-- A piece that can be joined with others, as its text may be written. -/
def Printer.Piece.Writes (table : KeywordTable) (Q : List Token → Prop) (piece : Printer.Piece) :
    Prop :=
  piece.isText = true ∧ Lexer.Writes table piece.shown.toList Q

theorem prints_join {table : KeywordTable} {α : Type} {one : α → List Token → Prop}
    {list : List α} {pieces : List Printer.Piece}
    (h : List.Forall₂ (fun a piece => piece.Writes table (one a)) list pieces) :
    Prints (Printer.join pieces) fun text => ∃ texts, text = ", ".intercalate texts ∧
      List.Forall₂ (fun a text => Writes table text.toList (one a)) list texts := by
  have hall : pieces.all (·.isText) = true ∧
      List.Forall₂ (fun a text => Writes table text.toList (one a)) list (pieces.map (·.shown)) := by
    induction h with
    | nil => exact ⟨rfl, .nil⟩
    | cons ha _ ih => exact ⟨by simp [ha.1, ih.1], .cons ha.2 ih.2⟩
  rw [Printer.join, hall.1]
  exact prints_ok ⟨_, rfl, hall.2⟩

/-! ## Expressions -/

variable {w : List Token} {e : Expr}

/-- What is derived on a layer of operators is derived on every weaker one. -/
theorem Derives.weaken {place : Placing} {level : Parser.Level}
    (h : Derives place w (.expr (.binary level) e)) : Derives place w (.expr .assignment e) := by
  refine .ofOr ?_
  cases level with
  | or => exact h
  | and => exact .ofOperand h
  | equality => exact .ofOperand (.ofOperand h)
  | relational => exact .ofOperand (.ofOperand (.ofOperand h))
  | additive => exact .ofOperand (.ofOperand (.ofOperand (.ofOperand h)))
  | multiplicative => exact .ofOperand (.ofOperand (.ofOperand (.ofOperand (.ofOperand h))))

/-- What is derived as a call is derived as any operand, left or right. -/
theorem Derives.operand {place : Placing} (h : Derives place w (.expr .call e)) (level : Parser.Level) :
    Derives place w (.expr (.operand level) e) ∧ Derives place w (.expr (.binary level) e) := by
  have hmul : Derives place w (.expr (.binary .multiplicative) e) := .ofOperand (.ofCall h)
  have hadd : Derives place w (.expr (.binary .additive) e) := .ofOperand hmul
  have hrel : Derives place w (.expr (.binary .relational) e) := .ofOperand hadd
  have heq : Derives place w (.expr (.binary .equality) e) := .ofOperand hrel
  have hand : Derives place w (.expr (.binary .and) e) := .ofOperand heq
  have hor : Derives place w (.expr (.binary .or) e) := .ofOperand hand
  cases level with
  | multiplicative => exact ⟨.ofCall h, hmul⟩
  | or | and | equality | relational | additive => exact ⟨by assumption, by assumption⟩

theorem Derives.assignment {place : Placing} (h : Derives place w (.expr .call e)) :
    Derives place w (.expr .assignment e) :=
  (h.operand .or).2.weaken

/-- In front of a blank, the symbol is a token of the type. -/
def IsSymbol (symbol : String) (type : TokenType) : Prop :=
  ∃ c rest, symbol.toList = c :: rest ∧ isNameStart c = false ∧ ∀ before cs,
    symbolMatch before (c :: rest ++ ' ' :: cs) = some (some type, (c :: rest).length)

theorem BinaryOp.isSymbol (op : BinaryOp) : IsSymbol op.symbol op.level.type := by
  cases op <;> exact ⟨_, _, rfl, by decide, fun _ _ => rfl⟩

theorem LogicalOp.isSymbol (op : LogicalOp) : IsSymbol op.symbol op.level.type := by
  cases op <;> exact ⟨_, _, rfl, by decide, fun _ _ => rfl⟩

theorem AssignOp.isSymbol (op : AssignOp) : IsSymbol op.symbol op.tokenType := by
  cases op <;> exact ⟨_, _, rfl, by decide, fun _ _ => rfl⟩

/-- A unary operator is a token if no equals sign follows it. -/
theorem UnaryOp.symbolMatch_eq (op : UnaryOp) : ∃ c, op.symbol.toList = [c] ∧ isNameStart c = false ∧
    isWord c = false ∧ isBlank c = false ∧ c ≠ '=' ∧ ∀ before d cs, d ≠ '=' →
      symbolMatch before (c :: d :: cs) = some (some op.tokenType, 1) := by
  have hmatch : ∀ c ∈ ['+', '-', '!'], ∀ before d cs, d ≠ '=' →
      symbolMatch before (c :: d :: cs) =
        some (some (if c = '!' then .logicalNot else .additive), 1) := by
    intro c hc before d cs hd
    simp only [List.mem_cons, List.not_mem_nil, or_false] at hc
    rcases hc with rfl | rfl | rfl <;>
      simp [symbolMatch, symbolRules, droppedRules, punctuationRules, otherRules, run, lineComment,
        blockComment, one, number, identifier, withEquals, comparison, exactly, isBlank, Ranges.has,
        blankRanges, isDigit, digitValue?, isNameStart, hd]
  cases op <;> exact ⟨_, rfl, by decide, by decide, by decide, by decide, hmatch _ (by decide)⟩

section
variable {table : KeywordTable} (hp : table.Proper)
include hp

theorem writes_condition {text : List Char} (h : Writes table text (Derives .free · (.expr .assignment e))) :
    Writes table ('(' :: (text ++ [')'])) (Derives .free · (.condition e)) := by
  refine (writes_mark hp rfl (h.fills.then (follows_last hp rfl rfl))).mono ?_
  rintro _ ⟨x, _, rfl, hx, u, _, rfl, hu, y, _, rfl, hy, rfl⟩
  exact .condition hx hu hy

/-- A printed expression in parentheses. -/
theorem writes_test {text : List Char} (h : Writes table text (Derives .free · (.expr .call e))) :
    Writes table ('(' :: (text ++ [')'])) (Derives .free · (.condition e)) :=
  writes_condition hp (h.mono fun _ hu => hu.assignment)

theorem writes_paren {text : List Char} (h : Writes table text (Derives .free · (.expr .assignment e))) :
    Writes table ('(' :: (text ++ [')'])) (Derives .free · (.expr .call e)) :=
  (writes_condition hp h).mono fun _ hu => .atom (.paren hu)

/-- An operator and what stands behind it. -/
theorem fills_symbol {symbol : String} {type : TokenType} {text : List Char} {Q : List Token → Prop}
    (hsymbol : IsSymbol symbol type) (h : Fills table text Q) :
    Fills table (symbol.toList ++ ' ' :: text) fun u =>
      ∃ t v, u = t :: v ∧ t.type = type ∧ t.text = symbol ∧ Q v where
  reads {before cs P} _ hcs hready := by
    obtain ⟨c, rest, hlist, hstart, hmatch⟩ := hsymbol
    rw [hlist, List.append_assoc]
    refine ready_symbol hp hstart (hmatch · _) ((follows_blank rfl h).ready hcs (hready.mono ?_) _) _
    intro v hv u hu t ht htext
    rw [← hlist, String.ofList_toList] at htext
    exact hv _ ⟨t, u, rfl, ht, htext, hu⟩

/-- An operator between two operands, in parentheses. -/
theorem writes_operation {left right : List Char} {symbol : String} {type : TokenType}
    {el er e : Expr}
    (hl : Writes table left fun u => Derives .free u (.expr .call el))
    (hr : Writes table right fun u => Derives .free u (.expr .call er))
    (hsymbol : IsSymbol symbol type)
    (he : ∀ u v (t : Token), t.type = type → t.text = symbol → Derives .free u (.expr .call el) →
      Derives .free v (.expr .call er) → Derives .free (u ++ t :: v) (.expr .assignment e)) :
    Writes table ('(' :: (left ++ ' ' :: (symbol.toList ++ ' ' :: right) ++ [')'])) fun u =>
      Derives .free u (.expr .call e) := by
  refine writes_paren hp ((hl.then (follows_blank rfl (fills_symbol hp hsymbol hr.fills))).mono ?_)
  rintro _ ⟨u, _, rfl, hu, t, v, rfl, ht, htext, hv⟩
  exact he u v t ht htext hu hv

omit hp in
theorem operation_toList (left right symbol : String) :
    ("(" ++ left ++ " " ++ (Tree.text symbol).display ++ " " ++ right ++ ")").toList =
      '(' :: (left.toList ++ ' ' :: (symbol.toList ++ ' ' :: right.toList) ++ [')']) := by
  simp [Tree.display, Scalar.display]

/-- A unary operator and its operand, in parentheses. -/
theorem writes_unary {operand : List Char} {e : Expr} (op : UnaryOp) (span : Span)
    (h : Writes table operand fun u => Derives .free u (.expr .call e)) :
    Writes table ('(' :: ((op.symbol.toList ++ operand) ++ [')'])) fun u =>
      Derives .free u (.expr .call (.unary op e span)) := by
  obtain ⟨c, hlist, hstart, hword, hblank, hne, hmatch⟩ := op.symbolMatch_eq
  obtain ⟨d, rest, hopens, -, hd⟩ := h.opens
  refine writes_paren hp ⟨⟨c, operand, by rw [hlist]; rfl, hblank, hne⟩, ?_⟩
  intro before cs P _ hcs hready
  have hsymbol : ∀ before, symbolMatch before ([c] ++ (operand ++ cs)) =
      some (some op.tokenType, [c].length) := by
    intro before
    rw [hopens]
    exact hmatch before d _ hd
  rw [hlist, List.append_assoc]
  refine ready_symbol hp hstart hsymbol (h.reads hword hcs (hready.mono ?_)) _
  intro v hv u hu t ht htext
  rw [← hlist, String.ofList_toList] at htext
  have hunary : Derives .free (t :: u) (.expr (.operand .multiplicative) (.unary op e span)) :=
    .unary ht htext (.ofCall hu) trivial
  exact hv _ (Derives.weaken (.ofOperand hunary))

/-- A call, with its arguments in parentheses. -/
theorem writes_call {callee args : List Char} {e : Expr} {list : List Expr} (span : Span)
    (h : Writes table callee fun u => Derives .free u (.expr .call e))
    (hargs : Fills table args (Derives .free · (.arguments list))) :
    Writes table (callee ++ '(' :: (args ++ [')'])) fun u =>
      Derives .free u (.expr .call (.call e list span)) := by
  refine (h.then (follows_mark hp rfl rfl (hargs.then (follows_last hp rfl rfl)))).mono ?_
  rintro _ ⟨u, _, rfl, hu, x, _, rfl, hx, w, _, rfl, hw, y, _, rfl, hy, rfl⟩
  exact .call hu hx hw hy trivial

variable {spell : Printer.Spelling} {room : Nat}

theorem literal_prints {value : Literal} (span : Span) (h : value.atom.Writable table spell) :
    Prints (Printer.expression spell (room + 1) (Expr.literal value span).toTree) fun s =>
      Writes table s.toList fun u => Derives .free u (.expr .call (.literal value span)) := by
  cases value with
  | number n =>
    obtain ⟨s, hs, hnumber, hread⟩ := h
    exact .inr ⟨s, hs, (writes_number hp hnumber hread span).mono fun u hu => .atom hu⟩
  | text s =>
    obtain ⟨hline, hquote⟩ := h
    rw [Expr.toTree, Literal.toTree, Span.node, Printer.expression, Printer.stringLiteral]
    refine prints_ok ?_
    split
    · rename_i hdouble
      have hsingle := hquote.resolve_left (not_not_intro hdouble)
      have htext : ("'" ++ s ++ "'").toList = '\'' :: (s.toList ++ ['\'']) := by simp
      rw [htext]
      exact (writes_quoted hp (.inr rfl) hsingle hline span).mono fun u hu => .atom hu
    · rename_i hdouble
      have htext : ("\"" ++ s ++ "\"").toList = '"' :: (s.toList ++ ['"']) := by simp
      rw [htext]
      exact (writes_quoted hp (.inl rfl) hdouble hline span).mono fun u hu => .atom hu
  | bool b =>
    refine prints_ok ((writes_keyword hp h).mono ?_)
    rintro _ ⟨t, rfl, ht⟩
    cases b with
    | true => exact .atom (.word ht rfl trivial)
    | false => exact .atom (.word ht rfl trivial)
  | null =>
    refine prints_ok ((writes_keyword hp h).mono ?_)
    rintro _ ⟨t, rfl, ht⟩
    exact .atom (.word ht rfl trivial)

/-- Arguments of a call. Names are joined as they are, other arguments by their printed text. -/
theorem arguments_prints {args : List Expr} (hargs : ∀ e ∈ args, Spelled table spell e.atoms)
    (ih : ∀ e : Expr, Spelled table spell e.atoms → Prints (Printer.expression spell room e.toTree) fun s =>
      Writes table s.toList fun u => Derives .free u (.expr .call e)) :
    Prints ((args.map Expr.toTree).mapM fun argument => do
      match argument with
      | .node .identifier _ _ [name] => return Printer.Piece.ofName name
      | other => return { shown := ← Printer.expression spell room other }) fun pieces =>
        List.Forall₂ (fun e piece => piece.Writes table (Derives .free · (.expr .assignment e)))
          args pieces := by
  refine prints_mapM args fun e he => ?_
  have hshown : Prints (Printer.expression spell room e.toTree >>= fun shown =>
      pure { shown := shown }) fun piece : Printer.Piece =>
        piece.Writes table (Derives .free · (.expr .assignment e)) :=
    (ih e (hargs e he)).bind fun s hs => prints_ok ⟨rfl, hs.mono fun u hu => hu.assignment⟩
  cases e with
  | ident id =>
    refine prints_ok ⟨rfl, (writes_name hp (hargs _ he _ List.mem_cons_self) id.span).mono fun u hu => ?_⟩
    exact (Derives.atom (.name hu)).assignment
  | literal value => cases value <;> exact hshown
  | _ => exact hshown

theorem expression_prints (room : Nat) (e : Expr) (h : Spelled table spell e.atoms) :
    Prints (Printer.expression spell room e.toTree) fun s =>
      Writes table s.toList fun u => Derives .free u (.expr .call e) := by
  induction room generalizing e with
  | zero => exact .inl rfl
  | succ room ih =>
    cases e with
    | literal value span => exact literal_prints hp span (h _ List.mem_cons_self)
    | ident id =>
      exact prints_ok ((writes_name hp (h _ List.mem_cons_self) id.span).mono fun u hu => .atom (.name hu))
    | unary op operand span =>
      change Prints (_ >>= _) _
      refine (ih operand h).bind fun s hs => prints_ok ?_
      have htext : ("(" ++ (Tree.text op.symbol).display ++ s ++ ")").toList =
          '(' :: ((op.symbol.toList ++ s.toList) ++ [')']) := by
        simp [Tree.display, Scalar.display]
      rw [htext]
      exact writes_unary hp op span hs
    | binary op left right span =>
      obtain ⟨hl, hr⟩ := List.forall_mem_append.1 h
      change Prints (_ >>= _) _
      refine (ih left hl).bind fun l hl => (ih right hr).bind fun r hr => prints_ok ?_
      rw [operation_toList]
      refine writes_operation hp hl hr op.isSymbol fun u v t ht htext hu hv => ?_
      exact Derives.weaken (.binary (hu.operand _).2 ht htext (hv.operand _).1 trivial)
    | logical op left right span =>
      obtain ⟨hl, hr⟩ := List.forall_mem_append.1 h
      change Prints (_ >>= _) _
      refine (ih left hl).bind fun l hl => (ih right hr).bind fun r hr => prints_ok ?_
      rw [operation_toList]
      refine writes_operation hp hl hr op.isSymbol fun u v t ht htext hu hv => ?_
      exact Derives.weaken (.logical (hu.operand _).2 ht htext (hv.operand _).1 trivial)
    | assign op target value span =>
      obtain ⟨hl, hr⟩ := List.forall_mem_cons.1 h
      change Prints (_ >>= _) _
      refine (ih (.ident target) (List.forall_mem_singleton.2 hl)).bind fun l hl => ?_
      refine (ih value hr).bind fun r hr => prints_ok ?_
      rw [operation_toList]
      refine writes_operation hp hl hr op.isSymbol fun u v t ht htext hu hv => ?_
      exact .assign (hu.operand _).2 ht htext hv.assignment trivial
    | call callee args span =>
      obtain ⟨hcallee, hargs⟩ := List.forall_mem_append.1 h
      rw [Expr.atomsAll_eq_flatMap, List.forall_mem_flatMap] at hargs
      rw [Expr.toTree, Span.node, Printer.expression, Expr.toTrees_eq_map]
      refine prints_step (a := args.map Expr.toTree) rfl ?_
      refine (arguments_prints hp hargs ih).bind fun pieces hpieces => (prints_join hpieces).bind ?_
      rintro _ ⟨texts, rfl, htexts⟩
      refine (ih callee hcallee).bind fun s hs => prints_ok ?_
      have htext : (s ++ "(" ++ ", ".intercalate texts ++ ")").toList =
          s.toList ++ '(' :: ((", ".intercalate texts).toList ++ [')']) := by
        simp [-String.toList_intercalate]
      rw [htext]
      exact writes_call hp span hs (fills_joined hp (.expr .assignment) .exprs .oneExpr .moreExprs htexts
        .noArguments .arguments)

end

/-! ## Statements -/

section
variable {table : KeywordTable} {spell : Printer.Spelling} (hp : table.Proper)
include hp

theorem declaration_prints (room : Nat) (d : Declaration) (h : Spelled table spell d.atoms) :
    Prints (Printer.declaration spell room d.toTree) fun piece =>
      piece.Writes table (Derives .free · (.declaration d)) := by
  obtain ⟨id, init, span⟩ := d
  obtain ⟨hname, hinit⟩ := List.forall_mem_cons.1 h
  have hid := writes_name hp hname id.span
  cases init with
  | none => exact prints_ok ⟨rfl, hid.mono fun u hu => .bare hu trivial⟩
  | some e =>
    have hprint : Printer.declaration spell room (Declaration.toTree ⟨id, some e, span⟩) =
        Printer.expression spell room e.toTree >>= fun s =>
          pure { shown := id.name ++ " = " ++ s } := by
      cases e with
      | literal value => cases value <;> rfl
      | _ => rfl
    rw [hprint]
    refine (expression_prints hp room e hinit).bind fun s hs => prints_ok ⟨rfl, ?_⟩
    have htext : (id.name ++ " = " ++ s).toList = id.name.toList ++ ' ' ::
        (AssignOp.set.symbol.toList ++ ' ' :: s.toList) := by
      simp [AssignOp.symbol]
    rw [htext]
    refine (hid.then (follows_blank rfl (fills_symbol hp AssignOp.set.isSymbol hs.fills))).mono ?_
    rintro _ ⟨u, _, rfl, hu, t, v, rfl, ht, -, hv⟩
    exact .initialized hu ht hv.assignment trivial

theorem declarations_prints (room : Nat) {list : List Declaration} (hne : list ≠ [])
    (h : Spelled table spell (Declaration.listAtoms list)) :
    Prints (Printer.declarations spell room (.list (list.map Declaration.toTree))) fun s =>
      Writes table s.toList fun u => ∀ span, Derives .free u (.variables list span) := by
  obtain ⟨hlet, hlist⟩ := List.forall_mem_cons.1 h
  rw [List.forall_mem_flatMap] at hlist
  have hpieces := prints_mapM list fun d hd => declaration_prints hp room d (hlist d hd)
  refine prints_step (a := list.map Declaration.toTree) rfl ?_
  refine hpieces.bind fun pieces hpieces => (prints_join hpieces).bind ?_
  rintro _ ⟨texts, rfl, htexts⟩
  have hjoined := writes_joined hp .declaration .declarations .oneDeclaration .moreDeclarations
    htexts hne
  have htext : (spell .kwLet ++ " " ++ ", ".intercalate texts).toList =
      (spell .kwLet).toList ++ ' ' :: (", ".intercalate texts).toList := by
    simp [-String.toList_intercalate]
  refine prints_ok ?_
  rw [htext]
  refine (writes_led hp hlet hjoined).mono ?_
  rintro _ ⟨t, w, rfl, ht, hw⟩ span
  exact .declared ht hw trivial

/-- A clause of a `for` loop, which has a blank before it if there is one. -/
theorem clause_prints (room : Nat) (e : Option Expr)
    (h : Spelled table spell (Atom.ofOption Expr.atoms e)) :
    Prints (Printer.clause spell room (.ofOption Expr.toTree e)) fun s =>
      Follows table s.toList (Derives .free · (.optional e)) := by
  cases e with
  | none => exact prints_ok (follows_nil .absent)
  | some e =>
    have hprint : Printer.clause spell room e.toTree =
        Printer.expression spell room e.toTree >>= fun s => pure (" " ++ s) := by
      cases e with
      | literal value => cases value <;> rfl
      | _ => rfl
    rw [Tree.ofOption, hprint]
    refine (expression_prints hp room e h).bind fun s hs => prints_ok ?_
    have htext : (" " ++ s).toList = ' ' :: s.toList := by simp
    rw [htext]
    exact follows_blank rfl (hs.mono fun u hu => .present hu.assignment).fills

theorem initClause_prints (room : Nat) (init : Option ForInit)
    (hne : ∀ span, init ≠ some (.variables [] span))
    (h : Spelled table spell (Atom.ofOption ForInit.atoms init)) :
    Prints (Printer.initClause spell room (.ofOption ForInit.toTree init)) fun s =>
      Fills table s.toList (Derives .free · (.forInit init)) := by
  cases init with
  | none => exact prints_ok (follows_nil .noInit).fills
  | some init =>
    cases init with
    | «variables» list span =>
      have hlist : list ≠ [] := fun heq => hne span (by rw [heq])
      refine (declarations_prints hp room hlist h).mono fun s hs => (hs.mono fun u hu => ?_).fills
      exact .initVariables (hu span)
    | expr e =>
      have hprint : Printer.initClause spell room e.toTree = Printer.expression spell room e.toTree := by
        cases e with
        | literal value => cases value <;> rfl
        | _ => rfl
      rw [Tree.ofOption, ForInit.toTree, hprint]
      refine (expression_prints hp room e h).mono fun s hs => (hs.mono fun u hu => ?_).fills
      exact .initExpr hu.assignment

end

/-- What the tokens of a printed statement derive: the statement with its braces, in front of anything
but an `else` that it would take. -/
def Stmt.Reread (s : Stmt) (u : List Token) : Prop :=
  ∀ next, (next = .keyword .kwElse → s.dangles = false) → Derives .free u (.stmt next s.braced)

/-- A printed statement: blanks up to its depth, and its text. -/
def Line (table : KeywordTable) (depth : Nat) (s : Stmt) (text : String) : Prop :=
  ∃ core, text.toList = List.replicate (4 * depth) ' ' ++ core ∧ Writes table core s.Reread

theorem toList_indent (depth : Nat) :
    (Printer.indent depth).toList = List.replicate (4 * depth) ' ' := by
  rw [Printer.indent, String.toList_ofList]

variable {s : Stmt} {depth room : Nat}

/-- Cutting off the blanks leaves the text of the statement. -/
theorem Line.trimLeft {table : KeywordTable} {text : String} (h : Line table depth s text) :
    Writes table (Printer.trimLeft text).toList s.Reread := by
  obtain ⟨core, htext, hcore⟩ := h
  obtain ⟨c, rest, rfl, hc, -⟩ := hcore.opens
  have hdrop : ∀ n, (List.replicate n ' ' ++ c :: rest).dropWhile isBlank = c :: rest := by
    intro n
    induction n with
    | zero => simp [hc]
    | succ n ih =>
      have hblank : isBlank ' ' = true := by decide
      rw [List.replicate_succ, List.cons_append, List.dropWhile_cons, if_pos hblank, ih]
  rw [Printer.trimLeft, String.toList_ofList, htext, hdrop]
  exact hcore

/-- Lines of statements in front of a text. -/
theorem fills_lines {table : KeywordTable} {list : List Stmt} {lines : List String} {tail : List Char}
    {Q : List Token → Prop} (h : List.Forall₂ (Line table depth) list lines) {next : TokenType}
    (hnext : next ≠ .keyword .kwElse) (htail : Fills table tail Q) :
    Fills table (lines.flatMap (fun line => line.toList ++ ['\n']) ++ tail)
      (Then (Derives .free · (.stmts next (list.map Stmt.braced))) Q) := by
  induction h with
  | nil => exact htail.mono fun u hu => ⟨[], u, rfl, .noStmts, hu⟩
  | @cons s line list lines hline _ ih =>
    obtain ⟨core, htext, hcore⟩ := hline
    have hfirst := (fills_spaces (4 * depth) hcore.fills).then (follows_blank (c := '\n') rfl ih)
    rw [← htext] at hfirst
    simp only [List.flatMap_cons, List.append_assoc, List.singleton_append]
    refine hfirst.mono ?_
    rintro _ ⟨u, _, rfl, hu, w, v, rfl, hw, hv⟩
    have hstmt := hu (headType w next) fun heq => absurd heq (hw.headType_ne_else hnext)
    exact ⟨u ++ w, v, (List.append_assoc ..).symm, .moreStmts hstmt hw, hv⟩

/-! The printer looks for an `if` that would take an `else` in the room that it has. -/

theorem dangles_of_printer (h : Printer.dangles room s.toTree = true) :
    s.dangles = true := by
  induction room generalizing s with
  | zero => cases h
  | succ room ih =>
    cases s with
    | ifThen => rfl
    | ifElse test consequent alternate span =>
      refine ih (s := alternate) ?_
      cases alternate <;> exact h
    | whileLoop test body span => exact ih (s := body) h
    | forLoop init test update body span => exact ih (s := body) h
    | expr | «variables» | block | empty | doLoop | function | ret => cases h

theorem dangles_succ (h : Printer.dangles room s.toTree = s.dangles) :
    Printer.dangles (room + 1) s.toTree = s.dangles := by
  induction room generalizing s with
  | zero =>
    refine Bool.eq_iff_iff.2 ⟨dangles_of_printer, fun hs => ?_⟩
    rw [hs] at h
    cases h
  | succ room ih =>
    cases s with
    | ifElse test consequent alternate span =>
      have hstep : ∀ room, Printer.dangles (room + 1)
          (Stmt.ifElse test consequent alternate span).toTree =
            Printer.dangles room alternate.toTree := by
        intro room
        cases alternate <;> rfl
      rw [hstep] at h ⊢
      exact ih h
    | whileLoop test body span => exact ih (s := body) h
    | forLoop init test update body span => exact ih (s := body) h
    | ifThen | expr | «variables» | block | empty | doLoop | function | ret => rfl

section
variable (table : KeywordTable) (spell : Printer.Spelling) (room depth : Nat)

/-- The statement is printed as what can be read again, and the room is enough to see how it ends. -/
def PrintsStmt (s : Stmt) : Prop :=
  Prints (Printer.statement spell room depth s.toTree) fun text =>
    Line table depth s text ∧ Printer.dangles room s.toTree = s.dangles

def PrintsBody (s : Stmt) : Prop :=
  Prints (Printer.body spell room depth s.toTree) fun text =>
    Writes table text.toList s.Reread ∧ Printer.dangles room s.toTree = s.dangles

def PrintsBlock (list : List Stmt) : Prop :=
  Prints (Printer.block spell room depth (.list (list.map Stmt.toTree))) fun text =>
    Writes table text.toList fun u => ∀ span, Derives .free u (.block (list.map Stmt.braced) span)

end

/-- All printers of statements print in some room what can be read again. -/
structure PrintsAt (table : KeywordTable) (spell : Printer.Spelling) (room : Nat) : Prop where
  statement (depth : Nat) {s : Stmt} (ha : Spelled table spell s.atoms) (hd : s.Declares) :
    PrintsStmt table spell room depth s
  body (depth : Nat) {s : Stmt} (ha : Spelled table spell s.atoms) (hd : s.Declares) :
    PrintsBody table spell room depth s
  block (depth : Nat) {list : List Stmt} (ha : Spelled table spell (Stmt.atomsAll list))
      (hd : Stmt.DeclaresAll list) : PrintsBlock table spell room depth list

namespace PrintsAt

section
variable {table : KeywordTable} {spell : Printer.Spelling} {room : Nat}

theorem zero : PrintsAt table spell 0 where
  statement _ _ _ _ := .inl rfl
  body _ _ _ _ := .inl rfl
  block _ _ _ _ := .inl rfl

variable (h : PrintsAt table spell room)
include h

theorem body_succ (depth : Nat) {s : Stmt}
    (ha : Spelled table spell s.atoms) (hd : s.Declares) : PrintsBody table spell (room + 1) depth s := by
  have hother : Prints (Printer.statement spell room depth s.toTree >>= fun text =>
      pure (Printer.trimLeft text)) fun text =>
        Writes table text.toList s.Reread ∧ Printer.dangles (room + 1) s.toTree = s.dangles :=
    (h.statement depth ha hd).bind fun text htext =>
      prints_ok ⟨htext.1.trimLeft, dangles_succ htext.2⟩
  cases s with
  | block list span =>
    rw [PrintsBody, Stmt.toTree, Span.node, Printer.body, Stmt.toTrees_eq_map]
    refine (h.block depth ha hd).mono fun text htext => ⟨htext.mono fun u hu next _ => ?_, rfl⟩
    rw [Stmt.braced, Stmt.bracedAll_eq_map]
    exact .blockStmt (hu span)
  | _ => exact hother

variable (hp : table.Proper)
include hp

theorem block_succ (depth : Nat) {list : List Stmt}
    (ha : Spelled table spell (Stmt.atomsAll list)) (hd : Stmt.DeclaresAll list) :
    PrintsBlock table spell (room + 1) depth list := by
  rw [Stmt.atomsAll_eq_flatMap, Spelled, List.forall_mem_flatMap] at ha
  rw [Stmt.declaresAll_iff] at hd
  rw [PrintsBlock, Printer.block]
  cases list with
  | nil =>
    refine prints_ok ((writes_mark hp (c := '{') rfl (writes_last hp (c := '}') rfl).fills).mono ?_)
    rintro _ ⟨x, _, rfl, hx, y, _, rfl, hy, rfl⟩ span
    exact .block (w := []) hx .noStmts hy trivial
  | cons s rest =>
    refine prints_step (a := (s :: rest).map Stmt.toTree) rfl ?_
    refine Prints.bind (prints_mapM (S := Line table (depth + 1)) (s :: rest) fun s hs => ?_) ?_
    · exact (h.statement (depth + 1) (ha s hs) (hd s hs)).mono fun text htext => htext.1
    intro lines hlines
    have htext : ("\x7b\n" ++ String.join (lines.map (· ++ "\n")) ++ Printer.indent depth ++
        "\x7d").toList = '{' :: '\n' :: (lines.flatMap (fun line => line.toList ++ ['\n']) ++
          (List.replicate (4 * depth) ' ' ++ ['}'])) := by
      simp [toList_indent, List.flatMap_map]
    have hend := writes_last hp (c := '}') rfl
    have hinner := fills_lines hlines (by decide : TokenType.curlyEnd ≠ _)
      (fills_spaces (4 * depth) hend.fills)
    refine prints_ok ?_
    rw [htext]
    refine (writes_mark hp rfl (follows_blank rfl hinner).fills).mono ?_
    rintro _ ⟨x, _, rfl, hx, w, _, rfl, hw, y, _, rfl, hy, rfl⟩ span
    exact .block hx hw hy trivial

variable {depth : Nat} {test : Expr} {span : Span}

theorem ifThen_succ {body : Stmt}
    (ha : Spelled table spell (Stmt.ifThen test body span).atoms) (hd : body.Declares) :
    PrintsStmt table spell (room + 1) depth (.ifThen test body span) := by
  obtain ⟨hif, ha⟩ := List.forall_mem_cons.1 ha
  obtain ⟨htest, hbody⟩ := List.forall_mem_append.1 ha
  change Prints (_ >>= _) _
  refine (expression_prints hp room test htest).bind fun shown htest => ?_
  refine (h.body depth hbody hd).bind ?_
  rintro inner ⟨hbody, -⟩
  refine prints_ok ⟨⟨_, by simp [toList_indent],
    (writes_led hp hif (writes_spaced (writes_test hp htest) hbody)).mono ?_⟩, rfl⟩
  rintro _ ⟨t, _, rfl, ht, w, v, rfl, hw, hv⟩ next hnext
  have hne : next ≠ .keyword .kwElse := fun heq => Bool.noConfusion (hnext heq)
  exact .ifThen ht hw (hv next fun heq => absurd heq hne) hne trivial

theorem whileLoop_succ {body : Stmt}
    (ha : Spelled table spell (Stmt.whileLoop test body span).atoms) (hd : body.Declares) :
    PrintsStmt table spell (room + 1) depth (.whileLoop test body span) := by
  obtain ⟨hwhile, ha⟩ := List.forall_mem_cons.1 ha
  obtain ⟨htest, hbody⟩ := List.forall_mem_append.1 ha
  change Prints (_ >>= _) _
  refine (expression_prints hp room test htest).bind fun shown htest => ?_
  refine (h.body depth hbody hd).bind ?_
  rintro inner ⟨hbody, hdangles⟩
  refine prints_ok ⟨⟨_, by simp [toList_indent],
    (writes_led hp hwhile (writes_spaced (writes_test hp htest) hbody)).mono ?_⟩, hdangles⟩
  rintro _ ⟨t, _, rfl, ht, w, v, rfl, hw, hv⟩ next hnext
  exact .whileLoop ht hw (hv next hnext) trivial

theorem doLoop_succ {body : Stmt}
    (ha : Spelled table spell (Stmt.doLoop body test span).atoms) (hd : body.Declares) :
    PrintsStmt table spell (room + 1) depth (.doLoop body test span) := by
  obtain ⟨hdo, ha⟩ := List.forall_mem_cons.1 ha
  obtain ⟨hwhile, ha⟩ := List.forall_mem_cons.1 ha
  obtain ⟨hbody, htest⟩ := List.forall_mem_append.1 ha
  change Prints (_ >>= _) _
  refine (h.body depth hbody hd).bind ?_
  rintro inner ⟨hbody, -⟩
  refine (expression_prints hp room test htest).bind fun shown htest => ?_
  have hloop := writes_spaced hbody (writes_led hp hwhile (writes_test hp htest))
  refine prints_ok ⟨⟨_, by simp [toList_indent],
    ((writes_led hp hdo hloop).then (follows_last hp (c := ';') rfl rfl)).mono ?_⟩, rfl⟩
  rintro _ ⟨_, _, rfl, ⟨t, _, rfl, ht, w, _, rfl, hw, x, v, rfl, hx, hv⟩, y, _, rfl, hy, rfl⟩ next -
  have hstmt : Derives .free (t :: (w ++ x :: (v ++ [y])))
      (.stmt next (.doLoop body.braced test span)) :=
    .doLoop ht (hw _ nofun) hx hv (.semi hy) trivial
  simpa [Stmt.braced] using hstmt

theorem ifElse_succ {consequent alternate : Stmt}
    (ha : Spelled table spell (Stmt.ifElse test consequent alternate span).atoms)
    (hd : consequent.Declares) (hd' : alternate.Declares) :
    PrintsStmt table spell (room + 1) depth (.ifElse test consequent alternate span) := by
  obtain ⟨hif, ha⟩ := List.forall_mem_cons.1 ha
  obtain ⟨helse, ha⟩ := List.forall_mem_cons.1 ha
  obtain ⟨ha, hother⟩ := List.forall_mem_append.1 ha
  obtain ⟨htest, hatoms⟩ := List.forall_mem_append.1 ha
  -- The consequent, in braces if it would take the `else`.
  have hinner : Prints (if Printer.dangles room consequent.toTree = true then
      Printer.block spell room depth (.list [consequent.toTree])
      else Printer.body spell room depth consequent.toTree) fun text =>
        Writes table text.toList fun u => Derives .free u (.stmt (.keyword .kwElse)
          (if consequent.dangles then .block [consequent.braced] consequent.span
            else consequent.braced)) := by
    split
    · rename_i hdangles
      rw [dangles_of_printer hdangles]
      have hone : Spelled table spell (Stmt.atomsAll [consequent]) := by
        rwa [Stmt.atomsAll, Stmt.atomsAll, List.append_nil]
      refine (h.block depth hone ⟨hd, trivial⟩).mono fun text htext => htext.mono fun u hu => ?_
      exact .blockStmt (hu _)
    · rename_i hdangles
      refine (h.body depth hatoms hd).mono ?_
      rintro text ⟨htext, heq⟩
      refine htext.mono fun u hu => ?_
      rw [Bool.not_eq_true] at hdangles
      rw [hdangles] at heq
      rw [← heq]
      exact hu _ fun _ => heq.symm
  have hprint : Printer.statement spell (room + 1) depth
      (Stmt.ifElse test consequent alternate span).toTree =
        Printer.expression spell room test.toTree >>= fun test =>
          (if Printer.dangles room consequent.toTree = true then
            Printer.block spell room depth (.list [consequent.toTree])
            else Printer.body spell room depth consequent.toTree) >>= fun inner =>
              Printer.body spell room depth alternate.toTree >>= fun other =>
                pure (Printer.indent depth ++ spell .kwIf ++ " (" ++ test ++ ") " ++ inner ++ " " ++
                  spell .kwElse ++ " " ++ other) := by
    change (_ >>= _) = _
    refine congrArg _ (funext fun test => ?_)
    split
    · exact absurd ‹_› alternate.toTree_ne_null
    · split <;> rfl
  rw [PrintsStmt, hprint]
  refine (expression_prints hp room test htest).bind fun shown htest => hinner.bind fun inner hinner => ?_
  refine (h.body depth hother hd').bind ?_
  rintro other ⟨hother, hdangles⟩
  have hbodies := writes_spaced hinner (writes_led hp helse hother)
  refine prints_ok ⟨⟨_, by simp [toList_indent],
    (writes_led hp hif (writes_spaced (writes_test hp htest) hbodies)).mono ?_⟩, ?_⟩
  · rintro _ ⟨t, _, rfl, ht, w, _, rfl, hw, v, _, rfl, hv, x, v', rfl, hx, hv'⟩ next hnext
    exact .ifElse ht hw hv hx (hv' next hnext) trivial
  · rw [Stmt.dangles, ← hdangles]
    cases alternate <;> rfl

theorem forLoop_succ {init : Option ForInit} {test update : Option Expr}
    {body : Stmt} (ha : Spelled table spell (Stmt.forLoop init test update body span).atoms)
    (hi : ∀ span, init ≠ some (.variables [] span)) (hd : body.Declares) :
    PrintsStmt table spell (room + 1) depth (.forLoop init test update body span) := by
  obtain ⟨hfor, ha⟩ := List.forall_mem_cons.1 ha
  obtain ⟨ha, hbody⟩ := List.forall_mem_append.1 ha
  obtain ⟨ha, hupdate⟩ := List.forall_mem_append.1 ha
  obtain ⟨hinit, htest⟩ := List.forall_mem_append.1 ha
  change Prints (_ >>= _) _
  refine (initClause_prints hp room init hi hinit).bind fun first hinit => ?_
  refine (clause_prints hp room test htest).bind fun second htest => ?_
  refine (clause_prints hp room update hupdate).bind fun third hupdate => ?_
  have hclauses := follows_mark hp (c := ';') rfl rfl (htest.fills.then (follows_mark hp (c := ';') rfl rfl
    (hupdate.fills.then (follows_last hp (c := ')') rfl rfl))))
  have hheader := writes_mark hp (c := '(') rfl (hinit.then hclauses)
  refine (h.body depth hbody hd).bind ?_
  rintro inner ⟨hbody, hdangles⟩
  refine prints_ok ⟨⟨_, by simp [toList_indent],
    (writes_led hp hfor (writes_spaced hheader hbody)).mono ?_⟩, hdangles⟩
  rintro _ ⟨t, _, rfl, ht, _, x, rfl, ⟨a, _, rfl, ha, w, _, rfl, hw, b, _, rfl, hb, v, _, rfl, hv,
    c, _, rfl, hc, v', _, rfl, hv', d, _, rfl, hd, rfl⟩, hx⟩ next hnext
  have hstmt : Derives .free (t :: a :: (w ++ b :: (v ++ c :: (v' ++ d :: x))))
      (.stmt next (.forLoop init test update body.braced span)) :=
    .forLoop ht ha hw hb hv hc hv' hd (hx next hnext) trivial
  simpa [Stmt.braced] using hstmt

theorem function_succ {name : Ident} {params : List Ident}
    {body : List Stmt} {bodySpan : Span}
    (ha : Spelled table spell (Stmt.function name params body bodySpan span).atoms)
    (hd : Stmt.DeclaresAll body) :
    PrintsStmt table spell (room + 1) depth (.function name params body bodySpan span) := by
  obtain ⟨hdef, ha⟩ := List.forall_mem_cons.1 ha
  obtain ⟨hname, ha⟩ := List.forall_mem_cons.1 ha
  obtain ⟨hparams, hbody⟩ := List.forall_mem_append.1 ha
  have hpieces : Prints ((params.map Ident.toTree).mapM fun p =>
      Printer.nameIn p >>= fun name => pure (Printer.Piece.ofName name)) fun pieces =>
        List.Forall₂ (fun p piece => piece.Writes table (Derives .free · (.ident p))) params
          pieces :=
    prints_mapM params fun p hmem =>
      prints_ok ⟨rfl, writes_name hp (hparams _ (List.mem_map_of_mem hmem)) p.span⟩
  change Prints (_ >>= _) _
  rw [Stmt.toTrees_eq_map]
  refine prints_step (a := params.map Ident.toTree) rfl ?_
  refine hpieces.bind fun pieces hpieces => (prints_join hpieces).bind ?_
  rintro _ ⟨texts, rfl, htexts⟩
  refine prints_step (a := .text name.name) rfl (prints_step (a := .list (body.map Stmt.toTree)) rfl ?_)
  have hparams := fills_joined hp .ident .idents .oneIdent .moreIdents htexts .noParameters .parameters
  generalize ", ".intercalate texts = joined at hparams
  have hhead := (writes_name hp hname name.span).then (follows_mark hp (c := '(') rfl rfl
    (hparams.then (follows_last hp (c := ')') rfl rfl)))
  refine (h.block depth hbody hd).bind fun inner hinner => prints_ok ⟨⟨_,
    by simp [toList_indent, Tree.display, Scalar.display],
    (writes_led hp hdef (writes_spaced hhead hinner)).mono ?_⟩, rfl⟩
  rintro _ ⟨t, _, rfl, ht, _, x, rfl, ⟨w, _, rfl, hw, a, _, rfl, ha, v, _, rfl, hv, b, _, rfl, hb, rfl⟩, hx⟩
    next -
  have hstmt : Derives .free (t :: (w ++ a :: (v ++ b :: x)))
      (.stmt next (.function name params (body.map Stmt.braced) bodySpan span)) :=
    .function ht hw ha hv hb (hx bodySpan) trivial
  simpa [Stmt.braced, Stmt.bracedAll_eq_map] using hstmt

omit h in
theorem ret_succ {value : Option Expr} (ha : Spelled table spell (Stmt.ret value span).atoms) :
    PrintsStmt table spell (room + 1) depth (.ret value span) := by
  obtain ⟨hreturn, hvalue⟩ := List.forall_mem_cons.1 ha
  cases value with
  | none =>
    refine prints_ok ⟨⟨_, by simp [toList_indent],
      ((writes_keyword hp hreturn).then (follows_last hp (c := ';') rfl rfl)).mono ?_⟩, rfl⟩
    rintro _ ⟨_, _, rfl, ⟨t, rfl, ht⟩, y, _, rfl, hy, rfl⟩ next -
    exact .ret ht .absent (.semi hy) trivial
  | some e =>
    have hprint : Printer.statement spell (room + 1) depth (Stmt.ret (some e) span).toTree =
        Printer.expression spell room e.toTree >>= fun shown =>
          pure (Printer.indent depth ++ spell .kwReturn ++ " " ++ shown ++ ";") := by
      cases e with
      | literal value => cases value <;> rfl
      | _ => rfl
    rw [PrintsStmt, hprint]
    refine (expression_prints hp room e hvalue).bind fun shown hvalue => prints_ok ⟨⟨_,
      by simp [toList_indent],
      ((writes_led hp hreturn hvalue).then (follows_last hp (c := ';') rfl rfl)).mono ?_⟩, by cases e <;> rfl⟩
    rintro _ ⟨_, _, rfl, ⟨t, w, rfl, ht, hw⟩, y, _, rfl, hy, rfl⟩ next -
    exact .ret ht (.present hw.assignment) (.semi hy) trivial

theorem statement_succ (depth : Nat) {s : Stmt}
    (ha : Spelled table spell s.atoms) (hd : s.Declares) : PrintsStmt table spell (room + 1) depth s := by
  cases s with
  | expr e span =>
    change Prints (_ >>= _) _
    refine (expression_prints hp room e ha).bind fun shown hs => prints_ok ⟨⟨_, by simp [toList_indent],
      (hs.then (follows_last hp (c := ';') rfl rfl)).mono ?_⟩, rfl⟩
    rintro _ ⟨w, _, rfl, hw, y, _, rfl, hy, rfl⟩ next -
    exact .exprStmt hw.assignment (.semi hy) trivial
  | «variables» list span =>
    change Prints (_ >>= _) _
    refine (declarations_prints hp room hd ha).bind fun shown hs => prints_ok ⟨⟨_, by simp [toList_indent],
      (hs.then (follows_last hp (c := ';') rfl rfl)).mono ?_⟩, rfl⟩
    rintro _ ⟨w, _, rfl, hw, y, _, rfl, hy, rfl⟩ next -
    exact .variableStmt (hw span) (.semi hy) trivial
  | block list span =>
    change Prints (_ >>= _) _
    rw [Stmt.toTrees_eq_map]
    refine (h.block depth ha hd).bind fun shown hs => prints_ok ⟨⟨_, by simp [toList_indent],
      hs.mono fun u hu next _ => ?_⟩, rfl⟩
    rw [Stmt.braced, Stmt.bracedAll_eq_map]
    exact .blockStmt (hu span)
  | empty span =>
    refine prints_ok ⟨⟨_, by simp [toList_indent], (writes_last hp (c := ';') rfl).mono ?_⟩, rfl⟩
    rintro _ ⟨t, _, rfl, ht, rfl⟩ next -
    exact .emptyStmt ht trivial
  | ifThen test body span => exact h.ifThen_succ hp ha hd
  | ifElse test consequent alternate span => exact h.ifElse_succ hp ha hd.1 hd.2
  | whileLoop test body span => exact h.whileLoop_succ hp ha hd
  | doLoop body test span => exact h.doLoop_succ hp ha hd
  | forLoop init test update body span => exact h.forLoop_succ hp ha hd.1 hd.2
  | function name params body bodySpan span => exact h.function_succ hp ha hd
  | ret value span => exact ret_succ hp ha

omit h in
theorem all (room : Nat) : PrintsAt table spell room := by
  induction room with
  | zero => exact zero
  | succ room ih => exact ⟨ih.statement_succ hp, ih.body_succ, ih.block_succ hp⟩

end

end PrintsAt

/-- Printed programs are tokens that derive the program with its braces. -/
theorem program_prints {table : KeywordTable} (hp : table.Proper) {spell : Printer.Spelling}
    {p : Program} (ha : ∀ a ∈ p.atoms, a.Writable table spell) (hd : ∀ s ∈ p.body, s.Declares) :
    Prints (p.toTree.print spell) fun t => ∃ text, t = .text text ∧ ∃ tokens c,
      Scans (rules table) (.ofSource text) tokens c ∧ c.rest = [] ∧
        Derives .free tokens (.stmts .endOfInput (p.body.map Stmt.braced)) := by
  rw [Program.atoms, Stmt.atomsAll_eq_flatMap, List.forall_mem_flatMap] at ha
  have hlines : Prints ((p.body.map Stmt.toTree).mapM (Printer.statement spell nestingLimit 0))
      fun lines => List.Forall₂ (Line table 0) p.body lines := by
    refine prints_mapM p.body fun s hs => ?_
    exact ((PrintsAt.all hp nestingLimit).statement 0 (ha s hs) (hd s hs)).mono
      fun text htext => htext.1
  have hprint : p.toTree.print spell =
      (p.body.map Stmt.toTree).mapM (Printer.statement spell nestingLimit 0) >>= fun lines =>
        .ok (.text (String.join (lines.map (· ++ "\n")))) := by
    rw [Program.toTree, Stmt.toTrees_eq_map]
    change Tree.text <$> (_ >>= fun lines => pure _) = _
    cases (p.body.map Stmt.toTree).mapM (Printer.statement spell nestingLimit 0) <;> rfl
  rw [hprint]
  refine hlines.bind fun lines hlines => prints_ok ⟨_, rfl, ?_⟩
  have hreads : Reads table none (lines.flatMap (fun line => line.toList ++ ['\n']) ++ [] ++ []) fun u =>
      Derives .free u (.stmts .endOfInput (p.body.map Stmt.braced)) := by
    refine (fills_lines hlines (by decide : TokenType.endOfInput ≠ _)
      (follows_nil (Q := (· = [])) rfl).fills).reads rfl nofun (ready_nil ?_)
    rintro _ ⟨u, _, rfl, hu, rfl⟩
    rwa [List.append_nil, List.append_nil]
  have htext : (String.join (lines.map (· ++ "\n"))).toList =
      lines.flatMap (fun line => line.toList ++ ['\n']) ++ [] ++ [] := by
    simp [List.flatMap_map]
  obtain ⟨tokens, c, hscans, hend, hderives⟩ := hreads 0
  refine ⟨tokens, c, ?_, hend, hderives⟩
  rw [Cursor.ofSource, htext]
  exact hscans

end Scriptlet
