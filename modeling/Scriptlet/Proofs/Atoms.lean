import Mathlib.Data.List.Chain
import Scriptlet.Tree.Printer
import Scriptlet.Proofs.Numerals
import Scriptlet.Proofs.ParserGrammar
import Scriptlet.Proofs.Terminators

/-!
What a program has to be like so that it can be written down and read again. Its atoms are the names,
numbers, texts and keywords that it is spelled with, and each kind of atom has a condition of its own
(`Atom.Writable`). Apart from them, lists of declarations must not be empty (`Stmt.Declares`), and an
`if` that would take the `else` of another one gets braces (`Stmt.braced`).

Programs that were read from a text are like that. A name is then the text of a token. It is no
keyword: right behind a numeral even a keyword is read as a name, but no derivation has a name there.
-/

namespace Scriptlet

/-! ## Atoms -/

/-- What programs are spelled with. -/
inductive Atom where
  | name (s : String)
  | number (n : Number)
  | text (s : String)
  | keyword (k : Keyword)

def Literal.atom : Literal → Atom
  | .number n => .number n
  | .text s => .text s
  | .bool b => .keyword (if b then .kwTrue else .kwFalse)
  | .null => .keyword .kwNull

mutual

def Expr.atoms : Expr → List Atom
  | .literal value _ => [value.atom]
  | .ident id => [.name id.name]
  | .unary _ operand _ => operand.atoms
  | .binary _ left right _ | .logical _ left right _ => left.atoms ++ right.atoms
  | .assign _ target value _ => .name target.name :: value.atoms
  | .call callee args _ => callee.atoms ++ Expr.atomsAll args

def Expr.atomsAll : List Expr → List Atom
  | [] => []
  | e :: rest => e.atoms ++ Expr.atomsAll rest

end

/-- The atoms of an optional part. -/
def Atom.ofOption {α : Type} (atoms : α → List Atom) : Option α → List Atom
  | none => []
  | some a => atoms a

def Declaration.atoms (d : Declaration) : List Atom :=
  .name d.id.name :: Atom.ofOption Expr.atoms d.init

def Declaration.listAtoms (list : List Declaration) : List Atom :=
  .keyword .kwLet :: list.flatMap Declaration.atoms

def ForInit.atoms : ForInit → List Atom
  | .variables list _ => Declaration.listAtoms list
  | .expr e => e.atoms

mutual

def Stmt.atoms : Stmt → List Atom
  | .expr e _ => e.atoms
  | .variables list _ => Declaration.listAtoms list
  | .block body _ => Stmt.atomsAll body
  | .empty _ => []
  | .ifThen test consequent _ => .keyword .kwIf :: (test.atoms ++ consequent.atoms)
  | .ifElse test consequent alternate _ =>
    .keyword .kwIf :: .keyword .kwElse :: (test.atoms ++ consequent.atoms ++ alternate.atoms)
  | .whileLoop test body _ => .keyword .kwWhile :: (test.atoms ++ body.atoms)
  | .doLoop body test _ => .keyword .kwDo :: .keyword .kwWhile :: (body.atoms ++ test.atoms)
  | .forLoop init test update body _ =>
    .keyword .kwFor :: (Atom.ofOption ForInit.atoms init ++ Atom.ofOption Expr.atoms test ++
      Atom.ofOption Expr.atoms update ++ body.atoms)
  | .function name params body _ _ =>
    .keyword .kwDef :: .name name.name :: (params.map (.name ·.name) ++ Stmt.atomsAll body)
  | .ret value _ => .keyword .kwReturn :: Atom.ofOption Expr.atoms value

def Stmt.atomsAll : List Stmt → List Atom
  | [] => []
  | s :: rest => s.atoms ++ Stmt.atomsAll rest

end

def Program.atoms (p : Program) : List Atom :=
  Stmt.atomsAll p.body

theorem Expr.atomsAll_eq_flatMap (list : List Expr) : Expr.atomsAll list = list.flatMap Expr.atoms := by
  induction list with
  | nil => rfl
  | cons e rest ih => rw [Expr.atomsAll, ih, List.flatMap_cons]

theorem Stmt.atomsAll_eq_flatMap (list : List Stmt) : Stmt.atomsAll list = list.flatMap Stmt.atoms := by
  induction list with
  | nil => rfl
  | cons s rest ih => rw [Stmt.atomsAll, ih, List.flatMap_cons]

/-- The numeral that the number is written as is one number token, and reads as the number. -/
def Number.ReadsBack (n : Number) : Prop :=
  ∃ s, Printer.numeral (.scalar (.number n)) = .ok s ∧
    Lexer.number none s.toList = some s.toList.length ∧ Number.read s = .ok n

/-- An atom can be written down and read again. -/
def Atom.Writable (table : KeywordTable) (spell : Printer.Spelling) : Atom → Prop
  | .name s => Lexer.IsName s.toList ∧ ∀ k, s ∉ table.spellings k
  | .number n => n.ReadsBack
  | .text s => '\n' ∉ s.toList ∧ ('"' ∉ s.toList ∨ '\'' ∉ s.toList)
  | .keyword k => spell k ∈ table.spellings k

instance (n : Number) : Decidable n.ReadsBack :=
  match h : Printer.numeral (.scalar (.number n)) with
  | .ok s =>
    decidable_of_iff (Lexer.number none s.toList = some s.toList.length ∧ Number.read s = .ok n)
      (by simp [Number.ReadsBack, h])
  | .error _ => .isFalse (by simp [Number.ReadsBack, h])

instance (table : KeywordTable) (spell : Printer.Spelling) : DecidablePred (Atom.Writable table spell)
  | .name _ | .text _ => inferInstanceAs (Decidable (_ ∧ _))
  | .number n => inferInstanceAs (Decidable n.ReadsBack)
  | .keyword k => inferInstanceAs (Decidable (spell k ∈ table.spellings k))

/-! ## Statements -/

/-- A statement ends in an `if` that would take an `else` behind it. -/
def Stmt.dangles : Stmt → Bool
  | .ifThen .. => true
  | .ifElse _ _ alternate _ => alternate.dangles
  | .whileLoop _ body _ | .forLoop _ _ _ body _ => body.dangles
  | _ => false

mutual

/-- Puts braces around every statement that would take the `else` behind it. -/
def Stmt.braced : Stmt → Stmt
  | .block body span => .block (Stmt.bracedAll body) span
  | .ifThen test consequent span => .ifThen test consequent.braced span
  | .ifElse test consequent alternate span =>
    .ifElse test
      (if consequent.dangles then .block [consequent.braced] consequent.span else consequent.braced)
      alternate.braced span
  | .whileLoop test body span => .whileLoop test body.braced span
  | .doLoop body test span => .doLoop body.braced test span
  | .forLoop init test update body span => .forLoop init test update body.braced span
  | .function name params body bodySpan span =>
    .function name params (Stmt.bracedAll body) bodySpan span
  | s => s

def Stmt.bracedAll : List Stmt → List Stmt
  | [] => []
  | s :: rest => s.braced :: Stmt.bracedAll rest

end

theorem Stmt.bracedAll_eq_map (list : List Stmt) : Stmt.bracedAll list = list.map Stmt.braced := by
  induction list with
  | nil => rfl
  | cons s rest ih => rw [Stmt.bracedAll, ih, List.map_cons]

mutual

/-- No list of declarations is empty. -/
def Stmt.Declares : Stmt → Prop
  | .variables list _ => list ≠ []
  | .block body _ | .function _ _ body _ _ => Stmt.DeclaresAll body
  | .ifThen _ body _ | .whileLoop _ body _ | .doLoop body _ _ => body.Declares
  | .ifElse _ consequent alternate _ => consequent.Declares ∧ alternate.Declares
  | .forLoop init _ _ body _ => (∀ span, init ≠ some (.variables [] span)) ∧ body.Declares
  | _ => True

def Stmt.DeclaresAll : List Stmt → Prop
  | [] => True
  | s :: rest => s.Declares ∧ Stmt.DeclaresAll rest

end

theorem Stmt.declaresAll_iff (list : List Stmt) :
    Stmt.DeclaresAll list ↔ ∀ s ∈ list, s.Declares := by
  induction list with
  | nil => simp [Stmt.DeclaresAll]
  | cons s rest ih => simp [Stmt.DeclaresAll, ih]

/-! ## Derived statements -/

/-- What holds of the statements of a derived phrase. -/
def Phrase.Settled : Phrase → Prop
  | .stmt next s => s.Declares ∧ s.braced = s ∧ (next = .keyword .kwElse → s.dangles = false)
  | .stmts _ list | .block list _ => ∀ s ∈ list, s.Declares ∧ s.braced = s
  | .declarations list | .variables list _ => list ≠ []
  | .forInit init => ∀ span, init ≠ some (.variables [] span)
  | _ => True

/-- No statement in a derivation would take an `else` that is not its own. -/
theorem Derives.settled {place : Placing} {w : List Token} {phrase : Phrase}
    (h : Derives place w phrase) : phrase.Settled := by
  have hall : ∀ {body : List Stmt}, (∀ s ∈ body, s.Declares ∧ s.braced = s) →
      Stmt.DeclaresAll body ∧ Stmt.bracedAll body = body := by
    intro body hbody
    rw [Stmt.declaresAll_iff, Stmt.bracedAll_eq_map]
    refine ⟨fun s hs => (hbody s hs).1, ?_⟩
    rw [List.map_congr_left (g := id) fun s hs => (hbody s hs).2, List.map_id]
  induction h with
  | oneDeclaration | moreDeclarations => exact nofun
  | declared _ _ _ ih => exact ih
  | noInit | initExpr => exact fun span => nofun
  | initVariables _ ih => exact fun span heq => ih (by cases heq; rfl)
  | variableStmt _ _ _ ih => exact ⟨ih, rfl, fun _ => rfl⟩
  | exprStmt | emptyStmt | ret => exact ⟨trivial, rfl, fun _ => rfl⟩
  | blockStmt _ ih => exact ⟨(hall ih).1, by rw [Stmt.braced, (hall ih).2], fun _ => rfl⟩
  | ifThen _ _ _ hn _ _ ihb =>
    exact ⟨ihb.1, by rw [Stmt.braced, ihb.2.1], fun heq => absurd heq hn⟩
  | ifElse _ _ _ _ _ _ _ ihb iho =>
    refine ⟨⟨ihb.1, iho.1⟩, ?_, iho.2.2⟩
    rw [Stmt.braced, ihb.2.2 rfl, ihb.2.1, iho.2.1]
    rfl
  | whileLoop _ _ _ _ _ ihb => exact ⟨ihb.1, by rw [Stmt.braced, ihb.2.1], ihb.2.2⟩
  | doLoop _ _ _ _ _ _ ihb => exact ⟨ihb.1, by rw [Stmt.braced, ihb.2.1], fun _ => rfl⟩
  | forLoop _ _ _ _ _ _ _ _ _ _ ihi _ _ ihx =>
    exact ⟨⟨ihi, ihx.1⟩, by rw [Stmt.braced, ihx.2.1], ihx.2.2⟩
  | function _ _ _ _ _ _ _ _ _ ihx =>
    exact ⟨(hall ihx).1, by rw [Stmt.braced, (hall ihx).2], fun _ => rfl⟩
  | block _ _ _ _ ih => exact ih
  | noStmts => exact fun s hs => nomatch hs
  | moreStmts _ _ ih ihl =>
    intro s hs
    rcases List.mem_cons.1 hs with rfl | hs
    · exact ⟨ih.1, ih.2.1⟩
    · exact ihl s hs
  | _ => trivial

/-! ## Atoms of derived programs -/

def Phrase.atoms : Phrase → List Atom
  | .ident id => [.name id.name]
  | .idents list | .parameters list => list.map (.name ·.name)
  | .expr _ e | .condition e => e.atoms
  | .exprs list | .arguments list => Expr.atomsAll list
  | .optional e => Atom.ofOption Expr.atoms e
  | .declaration d => d.atoms
  | .declarations list => list.flatMap Declaration.atoms
  | .variables list _ => Declaration.listAtoms list
  | .forInit init => Atom.ofOption ForInit.atoms init
  | .terminator _ => []
  | .stmt _ s => s.atoms
  | .stmts _ list | .block list _ => Stmt.atomsAll list

/-- The token that an atom comes from; keywords may have other sources. -/
def Atom.From (t : Token) : Atom → Prop
  | .name s => t.type = .identifier ∧ t.text = s
  | .number n => t.type = .number ∧ Number.read t.text = .ok n
  | .text s => t.type = .string ∧ Parser.unquote t.text = s
  | .keyword _ => False

/-- Every atom but keywords comes from one of the tokens. -/
def Found (w : List Token) (atoms : List Atom) : Prop :=
  ∀ a ∈ atoms, (∃ k, a = .keyword k) ∨ ∃ t ∈ w, a.From t

section
variable {w v : List Token} {xs ys : List Atom}

theorem Found.mono (h : Found w xs) (hsub : ∀ t ∈ w, t ∈ v := by simp +contextual) : Found v xs := by
  intro a ha
  rcases h a ha with hk | ⟨t, ht, hfrom⟩
  · exact .inl hk
  · exact .inr ⟨t, hsub t ht, hfrom⟩

theorem found_nil : Found w [] :=
  fun _ ha => nomatch ha

theorem found_one {a : Atom} {t : Token} (ht : t ∈ w) (h : a.From t) : Found w [a] := by
  intro b hb
  obtain rfl := List.mem_singleton.1 hb
  exact .inr ⟨t, ht, h⟩

theorem Found.append (hx : Found w xs) (hy : Found w ys) : Found w (xs ++ ys) := by
  intro a ha
  rcases List.mem_append.1 ha with ha | ha
  · exact hx a ha
  · exact hy a ha

theorem Found.keyword (k : Keyword) (h : Found w xs) : Found w (.keyword k :: xs) := by
  intro a ha
  rcases List.mem_cons.1 ha with rfl | ha
  · exact .inl ⟨k, rfl⟩
  · exact h a ha

end

theorem Derives.found {place : Placing} {w : List Token} {phrase : Phrase}
    (h : Derives place w phrase) : Found w phrase.atoms := by
  induction h with
  | ident ht => exact found_one (by simp) ⟨ht, rfl⟩
  | number ht hn => exact found_one (by simp) ⟨ht, hn⟩
  | string ht => exact found_one (by simp) ⟨ht, rfl⟩
  | @word t k value _ _ hk =>
    cases k <;> cases hk <;> exact Found.keyword _ found_nil
  | noParameters | noArguments | absent | noInit | semi | atEnd | emptyStmt | noStmts =>
    exact found_nil
  | oneIdent _ ih | parameters _ ih | name _ ih | paren _ ih | atom _ ih | ofCall _ ih
  | ofOperand _ ih | ofOr _ ih | arguments _ ih | present _ ih | initVariables _ ih | initExpr _ ih
  | blockStmt _ ih | bare _ _ ih => exact ih
  | oneExpr _ ih => exact ih.append found_nil
  | oneDeclaration _ ih => exact ih.append found_nil
  | unary _ _ _ _ ih | condition _ _ _ ih | block _ _ _ _ ih => exact ih.mono
  | exprStmt _ _ _ ih | variableStmt _ _ _ ih => exact ih.mono
  | declared _ _ _ ih | ret _ _ _ _ ih => exact ih.mono.keyword _
  | moreIdents _ _ _ ih ihl | binary _ _ _ _ _ ih ihl | logical _ _ _ _ _ ih ihl
  | assign _ _ _ _ _ ih ihl | moreExprs _ _ _ ih ihl | initialized _ _ _ _ ih ihl
  | moreDeclarations _ _ _ ih ihl | moreStmts _ _ ih ihl | call _ _ _ _ _ ih ihl =>
    exact ih.mono.append ihl.mono
  | ifThen _ _ _ _ _ ih ihb | whileLoop _ _ _ _ ih ihb => exact (ih.mono.append ihb.mono).keyword _
  | ifElse _ _ _ _ _ _ ih ihb iho =>
    exact (((ih.mono.append ihb.mono).append iho.mono).keyword _).keyword _
  | doLoop _ _ _ _ _ _ ihb ih => exact ((ihb.mono.append ih.mono).keyword _).keyword _
  | forLoop _ _ _ _ _ _ _ _ _ _ ihi ih ihu ihx =>
    exact (((ihi.mono.append ih.mono).append ihu.mono).append ihx.mono).keyword _
  | function _ _ _ _ _ _ _ ih ihp ihx => exact (ih.mono.append (ihp.mono.append ihx.mono)).keyword _

/-! ## Numerals and names

A derivation never has a name right behind a numeral.
-/

/-- The second token may come behind the first: no name comes right behind a numeral. -/
def Token.Apart (a b : Token) : Prop :=
  a.type = .number → b.type ≠ .identifier

section
variable {w v : List Token} {t : Token}

theorem chain_mark {type : TokenType} (ht : t.type = type) (hv : v.IsChain Token.Apart)
    (hn : type ≠ .number := by decide) : (t :: v).IsChain Token.Apart :=
  List.isChain_cons.2 ⟨fun _ _ h => absurd (ht.symm.trans h) hn, hv⟩

theorem chain_between {type : TokenType} (hw : w.IsChain Token.Apart) (ht : t.type = type)
    (hv : (t :: v).IsChain Token.Apart) (hi : type ≠ .identifier := by decide) :
    (w ++ t :: v).IsChain Token.Apart := by
  refine List.isChain_append.2 ⟨hw, hv, fun a _ b hb _ => ?_⟩
  obtain rfl : t = b := by simpa using hb
  exact ht ▸ hi

theorem chain_last {type : TokenType} (hw : w.IsChain Token.Apart) (ht : t.type = type)
    (hi : type ≠ .identifier := by decide) : (w ++ [t]).IsChain Token.Apart :=
  chain_between hw ht (List.isChain_singleton t) hi

theorem chain_append (hw : w.IsChain Token.Apart) (hv : v.IsChain Token.Apart)
    (h : ∀ a ∈ w.getLast?, ∀ b ∈ v.head?, a.Apart b) : (w ++ v).IsChain Token.Apart :=
  List.isChain_append.2 ⟨hw, hv, h⟩

end

theorem BinaryOp.level_type (op : BinaryOp) :
    op.level.type ≠ .number ∧ op.level.type ≠ .identifier := by
  cases op <;> decide

theorem LogicalOp.level_type (op : LogicalOp) :
    op.level.type ≠ .number ∧ op.level.type ≠ .identifier := by
  cases op <;> decide

theorem AssignOp.tokenType_ne (op : AssignOp) :
    op.tokenType ≠ .number ∧ op.tokenType ≠ .identifier := by
  cases op <;> decide

theorem UnaryOp.tokenType_ne (op : UnaryOp) : op.tokenType ≠ .number := by
  cases op <;> decide

theorem Derives.chain {place : Placing} {w : List Token} {phrase : Phrase}
    (h : Derives place w phrase) : w.IsChain Token.Apart := by
  have hterminator : ∀ {w v next}, Derives place v (.terminator next) → w.IsChain Token.Apart →
      (w ++ v).IsChain Token.Apart := by
    intro w v next hv hw
    cases hv with
    | semi ht => exact chain_last hw ht
    | atEnd => rwa [List.append_nil]
  have hcondition : ∀ {w v e}, Derives place w (.condition e) → w.IsChain Token.Apart →
      v.IsChain Token.Apart → (w ++ v).IsChain Token.Apart := by
    intro w v e h hw hv
    refine chain_append hw hv fun a ha b _ hn => ?_
    have hlast := (h.ends _ rfl).last ha
    rw [hn] at hlast
    exact absurd hlast (by decide)
  induction h with
  | noParameters | noArguments | absent | noInit | atEnd | noStmts => exact List.isChain_nil
  | ident | number | string | word | semi | emptyStmt => exact List.isChain_singleton _
  | oneIdent _ ih | parameters _ ih | name _ ih | paren _ ih | atom _ ih | ofCall _ ih
  | ofOperand _ ih | ofOr _ ih | oneExpr _ ih | arguments _ ih | present _ ih
  | oneDeclaration _ ih | initVariables _ ih | initExpr _ ih | bare _ _ ih | blockStmt _ ih => exact ih
  | @unary _ _ op _ _ ht _ _ _ ih => exact chain_mark ht ih op.tokenType_ne
  | declared ht _ _ ih => exact chain_mark ht ih
  | moreIdents _ ht _ ih ihl | moreExprs _ ht _ ih ihl | moreDeclarations _ ht _ ih ihl
  | initialized _ ht _ _ ih ihl => exact chain_between ih ht (chain_mark ht ihl)
  | @binary _ _ _ op _ _ _ _ ht _ _ _ ihl ihr | @logical _ _ _ op _ _ _ _ ht _ _ _ ihl ihr =>
    exact chain_between ihl ht (chain_mark ht ihr op.level_type.1) op.level_type.2
  | @assign _ _ _ op _ _ _ _ ht _ _ _ ihl ihr =>
    exact chain_between ihl ht (chain_mark ht ihr op.tokenType_ne.1) op.tokenType_ne.2
  | call _ ht _ hu _ ih iha =>
    refine chain_between ih ht (chain_mark ht ?_)
    exact chain_last iha hu
  | condition ht _ hu ih | block ht _ hu _ ih =>
    exact chain_mark ht (chain_last ih hu)
  | exprStmt _ he _ ih | variableStmt _ he _ ih => exact hterminator he ih
  | ifThen ht h _ _ _ ih ihb | whileLoop ht h _ _ ih ihb =>
    exact chain_mark ht (hcondition h ih ihb)
  | ifElse ht h _ hu _ _ ih ihb iho =>
    refine chain_mark ht (hcondition h ih ?_)
    exact chain_between ihb hu (chain_mark hu iho)
  | doLoop ht _ hu _ he _ ihb ih =>
    refine chain_mark ht (chain_between ihb hu ?_)
    exact chain_mark hu (hterminator he ih)
  | forLoop ht ha _ hb _ hc _ hd _ _ ihi ih ihu ihx =>
    have htest := chain_between ih hc (chain_mark hc (chain_between ihu hd (chain_mark hd ihx)))
    exact chain_mark ht (chain_mark ha (chain_between ihi hb (chain_mark hb htest)))
  | function ht _ ha _ hb _ _ ih ihp ihx =>
    have hparams := chain_between ihp hb (chain_mark hb ihx)
    exact chain_mark ht (chain_between ih ha (chain_mark ha hparams))
  | ret ht _ he _ ih =>
    rw [← List.cons_append]
    exact hterminator he (chain_mark ht ih)
  | @moreStmts w v next s list h _ ih ihl =>
    refine chain_append ih ihl fun a ha b hb hn => ?_
    -- In front of a name, a statement has its terminator.
    obtain ⟨rest, rfl⟩ := List.head?_eq_some_iff.1 hb
    intro hname
    have hlast := (h.ends stmtEnders (if_neg (by simp [headType, hname]))).last ha
    rw [hn] at hlast
    exact absurd hlast (by decide)

/-! ## Programs that were read -/

/-- A whole number that is not negative and not huge is written as a numeral that reads as it. -/
theorem Number.readsBack_int {n : Int} (hn : 0 ≤ n) (h : n.natAbs < 10 ^ Decimal.digitLimit) :
    Number.ReadsBack (.int n) := by
  have hhuge : isHuge n = false := by
    unfold isHuge
    generalize Decimal.digitLimit = limit at h ⊢
    exact decide_eq_false (Nat.not_le.2 h)
  have htext : intText n = Decimal.digitsOf n.natAbs := by
    rw [intText, if_neg (Int.not_lt.2 hn)]
    rfl
  have hpoint : '.' ∉ (Decimal.digitsOf n.natAbs).toList := by
    rw [Decimal.digitsOf, String.toList_ofList]
    intro hmem
    exact absurd (Decimal.isDigit_of_mem_toDigits hmem) (by decide)
  refine ⟨Decimal.digitsOf n.natAbs, ?_, Decimal.number_digitsOf _, ?_⟩
  · rw [Printer.numeral, hhuge, htext]
    rfl
  · rw [Number.read, if_neg hpoint, Decimal.readInt_digitsOf h, Int.natAbs_of_nonneg hn]
    rfl

theorem unquote_quoted {quote : Char} {body : List Char} :
    (Parser.unquote (String.ofList (quote :: (body ++ [quote])))).toList = body := by
  simp [Parser.unquote]

section
variable {table : KeywordTable} {source : String} {p : Program}

variable {c c' : Lexer.Cursor} {w : List Token} {phrase : Phrase}

/-- No name at the beginning of a program is spelled like a keyword. -/
theorem not_keyword_of_derives_append (hp : table.Proper) {v : List Token} {place : Placing}
    (hscans : Lexer.Scans (Lexer.rules table) c w c') (hbefore : c.before = none)
    (h : Derives place (w ++ v) phrase) {t : Token} (ht : t ∈ w) (htype : t.type = .identifier)
    (k : Keyword) :
    t.text ∉ table.spellings k := by
  intro hk
  obtain ⟨x, y, rfl⟩ := List.append_of_mem ht
  rcases hscans.clash hp rfl htype hk with ⟨-, hinside, -⟩ | ⟨b, hb, hnumber⟩
  · rw [hbefore] at hinside
    cases hinside
  · -- The name comes right behind a numeral.
    have hchain := h.chain
    rw [List.append_assoc] at hchain
    exact (List.isChain_append.1 hchain).2.2 b hb t (by simp) hnumber htype

/-- No name in a program is spelled like a keyword. -/
theorem not_keyword_of_derives (hp : table.Proper) {place : Placing}
    (hscans : Lexer.Scans (Lexer.rules table) c w c') (hbefore : c.before = none) (h : Derives place w phrase)
    {t : Token} (ht : t ∈ w) (htype : t.type = .identifier) (k : Keyword) : t.text ∉ table.spellings k := by
  rw [← List.append_nil w] at h
  exact not_keyword_of_derives_append hp hscans hbefore h ht htype k

/-- The atoms of a program that was read can be written down, if its decimals read back and there is a
spelling for its keywords. -/
theorem atoms_writable_of_parse {spell : Printer.Spelling} (hp : table.Proper)
    (h : parse table source = .ok p)
    (hdecimal : ∀ x, .number (.float x) ∈ p.atoms → Number.ReadsBack (.float x))
    (hspell : ∀ k, .keyword k ∈ p.atoms → spell k ∈ table.spellings k) :
    ∀ a ∈ p.atoms, a.Writable table spell := by
  obtain ⟨eof, heof, htype⟩ := exists_end_of_parse hp.ne_empty h
  obtain ⟨c, hscans, -⟩ := Lexer.scans_of_scan heof htype
  have hderives := derives_of_parse heof htype h
  intro a ha
  rcases hderives.found a ha with ⟨k, rfl⟩ | ⟨t, ht, hfrom⟩
  · exact hspell k ha
  have hshape := hscans.shape t ht
  cases a with
  | keyword k => exact hspell k ha
  | name s =>
    obtain ⟨hident, rfl⟩ := hfrom
    have hword := not_keyword_of_derives hp hscans rfl hderives ht hident
    rw [hident] at hshape
    exact ⟨hshape, hword⟩
  | number n =>
    obtain ⟨hnumber, hread⟩ := hfrom
    rw [← String.ofList_toList (s := t.text)] at hread
    rcases Decimal.number_of_isNumeral (hscans.isNumeral t ht hnumber) hread with
      ⟨k, rfl, hk⟩ | ⟨digits, e, rfl⟩
    · exact Number.readsBack_int (Int.natCast_nonneg k) hk
    · exact hdecimal _ ha
  | text s =>
    obtain ⟨hstring, rfl⟩ := hfrom
    rw [hstring] at hshape
    obtain ⟨quote, body, hq, htext, hquote, hline⟩ := hshape
    have hbody : (Parser.unquote t.text).toList = body := by
      rw [← String.ofList_toList (s := t.text), htext, unquote_quoted]
    rw [Atom.Writable, hbody]
    rcases hq with rfl | rfl
    · exact ⟨hline, .inl hquote⟩
    · exact ⟨hline, .inr hquote⟩

/-- The statements of a program that was read declare something wherever they declare, and take no
`else` that is not their own. -/
theorem settled_of_parse (hp : table.Proper) (h : parse table source = .ok p) :
    ∀ s ∈ p.body, s.Declares ∧ s.braced = s := by
  obtain ⟨eof, heof, htype⟩ := exists_end_of_parse hp.ne_empty h
  exact (derives_of_parse heof htype h).settled

end

end Scriptlet
