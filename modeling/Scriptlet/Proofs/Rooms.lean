import Scriptlet.Proofs.ParserSteps
import Scriptlet.Proofs.Relocation

/-!
Derivations in a room. `Fits place room w phrase` says that the tokens `w` derive the phrase and that the
descent parser has room enough for this: its rules give up when they call each other too often, and every
rule here counts the calls that the parser makes for it. Otherwise the rules are those of `Derives`.

More room does no harm, and every derivation fits in some room. Tokens can be moved to other places, with the
phrase that they derive; in particular to one and the same place, where every node is placed tightly.
-/

namespace Scriptlet

open Scriptlet.Parser (Level)

/-- The tokens can be read as the phrase in the given room. Expressions of the binary layers count the room of
the ladder for their layer, and those of the unary layer that of the empty ladder. -/
inductive Fits (place : Placing) : Nat → List Token → Phrase → Prop
  | ident {room t span} (ht : t.type = .identifier) (hs : place t.start [t] span) :
      Fits place room [t] (.ident ⟨t.text, span⟩)
  | oneIdent {room w id} (h : Fits place room w (.ident id)) : Fits place room w (.idents [id])
  | moreIdents {room w v t id list} (h : Fits place room w (.ident id)) (ht : t.type = .comma)
      (hl : Fits place room v (.idents list)) : Fits place room (w ++ t :: v) (.idents (id :: list))
  | noParameters {room} : Fits place room [] (.parameters [])
  | parameters {room w list} (h : Fits place room w (.idents list)) :
      Fits place room w (.parameters list)
  -- Expressions, the tightest layer first.
  | name {room w id} (h : Fits place room w (.ident id)) :
      Fits place (room + 1) w (.expr .primary (.ident id))
  | number {room t n span} (ht : t.type = .number) (hn : Number.read t.text = .ok n)
      (hs : place t.start [t] span) :
      Fits place (room + 1) [t] (.expr .primary (.literal (.number n) span))
  | string {room t span} (ht : t.type = .string) (hs : place t.start [t] span) :
      Fits place (room + 1) [t] (.expr .primary (.literal (.text (Parser.unquote t.text)) span))
  | word {room t k value span} (ht : t.type = .keyword k) (hk : k.literal? = some value)
      (hs : place t.start [t] span) : Fits place (room + 1) [t] (.expr .primary (.literal value span))
  | paren {room w e} (h : Fits place room w (.condition e)) :
      Fits place (room + 1) w (.expr .primary e)
  | atom {room w e} (h : Fits place room w (.expr .primary e)) : Fits place room w (.expr .call e)
  | call {room w v t u callee args span} (h : Fits place (room + 1) w (.expr .call callee))
      (ht : t.type = .parenStart) (ha : Fits place room v (.arguments args)) (hu : u.type = .parenEnd)
      (hs : place callee.span.start (w ++ t :: (v ++ [u])) span) :
      Fits place (room + 1) (w ++ t :: (v ++ [u])) (.expr .call (.call callee args span))
  | ofCall {room w e} (h : Fits place room w (.expr .call e)) :
      Fits place (room + 2) w (.expr .unary e)
  | unary {room w t op e span} (ht : t.type = op.tokenType) (hx : t.text = op.symbol)
      (h : Fits place (room + 1) w (.expr .unary e)) (hs : place t.start (t :: w) span) :
      Fits place (room + 2) (t :: w) (.expr .unary (.unary op e span))
  | ofOperand {room w level e} (h : Fits place room w (.expr (.operand level) e)) :
      Fits place (room + 1) w (.expr (.binary level) e)
  | binary {room w v t op left right span}
      (hl : Fits place (room + 1) w (.expr (.binary op.level) left)) (ht : t.type = op.level.type)
      (hx : t.text = op.symbol) (hr : Fits place room v (.expr (.operand op.level) right))
      (hs : place left.span.start (w ++ t :: v) span) :
      Fits place (room + 1) (w ++ t :: v) (.expr (.binary op.level) (.binary op left right span))
  | logical {room w v t op left right span}
      (hl : Fits place (room + 1) w (.expr (.binary op.level) left)) (ht : t.type = op.level.type)
      (hx : t.text = op.symbol) (hr : Fits place room v (.expr (.operand op.level) right))
      (hs : place left.span.start (w ++ t :: v) span) :
      Fits place (room + 1) (w ++ t :: v) (.expr (.binary op.level) (.logical op left right span))
  | ofOr {room w e} (h : Fits place room w (.expr (.binary .or) e)) :
      Fits place (room + 1) w (.expr .assignment e)
  | assign {room w v t op target value span} (hl : Fits place room w (.expr (.binary .or) (.ident target)))
      (ht : t.type = op.tokenType) (hx : t.text = op.symbol)
      (hr : Fits place room v (.expr .assignment value)) (hs : place target.span.start (w ++ t :: v) span) :
      Fits place (room + 1) (w ++ t :: v) (.expr .assignment (.assign op target value span))
  | oneExpr {room w e} (h : Fits place room w (.expr .assignment e)) : Fits place room w (.exprs [e])
  | moreExprs {room w v t e list} (h : Fits place room w (.expr .assignment e)) (ht : t.type = .comma)
      (hl : Fits place room v (.exprs list)) : Fits place room (w ++ t :: v) (.exprs (e :: list))
  | noArguments {room} : Fits place room [] (.arguments [])
  | arguments {room w list} (h : Fits place room w (.exprs list)) : Fits place room w (.arguments list)
  | condition {room w t u e} (ht : t.type = .parenStart) (h : Fits place room w (.expr .assignment e))
      (hu : u.type = .parenEnd) : Fits place room (t :: (w ++ [u])) (.condition e)
  | absent {room} : Fits place room [] (.optional none)
  | present {room w e} (h : Fits place room w (.expr .assignment e)) :
      Fits place room w (.optional (some e))
  -- Declarations.
  | bare {room w id span} (h : Fits place room w (.ident id)) (hs : place id.span.start w span) :
      Fits place room w (.declaration ⟨id, none, span⟩)
  | initialized {room w v t id e span} (h : Fits place room w (.ident id))
      (ht : t.type = .simpleAssignment) (he : Fits place room v (.expr .assignment e))
      (hs : place id.span.start (w ++ t :: v) span) :
      Fits place room (w ++ t :: v) (.declaration ⟨id, some e, span⟩)
  | oneDeclaration {room w d} (h : Fits place room w (.declaration d)) :
      Fits place room w (.declarations [d])
  | moreDeclarations {room w v t d list} (h : Fits place room w (.declaration d)) (ht : t.type = .comma)
      (hl : Fits place room v (.declarations list)) :
      Fits place room (w ++ t :: v) (.declarations (d :: list))
  | declared {room w t list span} (ht : t.type = .keyword .kwLet)
      (h : Fits place room w (.declarations list)) (hs : place t.start (t :: w) span) :
      Fits place room (t :: w) (.variables list span)
  | noInit {room} : Fits place room [] (.forInit none)
  | initVariables {room w list span} (h : Fits place room w (.variables list span)) :
      Fits place room w (.forInit (some (.variables list span)))
  | initExpr {room w e} (h : Fits place room w (.expr .assignment e)) :
      Fits place room w (.forInit (some (.expr e)))
  -- Statements.
  | semi {room t next} (ht : t.type = .semi) : Fits place room [t] (.terminator next)
  | atEnd {room} : Fits place room [] (.terminator .endOfInput)
  | exprStmt {room w v next e span} (h : Fits place room w (.expr .assignment e))
      (he : Fits place room v (.terminator next)) (hs : place (startOf w) (w ++ v) span) :
      Fits place (room + 1) (w ++ v) (.stmt next (.expr e span))
  | variableStmt {room w v next list inner span} (h : Fits place room w (.variables list inner))
      (he : Fits place room v (.terminator next)) (hs : place (startOf w) (w ++ v) span) :
      Fits place (room + 1) (w ++ v) (.stmt next (.variables list span))
  | blockStmt {room w next body span} (h : Fits place room w (.block body span)) :
      Fits place (room + 1) w (.stmt next (.block body span))
  | emptyStmt {room t next span} (ht : t.type = .semi) (hs : place t.start [t] span) :
      Fits place (room + 1) [t] (.stmt next (.empty span))
  | ifThen {room w v t next test body span} (ht : t.type = .keyword .kwIf)
      (h : Fits place room w (.condition test)) (hb : Fits place room v (.stmt next body))
      (hn : next ≠ .keyword .kwElse) (hs : place t.start (t :: (w ++ v)) span) :
      Fits place (room + 1) (t :: (w ++ v)) (.stmt next (.ifThen test body span))
  | ifElse {room w v v' t u next test body other span} (ht : t.type = .keyword .kwIf)
      (h : Fits place room w (.condition test)) (hb : Fits place room v (.stmt (.keyword .kwElse) body))
      (hu : u.type = .keyword .kwElse) (ho : Fits place room v' (.stmt next other))
      (hs : place t.start (t :: (w ++ (v ++ u :: v'))) span) :
      Fits place (room + 1) (t :: (w ++ (v ++ u :: v'))) (.stmt next (.ifElse test body other span))
  | whileLoop {room w v t next test body span} (ht : t.type = .keyword .kwWhile)
      (h : Fits place room w (.condition test)) (hb : Fits place room v (.stmt next body))
      (hs : place t.start (t :: (w ++ v)) span) :
      Fits place (room + 1) (t :: (w ++ v)) (.stmt next (.whileLoop test body span))
  | doLoop {room w v v' t u next test body span} (ht : t.type = .keyword .kwDo)
      (hb : Fits place room w (.stmt (.keyword .kwWhile) body)) (hu : u.type = .keyword .kwWhile)
      (h : Fits place room v (.condition test)) (he : Fits place room v' (.terminator next))
      (hs : place t.start (t :: (w ++ u :: (v ++ v'))) span) :
      Fits place (room + 1) (t :: (w ++ u :: (v ++ v'))) (.stmt next (.doLoop body test span))
  | forLoop {room w v v' x t a b c d next init test update body span} (ht : t.type = .keyword .kwFor)
      (ha : a.type = .parenStart) (hi : Fits place room w (.forInit init)) (hb : b.type = .semi)
      (h : Fits place room v (.optional test)) (hc : c.type = .semi)
      (hu : Fits place room v' (.optional update)) (hd : d.type = .parenEnd)
      (hx : Fits place room x (.stmt next body))
      (hs : place t.start (t :: a :: (w ++ b :: (v ++ c :: (v' ++ d :: x)))) span) :
      Fits place (room + 1) (t :: a :: (w ++ b :: (v ++ c :: (v' ++ d :: x))))
        (.stmt next (.forLoop init test update body span))
  | function {room w v x t a b next name params body inner span} (ht : t.type = .keyword .kwDef)
      (h : Fits place room w (.ident name)) (ha : a.type = .parenStart)
      (hp : Fits place room v (.parameters params)) (hb : b.type = .parenEnd)
      (hx : Fits place room x (.block body inner))
      (hs : place t.start (t :: (w ++ a :: (v ++ b :: x))) span) :
      Fits place (room + 1) (t :: (w ++ a :: (v ++ b :: x)))
        (.stmt next (.function name params body inner span))
  | ret {room w v t next value span} (ht : t.type = .keyword .kwReturn)
      (h : Fits place room w (.optional value)) (he : Fits place room v (.terminator next))
      (hs : place t.start (t :: (w ++ v)) span) :
      Fits place (room + 1) (t :: (w ++ v)) (.stmt next (.ret value span))
  | block {room w t u body span} (ht : t.type = .curlyStart)
      (h : Fits place room w (.stmts .curlyEnd body)) (hu : u.type = .curlyEnd)
      (hs : place t.start (t :: (w ++ [u])) span) :
      Fits place (room + 1) (t :: (w ++ [u])) (.block body span)
  | noStmts {room next} : Fits place room [] (.stmts next [])
  | moreStmts {room w v next s list} (h : Fits place room w (.stmt (headType v next) s))
      (hl : Fits place room v (.stmts next list)) :
      Fits place room (w ++ v) (.stmts next (s :: list))


namespace Fits

variable {place place' : Placing} {room room' : Nat} {w v : List Token} {phrase phrase' : Phrase}

/-- Every rule is a rule of `Derives`, with the same premises. -/
theorem derives (h : Fits place room w phrase) : Derives place w phrase := by
  induction h with
  | call _ ht _ hu hs ih iha => exact .call ih ht iha hu hs
  | unary ht hx _ hs ih => exact .unary ht hx ih hs
  | binary _ ht hx _ hs ihl ihr => exact .binary ihl ht hx ihr hs
  | logical _ ht hx _ hs ihl ihr => exact .logical ihl ht hx ihr hs
  | assign _ ht hx _ hs ihl ihr => exact .assign ihl ht hx ihr hs
  | _ => constructor <;> assumption

/-! ## More room -/

/-- A rule can be applied in more room if it can be applied to its premises in more room. -/
theorem succ (h : Fits place room w phrase) : Fits place (room + 1) w phrase := by
  induction h with
  | call _ ht _ hu hs ih iha => exact .call ih ht iha hu hs
  | unary ht hx _ hs ih => exact .unary ht hx ih hs
  | binary _ ht hx _ hs ihl ihr => exact .binary ihl ht hx ihr hs
  | logical _ ht hx _ hs ihl ihr => exact .logical ihl ht hx ihr hs
  | assign _ ht hx _ hs ihl ihr => exact .assign ihl ht hx ihr hs
  | _ => constructor <;> assumption

theorem mono (h : Fits place room w phrase) (hle : room ≤ room') : Fits place room' w phrase := by
  induction hle with
  | refl => exact h
  | step _ ih => exact ih.succ

end Fits

section
variable {place : Placing} {w v x y : List Token} {phrase phrase₁ phrase₂ phrase₃ : Phrase}

/-- What fits in some room. -/
def Fitting (place : Placing) (w : List Token) (phrase : Phrase) : Prop :=
  ∃ room, Fits place room w phrase

theorem Fitting.both (h : Fitting place w phrase) (h₁ : Fitting place v phrase₁) :
    ∃ room, Fits place room w phrase ∧ Fits place room v phrase₁ := by
  obtain ⟨r, h⟩ := h
  obtain ⟨r₁, h₁⟩ := h₁
  exact ⟨max r r₁, h.mono (Nat.le_max_left ..), h₁.mono (Nat.le_max_right ..)⟩

theorem Fitting.three (h : Fitting place w phrase) (h₁ : Fitting place v phrase₁)
    (h₂ : Fitting place x phrase₂) :
    ∃ room, Fits place room w phrase ∧ Fits place room v phrase₁ ∧ Fits place room x phrase₂ := by
  obtain ⟨r, h, h₁⟩ := h.both h₁
  obtain ⟨r₂, h₂⟩ := h₂
  exact ⟨max r r₂, h.mono (Nat.le_max_left ..), h₁.mono (Nat.le_max_left ..),
    h₂.mono (Nat.le_max_right ..)⟩

theorem Derives.fitting (h : Derives place w phrase) : Fitting place w phrase := by
  induction h with
  | ident | noParameters | noArguments | absent | noInit | semi | atEnd | noStmts =>
    exact ⟨0, by constructor <;> assumption⟩
  | number | string | word | emptyStmt => exact ⟨1, by constructor <;> assumption⟩
  | oneIdent _ ih | parameters _ ih | atom _ ih | oneExpr _ ih | arguments _ ih | condition _ _ _ ih
  | present _ ih | bare _ _ ih | oneDeclaration _ ih | declared _ _ _ ih | initVariables _ ih
  | initExpr _ ih =>
    exact ih.imp fun _ _ => by constructor <;> assumption
  | name _ ih | paren _ ih | ofOperand _ ih | ofOr _ ih | blockStmt _ ih | block _ _ _ _ ih =>
    obtain ⟨room, h⟩ := ih
    exact ⟨room + 1, by constructor <;> assumption⟩
  | ofCall _ ih =>
    obtain ⟨room, h⟩ := ih
    exact ⟨room + 2, .ofCall h⟩
  | unary ht hx _ hs ih =>
    obtain ⟨room, h⟩ := ih
    exact ⟨room + 2, .unary ht hx h.succ hs⟩
  | call _ ht _ hu hs ih iha =>
    obtain ⟨room, h, ha⟩ := ih.both iha
    exact ⟨room + 1, .call h.succ ht ha hu hs⟩
  | binary _ ht hx _ hs ihl ihr =>
    obtain ⟨room, hl, hr⟩ := ihl.both ihr
    exact ⟨room + 1, .binary hl.succ ht hx hr hs⟩
  | logical _ ht hx _ hs ihl ihr =>
    obtain ⟨room, hl, hr⟩ := ihl.both ihr
    exact ⟨room + 1, .logical hl.succ ht hx hr hs⟩
  | assign _ ht hx _ hs ihl ihr =>
    obtain ⟨room, hl, hr⟩ := ihl.both ihr
    exact ⟨room + 1, .assign hl ht hx hr hs⟩
  | moreIdents _ _ _ ih ih' | moreExprs _ _ _ ih ih' | initialized _ _ _ _ ih ih'
  | moreDeclarations _ _ _ ih ih' | moreStmts _ _ ih ih' =>
    obtain ⟨room, h, h'⟩ := ih.both ih'
    exact ⟨room, by constructor <;> assumption⟩
  | exprStmt _ _ _ ih ih' | variableStmt _ _ _ ih ih' | ifThen _ _ _ _ _ ih ih' | whileLoop _ _ _ _ ih ih'
  | ret _ _ _ _ ih ih' =>
    obtain ⟨room, h, h'⟩ := ih.both ih'
    exact ⟨room + 1, by constructor <;> assumption⟩
  | ifElse ht _ _ hu _ hs ih ihb iho =>
    obtain ⟨room, h, hb, ho⟩ := ih.three ihb iho
    exact ⟨room + 1, .ifElse ht h hb hu ho hs⟩
  | doLoop ht _ hu _ _ hs ihb ih ihe =>
    obtain ⟨room, hb, h, he⟩ := ihb.three ih ihe
    exact ⟨room + 1, .doLoop ht hb hu h he hs⟩
  | function ht _ ha _ hb _ hs ih ihp ihx =>
    obtain ⟨room, h, hp, hx⟩ := ih.three ihp ihx
    exact ⟨room + 1, .function ht h ha hp hb hx hs⟩
  | forLoop ht ha _ hb _ hc _ hd _ hs ihi ih ihu ihx =>
    obtain ⟨room, hi, h, hu⟩ := ihi.three ih ihu
    obtain ⟨room', hx⟩ := ihx
    have hle : room ≤ max room room' := Nat.le_max_left ..
    exact ⟨max room room' + 1, .forLoop ht ha (hi.mono hle) hb (h.mono hle) hc (hu.mono hle) hd
      (hx.mono (Nat.le_max_right ..)) hs⟩

end

/-! ## Other places -/

/-- Tokens are moved by `move` and places by `shift`, so that nodes are placed as they should be. -/
structure Moving (place place' : Placing) (move : Token → Token) (shift : Nat → Nat) : Prop where
  type {t : Token} {type : TokenType} : t.type = type → (move t).type = type
  text {t : Token} {text : String} : t.text = text → (move t).text = text
  opened {t : Token} {w w' : List Token} {span : Span} : place t.start (t :: w) span → w' = w.map move →
    place' (move t).start (move t :: w') (span.relocate shift)
  led {start start' : Nat} {w w' : List Token} {span : Span} : place start w span → w ≠ [] →
    start' = shift start → w' = w.map move → place' start' w' (span.relocate shift)

section
variable {place place' : Placing} {move : Token → Token} {shift : Nat → Nat} {room : Nat}
  {w w' : List Token} {phrase : Phrase}

theorem Fits.of_eq (h : Fits place room w phrase) (hw : w' = w) : Fits place room w' phrase :=
  hw ▸ h

theorem Fits.relocate (hm : Moving place place' move shift) (h : Fits place room w phrase) :
    Fits place' room (w.map move) (phrase.relocate shift) := by
  induction h with
  | noParameters | noArguments | absent | noInit | atEnd | noStmts => constructor
  | oneIdent _ ih | parameters _ ih | name _ ih | paren _ ih | atom _ ih | ofCall _ ih | ofOperand _ ih
  | ofOr _ ih | oneExpr _ ih | arguments _ ih | present _ ih | oneDeclaration _ ih | initVariables _ ih
  | initExpr _ ih | blockStmt _ ih =>
    constructor
    exact ih
  | @ident room t _ ht hs =>
    have hid := @Fits.ident _ room _ _ (hm.type ht) (hm.opened hs rfl)
    rwa [hm.text rfl] at hid
  | moreIdents _ ht _ ih ihl => exact (Fits.moreIdents ih (hm.type ht) ihl).of_eq (by simp)
  | number ht hn hs =>
    exact .number (hm.type ht) ((congrArg Number.read (hm.text rfl)).trans hn) (hm.opened hs rfl)
  | @string room t _ ht hs =>
    have htext := @Fits.string _ room _ _ (hm.type ht) (hm.opened hs rfl)
    rwa [hm.text rfl] at htext
  | word ht hk hs => exact .word (hm.type ht) hk (hm.opened hs rfl)
  | @call _ _ _ _ _ callee _ _ _ ht _ hu hs ih iha =>
    exact (Fits.call ih (hm.type ht) iha (hm.type hu)
      (hm.led hs (by simp) (congrArg Span.start callee.span_relocate) (by simp))).of_eq (by simp)
  | unary ht hx _ hs ih => exact .unary (hm.type ht) (hm.text hx) ih (hm.opened hs rfl)
  | @binary _ _ _ _ _ left _ _ _ ht hx _ hs ihl ihr =>
    exact (Fits.binary ihl (hm.type ht) (hm.text hx) ihr
      (hm.led hs (by simp) (congrArg Span.start left.span_relocate) (by simp))).of_eq (by simp)
  | @logical _ _ _ _ _ left _ _ _ ht hx _ hs ihl ihr =>
    exact (Fits.logical ihl (hm.type ht) (hm.text hx) ihr
      (hm.led hs (by simp) (congrArg Span.start left.span_relocate) (by simp))).of_eq (by simp)
  | assign _ ht hx _ hs ihl ihr =>
    exact (Fits.assign ihl (hm.type ht) (hm.text hx) ihr
      (hm.led hs (by simp) rfl (by simp))).of_eq (by simp)
  | moreExprs _ ht _ ih ihl => exact (Fits.moreExprs ih (hm.type ht) ihl).of_eq (by simp)
  | condition ht _ hu ih => exact (Fits.condition (hm.type ht) ih (hm.type hu)).of_eq (by simp)
  | bare h hs ih => exact .bare ih (hm.led hs (h.derives.opens _ rfl).ne_nil rfl rfl)
  | initialized _ ht _ hs ih ihe =>
    exact (Fits.initialized ih (hm.type ht) ihe
      (hm.led hs (by simp) rfl (by simp))).of_eq (by simp)
  | moreDeclarations _ ht _ ih ihl =>
    exact (Fits.moreDeclarations ih (hm.type ht) ihl).of_eq (by simp)
  | declared ht _ hs ih => exact .declared (hm.type ht) ih (hm.opened hs rfl)
  | semi ht => exact .semi (hm.type ht)
  | exprStmt h _ hs ih ihe =>
    obtain ⟨t, u, rfl, -⟩ := h.derives.expr_opens
    exact (Fits.exprStmt ih ihe (hm.opened hs (by simp))).of_eq (by simp)
  | variableStmt h _ hs ih ihe =>
    obtain ⟨t, u, rfl, -⟩ := h.derives.opens _ rfl
    exact (Fits.variableStmt ih ihe (hm.opened hs (by simp))).of_eq (by simp)
  | emptyStmt ht hs => exact .emptyStmt (hm.type ht) (hm.opened hs rfl)
  | ifThen ht _ _ hn hs ih ihb =>
    exact (Fits.ifThen (hm.type ht) ih ihb hn (hm.opened hs (by simp))).of_eq (by simp)
  | ifElse ht _ hb hu _ hs ih ihb iho =>
    exact (Fits.ifElse (hm.type ht) ih ihb (hm.type hu) iho
      (hm.opened hs (by simp))).of_eq (by simp)
  | whileLoop ht _ _ hs ih ihb =>
    exact (Fits.whileLoop (hm.type ht) ih ihb (hm.opened hs (by simp))).of_eq (by simp)
  | doLoop ht _ hu _ _ hs ihb ih ihe =>
    exact (Fits.doLoop (hm.type ht) ihb (hm.type hu) ih ihe
      (hm.opened hs (by simp))).of_eq (by simp)
  | forLoop ht ha _ hb _ hc _ hd _ hs ihi ih ihu ihx =>
    exact (Fits.forLoop (hm.type ht) (hm.type ha) ihi (hm.type hb) ih
      (hm.type hc) ihu (hm.type hd) ihx (hm.opened hs (by simp))).of_eq (by simp)
  | function ht _ ha _ hb _ hs ih ihp ihx =>
    exact (Fits.function (hm.type ht) ih (hm.type ha) ihp (hm.type hb) ihx
      (hm.opened hs (by simp))).of_eq (by simp)
  | ret ht _ _ hs ih ihe =>
    exact (Fits.ret (hm.type ht) ih ihe (hm.opened hs (by simp))).of_eq (by simp)
  | block ht _ hu hs ih =>
    exact (Fits.block (hm.type ht) ih (hm.type hu)
      (hm.opened hs (by simp))).of_eq (by simp)
  | @moreStmts _ _ v next _ _ _ _ ih ihl =>
    have hnext : headType (v.map move) next = headType v next := by
      cases v with
      | nil => rfl
      | cons t v => exact hm.type rfl
    rw [Phrase.relocate, ← hnext] at ih
    exact (Fits.moreStmts ih ihl).of_eq (by simp)

end

/-- Tokens moved to other places keep their nodes over them. -/
theorem Moving.tight (shift : Nat → Nat) : Moving .tight .tight (Token.relocate shift) shift where
  type := id
  text := id
  opened := by
    rintro t w _ _ rfl rfl
    exact congrArg (Span.mk (shift t.start)) (endOf_map_relocate t.stop w).symm
  led := by
    rintro start _ w _ _ rfl hw rfl rfl
    refine congrArg (Span.mk (shift start)) ((endOf_map_relocate 0 w).symm.trans ?_)
    exact Parser.endOf_of_ne_nil (by simpa using hw) _ _

/-- At the beginning everything is placed tightly. -/
theorem Moving.zero (place : Placing) : Moving place .tight (Token.relocate fun _ => 0) fun _ => 0 where
  type := id
  text := id
  opened := by
    rintro t w _ span - rfl
    exact congrArg (Span.mk 0) (@endOf_map_relocate (fun _ => 0) 0 w).symm
  led := by
    rintro start _ w _ span - - rfl rfl
    exact congrArg (Span.mk 0) (@endOf_map_relocate (fun _ => 0) 0 w).symm

/-- Anything goes where nodes may be anywhere. -/
theorem Moving.free (place : Placing) : Moving place .free id fun _ => 0 where
  type := id
  text := id
  opened _ _ := trivial
  led _ _ _ _ := trivial

/-- A derivation does not depend on the places. -/
theorem Derives.erase {place : Placing} {w : List Token} {next : TokenType} {list : List Stmt}
    (h : Derives place w (.stmts next list)) : Derives .free w (.stmts next (Stmt.eraseAll list)) := by
  obtain ⟨room, h⟩ := h.fitting
  have herase := (h.relocate (Moving.free place)).derives
  rwa [List.map_id, Phrase.relocate, Stmt.relocateAll_zero] at herase

end Scriptlet
