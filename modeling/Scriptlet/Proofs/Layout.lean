import Mathlib.Tactic.CasesM
import Scriptlet.Proofs.Atoms

/-!
Layout, comments and the spelling of keywords do not matter. The tokens of a program may be written down
again with any layout between them that starts with a blank, and with keywords spelled in another way of
the same kind. The new text is cut into tokens of the same types and texts, keywords apart, and such
tokens are parsed alike.

A token that was cut out of a text stands on its own (`Stands`): it is found again wherever it comes
behind the start of a text or behind layout, and before a blank or the end. The one exception is a name
that is spelled like a keyword, which can come right behind a numeral; programs have none.
-/

namespace Scriptlet.Lexer

open Text

/-! ## Layout -/

/-- Blanks and comments that are complete: a comment to the end of the line has its line feed, and a
block comment its end mark and no other one before it. -/
inductive IsLayout : List Char → Prop
  | nil : IsLayout []
  | blank {b : Char} {cs : List Char} (hb : isBlank b = true) (h : IsLayout cs) : IsLayout (b :: cs)
  | line {body cs : List Char} (hbody : '\n' ∉ body) (h : IsLayout cs) :
      IsLayout ('/' :: '/' :: (body ++ '\n' :: cs))
  | block {body cs : List Char} (hbody : ¬ ['*', '/'] <:+: body) (h : IsLayout cs) :
      IsLayout ('/' :: '*' :: (body ++ '*' :: '/' :: cs))

/-- Layout that starts with a blank. -/
inductive IsGap : List Char → Prop
  | intro {b : Char} {cs : List Char} (hb : isBlank b = true) (h : IsLayout cs) : IsGap (b :: cs)

section
variable {table : KeywordTable} {before : Option Char} {cs body : List Char} {offset : Nat}
  {P : List Token → Prop}

theorem firstMatch_line (hbody : '\n' ∉ body) :
    firstMatch (rules table) ⟨before, offset, '/' :: '/' :: (body ++ '\n' :: cs)⟩ =
      some (none, body.length + 2) := by
  have htake : (body ++ '\n' :: cs).takeWhile (· != '\n') = body :=
    takeWhile_append_stop (fun c hc => bne_iff_ne.2 fun heq => hbody (heq ▸ hc)) rfl
  have hblank : isBlank '/' = false := by decide
  simp [firstMatch, rules, droppedRules, run, lineComment, htake, hblank, Nat.add_comm]

theorem firstMatch_block (hbody : ¬ ['*', '/'] <:+: body) :
    firstMatch (rules table) ⟨before, offset, '/' :: '*' :: (body ++ '*' :: '/' :: cs)⟩ =
      some (none, body.length + 4) := by
  have hblank : isBlank '/' = false := by decide
  simp [firstMatch, rules, droppedRules, run, lineComment, blockComment, commentEnd_append hbody, hblank]

/-- What is dropped in front of a text. -/
theorem reads_dropped {text : List Char} (hne : text ≠ [])
    (hm : ∀ offset, firstMatch (rules table) ⟨before, offset, text ++ cs⟩ = some (none, text.length))
    (h : Reads table text.getLast? cs P) : Reads table before (text ++ cs) P := by
  intro offset
  obtain ⟨tokens, c, hs, hend, hP⟩ := h (offset + text.length)
  rw [← Cursor.advance_append before hne] at hs
  exact ⟨tokens, c, .drop (hm offset) hs, hend, hP⟩

/-- Layout in front of a text. -/
theorem IsLayout.reads {text : List Char} (hlayout : IsLayout text) (hb : before.any isWord = false)
    (h : ∀ before : Option Char, before.any isWord = false → Reads table before cs P) :
    Reads table before (text ++ cs) P := by
  induction hlayout generalizing before with
  | nil => exact h before hb
  | blank hblank _ ih => exact ready_blank hblank (ih (isWord_of_isBlank hblank)) before
  | @line body rest hbody _ ih =>
    -- The comment is dropped up to its line feed, which is a blank.
    have hready : Ready table ('\n' :: (rest ++ cs)) P := ready_blank (by decide) (ih (by decide))
    have htext : '/' :: '/' :: (body ++ '\n' :: rest) ++ cs =
        ('/' :: '/' :: body) ++ '\n' :: (rest ++ cs) := by simp
    rw [htext]
    exact reads_dropped (by simp) (fun offset => firstMatch_line hbody) (hready _)
  | @block body rest hbody _ ih =>
    have htext : '/' :: '*' :: (body ++ '*' :: '/' :: rest) ++ cs =
        ('/' :: '*' :: (body ++ ['*', '/'])) ++ (rest ++ cs) := by simp
    rw [htext]
    apply reads_dropped (by simp)
    · intro offset
      have hm : firstMatch (rules table) ⟨before, offset, '/' :: '*' :: (body ++ '*' :: '/' ::
          (rest ++ cs))⟩ = _ := firstMatch_block hbody
      simpa using hm
    · have hlast : ('/' :: '*' :: (body ++ ['*', '/'])).getLast? = some '/' := by
        simp [List.getLast?_cons, List.getLast?_append]
      rw [hlast]
      exact ih (by decide)

theorem IsGap.ready {text : List Char} (hgap : IsGap text)
    (h : ∀ before : Option Char, before.any isWord = false → Reads table before cs P) :
    Ready table (text ++ cs) P := by
  obtain ⟨hblank, hlayout⟩ := hgap
  exact ready_blank hblank (hlayout.reads (isWord_of_isBlank hblank) h)

end

/-! ## Tokens on their own -/

/-- Behind no word character, and before a blank or the end, the text is a token of the type. -/
structure Stands (table : KeywordTable) (type : TokenType) (text : List Char) : Prop where
  ne_nil : text ≠ []
  firstMatch {before : Option Char} {offset : Nat} {cs : List Char} :
    before.any isWord = false → cs.head?.all isBlank = true →
      firstMatch (rules table) ⟨before, offset, text ++ cs⟩ = some (some type, text.length)

/-- A blank has none of the properties that a character may need to go on with a token. -/
theorem not_of_blank {cs : List Char} (hcs : cs.head?.all isBlank = true) {p : Char → Bool}
    (hp : ∀ c, isBlank c = true → p c = false) : cs.head?.any p = false := by
  cases cs with
  | nil => rfl
  | cons b tail => exact hp b hcs

theorem extendsNumeral_of_isBlank {c : Char} (h : isBlank c = true) : extendsNumeral c = false := by
  rw [extendsNumeral, Bool.or_eq_false_iff]
  constructor
  · refine Bool.eq_false_iff.2 fun hd => ?_
    rw [isBlank_of_isDigit hd] at h
    cases h
  · refine Bool.eq_false_iff.2 fun hd => ?_
    rw [eq_of_beq hd] at h
    cases h

/-- In front of a blank or the end, the text of an operator is a token. -/
theorem symbolMatch_operator {type : TokenType} {s : String} (hs : s ∈ type.operators)
    (before : Option Char) {cs : List Char} (hcs : cs.head?.all isBlank = true) :
    symbolMatch before (s.toList ++ cs) = some (some type, s.toList.length) := by
  cases cs with
  | nil =>
    cases type <;> simp only [TokenType.operators, List.mem_cons, List.not_mem_nil, or_false] at hs <;>
      (try casesm* _ ∨ _) <;> subst_vars <;> rfl
  | cons b tail =>
    -- A blank is none of the characters that make another operator, or a comment, of an operator.
    have hb : isBlank b = true := hcs
    have hslash : b ≠ '/' := by rintro rfl; cases hb
    have hstar : b ≠ '*' := by rintro rfl; cases hb
    have hequals : b ≠ '=' := by rintro rfl; cases hb
    cases type <;> simp only [TokenType.operators, List.mem_cons, List.not_mem_nil, or_false] at hs <;>
      (try casesm* _ ∨ _) <;> subst_vars <;>
      simp [symbolMatch, symbolRules, droppedRules, punctuationRules, otherRules, run, lineComment,
        blockComment, one, number, identifier, withEquals, comparison, exactly, isBlank, Ranges.has,
        blankRanges, isDigit, digitValue?, isNameStart, hslash, hstar, hequals]

section
variable {table : KeywordTable} (hp : table.Proper)
include hp

theorem stands_operator {type : TokenType} {s : String} (hs : s ∈ type.operators) :
    Stands table type s.toList := by
  have hstart : ∀ s ∈ type.operators, s.toList.head?.any (!isNameStart ·) = true := by
    cases type with
    | keyword => nofun
    | _ => decide
  have hs' := hstart s hs
  have hmatch := fun before (cs : List Char) hcs => @symbolMatch_operator type s hs before cs hcs
  generalize s.toList = text at hs' hmatch
  cases text with
  | nil => cases hs'
  | cons c rest =>
    have hc : isNameStart c = false := by simpa using hs'
    constructor
    · exact List.cons_ne_nil c rest
    · intro before offset cs _ hcs
      exact (firstMatch_of_not_start hp hc).trans (hmatch before cs hcs)

/-- A mark is a token in front of anything. -/
theorem stands_mark {type : TokenType} {c : Char} (hc : isNameStart c = false)
    (hm : ∀ before cs, symbolMatch before (c :: cs) = some (some type, 1)) : Stands table type [c] where
  ne_nil := List.cons_ne_nil c []
  firstMatch _ _ := (firstMatch_of_not_start hp hc).trans (hm _ _)

theorem stands_keyword {k : Keyword} {s : String} (hs : s ∈ table.spellings k) :
    Stands table (.keyword k) s.toList where
  ne_nil := (hp.isName hs).ne_nil
  firstMatch hb hcs := firstMatch_keyword hp hs hb (not_of_blank hcs fun _ => isWord_of_isBlank)

end

section
variable {table : KeywordTable} {c c' : Cursor} {tokens : List Token}

theorem stands_of_firstMatch (hp : table.Proper) {type : TokenType} {n : Nat}
    (hm : firstMatch (rules table) c = some (some type, n))
    (hname : type = .identifier → ∀ k, String.ofList (c.rest.take n) ∉ table.spellings k) :
    Stands table type (c.rest.take n) := by
  have hshape := shape_of_firstMatch hm
  have hoperator : String.ofList (c.rest.take n) ∈ type.operators →
      Stands table type (c.rest.take n) := by
    intro hs
    simpa using stands_operator hp hs
  generalize htext : c.rest.take n = text at *
  cases type with
  | keyword k => simpa using stands_keyword hp hshape
  | semi | curlyStart | curlyEnd | parenStart | parenEnd | comma =>
    obtain rfl : text = _ := hshape
    exact stands_mark hp (by decide) fun _ _ => rfl
  | number =>
    obtain ⟨r, hr, ht, hmatch⟩ := exists_rule_of_firstMatch hm
    rw [(rule_of_type hr).2.2.2 ht] at hmatch
    have hnumeral := isNumeral_of_number hmatch
    rw [htext] at hnumeral
    constructor
    · rintro rfl
      obtain ⟨c, whole, -, heq | ⟨d, fraction, -, heq⟩⟩ := hnumeral <;> cases heq
    · intro before offset cs _ hcs
      exact firstMatch_number hp hnumeral (not_of_blank hcs fun _ => extendsNumeral_of_isBlank)
  | string =>
    obtain ⟨quote, body, hq, rfl, hquote, hline⟩ := hshape
    constructor
    · exact List.cons_ne_nil _ _
    · intro before offset cs _ _
      have hmatch : firstMatch (rules table) ⟨before, offset, quote :: (body ++ quote :: cs)⟩ = _ :=
        firstMatch_quoted hp hq hquote hline
      simpa using hmatch
  | identifier =>
    constructor
    · exact IsName.ne_nil hshape
    · intro before offset cs _ hcs
      exact firstMatch_name hp hshape (fun _ => hname rfl) (not_of_blank hcs fun _ => isWord_of_isBlank)
  | endOfInput => exact hshape.elim
  | equality | simpleAssignment | complexAssignment | additive | multiplicative | relational
  | logicalAnd | logicalOr | logicalNot => exact hoperator hshape

/-- The tokens of a text stand on their own, unless one is a name that is spelled like a keyword. -/
theorem Scans.stands (hp : table.Proper) (h : Scans (rules table) c tokens c')
    (hname : ∀ t ∈ tokens, t.type = .identifier → ∀ k, t.text ∉ table.spellings k) :
    ∀ t ∈ tokens, Stands table t.type t.text.toList := by
  intro t ht
  obtain ⟨front, d, type, n, -, hm, rfl⟩ := h.exists_match ht
  have hstands := stands_of_firstMatch hp hm (hname _ ht)
  simpa [Cursor.token] using hstands

end

/-! ## Tokens written down again -/

/-- How a token may be written: a keyword in any spelling of its kind, another token as it is. -/
def Respells (table : KeywordTable) (t : Token) (s : String) : Prop :=
  match t.type with
  | .keyword k => s ∈ table.spellings k
  | _ => s = t.text

/-- Tokens written one after the other, with a gap behind each. Behind the last one it may be missing. -/
inductive Written (table : KeywordTable) : List Token → List Char → Prop
  | nil : Written table [] []
  | last {t : Token} {s : String} (hs : Respells table t s) : Written table [t] s.toList
  | token {t : Token} {s : String} {w : List Token} {gap cs : List Char} (hs : Respells table t s)
      (hgap : IsGap gap) (h : Written table w cs) : Written table (t :: w) (s.toList ++ (gap ++ cs))

section
variable {table : KeywordTable} {w : List Token} {cs : List Char}

theorem Respells.stands (hp : table.Proper) {t : Token} {s : String} (h : Respells table t s)
    (ht : Stands table t.type t.text.toList) : Stands table t.type s.toList := by
  unfold Respells at h
  split at h
  · rename_i k htype
    rw [htype]
    exact stands_keyword hp h
  · rw [h]
    exact ht

theorem Respells.erase_eq {t u : Token} {s : String} (h : Respells table t s) (htype : u.type = t.type)
    (htext : u.text = s) : u.erase = t.erase := by
  unfold Respells at h
  unfold Token.erase
  rw [htype, htext]
  split at h
  · rename_i k hk
    rw [hk]
  · rw [h]

/-- Tokens that are written down again are found again, up to places and the spelling of keywords. -/
theorem Written.reads (hp : table.Proper) (h : Written table w cs)
    (hw : ∀ t ∈ w, Stands table t.type t.text.toList) {before : Option Char}
    (hb : before.any isWord = false) :
    Reads table before cs fun v => v.map Token.erase = w.map Token.erase := by
  induction h generalizing before with
  | nil => exact ready_nil (P := fun v => v.map Token.erase = [].map Token.erase) rfl before
  | @last t s hs =>
    have hstands := hs.stands hp (hw t List.mem_cons_self)
    have hreads : Reads table before (s.toList ++ []) fun v => v.map Token.erase = [t].map Token.erase := by
      apply reads_token hstands.ne_nil fun offset => hstands.firstMatch hb rfl
      apply ready_nil
      intro u htype htext
      rw [String.ofList_toList] at htext
      simp only [List.map_cons, List.map_nil, hs.erase_eq htype htext]
    rwa [List.append_nil] at hreads
  | @token t s w gap cs hs hgap _ ih =>
    have hstands := hs.stands hp (hw t List.mem_cons_self)
    have hblank : (gap ++ cs).head?.all isBlank = true := by
      obtain ⟨hblank, -⟩ := hgap
      exact hblank
    apply reads_token hstands.ne_nil fun offset => hstands.firstMatch hb hblank
    apply hgap.ready
    intro before hb
    apply (ih (fun u hu => hw u (List.mem_cons_of_mem _ hu)) hb).mono
    intro v hv u htype htext
    rw [String.ofList_toList] at htext
    rw [List.map_cons, List.map_cons, hs.erase_eq htype htext, hv]

end

end Scriptlet.Lexer

namespace Scriptlet

open Lexer

/-- A program may be written with any layout: if its tokens are written down again, each keyword in any
spelling of its kind, with layout in front of the first token and a gap behind each of the others, then
the text is parsed as the same program, apart from places. -/
theorem parse_of_written (table : KeywordTable) (hp : table.Proper) (source : String) (p : Program)
    (h : parse table source = .ok p) (text : String) (lead cs : List Char) (hlead : IsLayout lead)
    (hcs : Written table (scan (rules table) source).tokens cs) (htext : text.toList = lead ++ cs) :
    ∃ q, parse table text = .ok q ∧ q.erase = p.erase := by
  obtain ⟨eof, heof, htype⟩ := exists_end_of_parse hp.ne_empty h
  obtain ⟨c, hscans, hrest⟩ := scans_of_scan heof htype
  have hderives := derives_of_parse heof htype h
  have hstands := hscans.stands hp fun t ht => not_keyword_of_derives hp hscans rfl hderives ht
  have hreads : Reads table none (lead ++ cs) fun v =>
      v.map Token.erase = (scan (rules table) source).tokens.map Token.erase :=
    hlead.reads rfl fun before hb => hcs.reads hp hstands hb
  obtain ⟨tokens, c', hscans', hrest', htokens⟩ := hreads 0
  rw [← htext] at hscans'
  have hscan := scan_of_scans hscans hrest
  have hscan' := scan_of_scans hscans' hrest'
  apply Parser.parseTokens_relaid (congrArg Tokens.ending hscan) (congrArg Tokens.ending hscan') rfl
  · rw [hscan']
    exact htokens.symm
  · exact h

/-- A conditional without blanks in one spelling, and with comments in the other. -/
theorem parse_of_written_conditional :
    ∃ p q, parse .default "agr(a)b" = .ok p ∧
      parse .default "if /* ; */ (\ta // else\n ) b" = .ok q ∧ q.erase = p.erase := by
  obtain ⟨p, hp⟩ := exists_of_isOk (by decide +kernel :
    (parse .default "agr(a)b").isOk = true)
  have hscan : (scan (rules .default) "agr(a)b").tokens =
      [⟨.keyword .kwIf, "agr", ⟨0, 3⟩⟩, ⟨.parenStart, "(", ⟨3, 4⟩⟩, ⟨.identifier, "a", ⟨4, 5⟩⟩,
        ⟨.parenEnd, ")", ⟨5, 6⟩⟩, ⟨.identifier, "b", ⟨6, 7⟩⟩] := by
    decide +kernel
  have hspace : IsLayout [' '] := .blank (by decide) .nil
  have hblock : IsGap ((' ' :: '/' :: '*' :: ([' ', ';', ' '] ++ ['*', '/', ' ']))) :=
    .intro (by decide) (.block (by decide) hspace)
  have hline : IsGap (' ' :: '/' :: '/' :: (" else".toList ++ ['\n', ' '])) :=
    .intro (by decide) (.line (by decide) hspace)
  have hif : Respells .default ⟨.keyword .kwIf, "agr", ⟨0, 3⟩⟩ "if" :=
    show "if" ∈ KeywordTable.default.spellings .kwIf by decide
  obtain ⟨cs, hcs, htext⟩ : ∃ cs, Written .default (scan (rules .default) "agr(a)b").tokens cs ∧
      "if /* ; */ (\ta // else\n ) b".toList = cs := by
    rw [hscan]
    exact ⟨_, .token hif hblock (.token rfl (.intro (b := '\t') (by decide) .nil) (.token rfl hline
      (.token rfl (.intro (b := ' ') (by decide) .nil) (.last rfl)))), by decide⟩
  obtain ⟨q, hq, heq⟩ := parse_of_written .default KeywordTable.default_proper _ p hp _ [] cs .nil hcs
    htext
  exact ⟨p, q, hp, hq, heq⟩

end Scriptlet
