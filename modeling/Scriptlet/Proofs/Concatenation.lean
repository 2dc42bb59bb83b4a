import Scriptlet.Proofs.Atoms
import Scriptlet.Proofs.Lookahead

/-!
Programs one after the other. Two accepted texts on lines of their own are accepted together, if the first
one ends in a terminator or a closing brace, and the statements of the second one come behind those of the
first, moved by what stands in front of them.

What the second text starts with cannot be taken for a part of the first one: the tokens of a text end with
its last line, and a closed statement is one in front of anything but `else`, which starts no statement.
-/

namespace Scriptlet

/-- Tokens stay the same at other places, also behind another character if none of them is a name that is
spelled like a keyword. -/
theorem Lexer.Scans.moved {table : KeywordTable} (hp : table.Proper) (shift : Nat) {c c' : Cursor}
    {tokens : List Token} (h : Scans (rules table) c tokens c')
    (hname : ∀ t ∈ tokens, t.type = .identifier → ∀ k, t.text ∉ table.spellings k) {before : Option Char}
    (hbefore : c.before.any Text.isWord = false → before.any Text.isWord = false) :
    ∃ d, d.rest = c'.rest ∧ Scans (rules table) ⟨before, c.offset + shift, c.rest⟩
      (tokens.map (Token.relocate (· + shift))) d := by
  have hmatch : ∀ {c : Cursor} {before type n}, firstMatch (rules table) c = some (type, n) →
      (type = some .identifier → ∀ k, String.ofList (c.rest.take n) ∉ table.spellings k) →
      (c.before.any Text.isWord = false → before.any Text.isWord = false) →
      firstMatch (rules table) ⟨before, c.offset + shift, c.rest⟩ = some (type, n) := by
    rintro ⟨front, offset, cs⟩ before type n hm hname hbefore
    exact firstMatch_within hp ((List.append_nil cs).symm ▸ hm) ((rules_progress table).short hm) hname
      hbefore
  have hnext : ∀ {c : Cursor} {before : Option Char} (n : Nat),
      (c.before.any Text.isWord = false → before.any Text.isWord = false) →
      (c.advance n).before.any Text.isWord = false →
      ((c.rest.take n).getLast?.or before).any Text.isWord = false := by
    intro c before n hbefore h
    rw [Cursor.advance] at h
    cases hlast : (c.rest.take n).getLast? with
    | none =>
      rw [hlast] at h
      exact hbefore h
    | some d => rwa [hlast] at h
  induction h generalizing before with
  | stop c => exact ⟨⟨before, c.offset + shift, c.rest⟩, rfl, .stop _⟩
  | @drop c c' tokens n hm _ ih =>
    obtain ⟨d, hrest, hs⟩ := ih hname (hnext n hbefore)
    rw [Cursor.advance_offset, Nat.add_right_comm] at hs
    exact ⟨d, hrest, .drop (hmatch hm (fun htype => by cases htype) hbefore) hs⟩
  | @token c c' tokens type n hn hm _ ih =>
    obtain ⟨hthis, hname⟩ := List.forall_mem_cons.1 hname
    obtain ⟨d, hrest, hs⟩ := ih hname (hnext n hbefore)
    rw [Cursor.advance_offset, Nat.add_right_comm] at hs
    have htoken : (c.token type n).relocate (· + shift) =
        (⟨before, c.offset + shift, c.rest⟩ : Cursor).token type n := by
      simp only [Cursor.token, Token.relocate, Span.relocate, Nat.add_right_comm]
    rw [List.map_cons, htoken]
    exact ⟨d, hrest, .token hn (hmatch hm (fun htype => hthis (Option.some.inj htype)) hbefore) hs⟩

/-- Closed statements in front of others. -/
theorem Fits.append_stmts {place : Placing} {room : Nat} {w w' : List Token} {list list' : List Stmt}
    (h : Fits place room w (.stmts .endOfInput list)) (hclosed : isClosed w = true)
    (h' : Fits place room w' (.stmts .endOfInput list')) :
    Fits place room (w ++ w') (.stmts .endOfInput (list ++ list')) := by
  induction list generalizing w with
  | nil =>
    cases h
    exact h'
  | cons s list ih =>
    cases h with
    | @moreStmts _ w v _ _ _ h hl =>
      by_cases hv : v = []
      · -- This statement is the last one, and the others stand right behind it.
        subst hv
        obtain rfl := hl.derives.stmts_nil
        rw [List.append_nil] at hclosed ⊢
        exact .moreStmts (h.before (h'.derives.headType_ne_else (by decide)) (.inl hclosed)) h'
      · rw [isClosed_append hv] at hclosed
        rw [List.append_assoc]
        refine .moreStmts ?_ (ih hl hclosed)
        cases v with
        | nil => exact absurd rfl hv
        | cons t v => exact h

/-- Two accepted texts, the first of which has a terminator or a closing brace as its last token, are accepted
on lines of their own. The statements are those of the first text and those of the second one, with every
offset raised by the length of the first text and the line feed. -/
theorem parse_concatenated (table : KeywordTable) (hp : table.Proper) (first second : String) (p q : Program)
    (h : parse table first = .ok p) (h' : parse table second = .ok q)
    (hclosed : isClosed (Lexer.scan (Lexer.rules table) first).tokens = true) :
    parse table (first ++ "\n" ++ second) =
      .ok ⟨p.body ++ q.body.map (Stmt.relocate (· + (first.length + 1))),
        ⟨0, first.length + 1 + second.length⟩⟩ := by
  obtain ⟨eof, heof, htype⟩ := exists_end_of_parse hp.ne_empty h
  obtain ⟨eof', heof', htype'⟩ := exists_end_of_parse hp.ne_empty h'
  have hfits := Parser.fits_of_parseTokens heof htype (Lexer.regular_scan table first) h
  have hfits' := Parser.fits_of_parseTokens heof' htype' (Lexer.regular_scan table second) h'
  obtain ⟨c, hscans, hrest⟩ := Lexer.scans_of_scan heof' htype'
  have hname := fun t ht => not_keyword_of_derives hp hscans rfl hfits'.derives (t := t) ht
  obtain ⟨c', hrest', hmoved⟩ := hscans.moved hp (first.length + 1) hname
    (fun _ => (by decide : (some '\n').any Text.isWord = false))
  rw [Lexer.Cursor.ofSource, Nat.zero_add] at hmoved
  have hscan := Lexer.scan_before_line hp heof htype hfits.derives.followed hmoved (hrest'.trans hrest)
  have hboth := hfits.append_stmts hclosed (hfits'.relocate (Moving.tight (· + (first.length + 1))))
  rw [← Stmt.relocateAll_eq_map, parse, hscan, String.length_append, String.length_append]
  exact Parser.parseTokens_of_fits rfl rfl hboth

/-- A comment and blanks between the two, and no terminator at the end. -/
theorem parse_concatenated_conditional :
    ∃ p q, parse .default "if (a) { b = 2; } /* ; */" = .ok p ∧ parse .default "  f(b)" = .ok q ∧
      parse .default ("if (a) { b = 2; } /* ; */" ++ "\n" ++ "  f(b)") =
        .ok ⟨p.body ++ q.body.map (Stmt.relocate (· + 26)), ⟨0, 32⟩⟩ := by
  obtain ⟨p, h⟩ := exists_of_isOk (by decide +kernel :
    (parse .default "if (a) { b = 2; } /* ; */").isOk = true)
  obtain ⟨q, h'⟩ := exists_of_isOk (by decide +kernel :
    (parse .default "  f(b)").isOk = true)
  exact ⟨p, q, h, h',
    parse_concatenated .default KeywordTable.default_proper _ _ p q h h' (by decide +kernel)⟩

end Scriptlet
