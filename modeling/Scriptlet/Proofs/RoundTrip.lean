import Scriptlet.Proofs.Printing

/-!
Printing a program and parsing the text gives the program again. A program that was parsed is written
with names that are no keywords and with numerals and texts that read as themselves, so its printed
text derives it (`program_prints`), and the parser finds what is derived.

Two things are asked of the reader. A decimal has to have a printed form that reads as itself, which
floats with very small or very large values do not have; and the keywords of the program are to be
spelled as the table has them.
-/

namespace Scriptlet

/-- A printed program is parsed as the program with its braces, unless it nests too deeply. -/
theorem parse_of_prints {table : KeywordTable} (hp : table.Proper) {spell : Printer.Spelling}
    {p : Program} (ha : ∀ a ∈ p.atoms, a.Writable table spell) (hd : ∀ s ∈ p.body, s.Declares)
    (hroom : p.toTree.print spell ≠ .error .tooDeep)
    (hdepth : ∀ text span, p.toTree.print spell = .ok (.text text) →
      parse table text ≠ .error (.tooDeep span)) :
    ∃ text q, p.toTree.print spell = .ok (.text text) ∧ parse table text = .ok q ∧
      Stmt.eraseAll q.body = Stmt.eraseAll (Stmt.bracedAll p.body) := by
  rcases program_prints hp ha hd with
    hdeep | ⟨_, hprint, text, rfl, tokens, c, hscans, hend, hderives⟩
  · exact absurd hdeep hroom
  have hscan := Lexer.scan_of_scans hscans hend
  have hprogram : DerivesProgram (Lexer.scan (Lexer.rules table) text).tokens
      ⟨Stmt.bracedAll p.body, p.span⟩ := by
    rw [hscan, Stmt.bracedAll_eq_map]
    exact hderives.program
  rcases Parser.parseTokens_of_derives (congrArg Lexer.Tokens.ending hscan) rfl hprogram with
    ⟨span, hdeep⟩ | ⟨q, hq, herase⟩
  · exact absurd hdeep (hdepth text span hprint)
  · exact ⟨text, q, hprint, hq, congrArg Program.body herase⟩

/-- Printing a parsed program and parsing the text gives the program again, apart from places. -/
theorem parse_print (table : KeywordTable) (hp : table.Proper) (source : String) (p : Program)
    (h : parse table source = .ok p)
    (hdecimal : ∀ x, .number (.float x) ∈ p.atoms → Number.ReadsBack (.float x))
    (spell : Printer.Spelling)
    (hspell : ∀ k, .keyword k ∈ p.atoms → spell k ∈ table.spellings k)
    (hroom : p.toTree.print spell ≠ .error .tooDeep)
    (hdepth : ∀ text span, p.toTree.print spell = .ok (.text text) →
      parse table text ≠ .error (.tooDeep span)) :
    ∃ text q, p.toTree.print spell = .ok (.text text) ∧ parse table text = .ok q ∧
      q.erase = p.erase := by
  have hsettled := settled_of_parse hp h
  have hbraced : Stmt.bracedAll p.body = p.body := by
    rw [Stmt.bracedAll_eq_map, List.map_congr_left (g := id) fun s hs => (hsettled s hs).2,
      List.map_id]
  have hatoms := atoms_writable_of_parse hp h hdecimal hspell
  obtain ⟨text, q, hprint, hq, herase⟩ :=
    parse_of_prints hp hatoms (fun s hs => (hsettled s hs).1) hroom hdepth
  rw [hbraced] at herase
  exact ⟨text, q, hprint, hq, Program.erase_congr herase⟩

/-- What was printed and is parsed again nests nowhere too deeply. -/
theorem shallow_of_display {r : Printer.Print Tree} {table : KeywordTable} {shown : String}
    (hr : r.map Tree.display = .ok shown) (hok : (parse table shown).isOk = true) :
    r ≠ .error .tooDeep ∧
      ∀ text span, r = .ok (.text text) → parse table text ≠ .error (.tooDeep span) := by
  constructor
  · rintro rfl
    cases hr
  · rintro text span rfl hdeep
    cases hr
    change (parse table text).isOk = true at hok
    rw [hdeep] at hok
    cases hok

/-- A nested conditional, read with one spelling of the keywords and written with the other. -/
theorem parse_print_conditional :
    ∃ p, parse .default "agr (a) if (!b) x += -null(\"it's\", 'a \"b\"'); else while (true) f" = .ok p ∧
      ∃ text q, p.toTree.print (fun k => k.romanUrdu.headD k.english) = .ok (.text text) ∧
        parse .default text = .ok q ∧ q.erase = p.erase := by
  obtain ⟨p, hparse, hprint⟩ := exists_ok_of_map (by decide +kernel : (parse .default
    "agr (a) if (!b) x += -null(\"it's\", 'a \"b\"'); else while (true) f").map
      (fun p => (p.toTree.print fun k => k.romanUrdu.headD k.english).map Tree.display) = .ok (.ok
        "Agr (a) Agr ((!b)) (x += (-null(\"it's\", 'a \"b\"'))); Warna JabTak (Sahi) f;\n"))
  obtain ⟨hroom, hdepth⟩ := shallow_of_display hprint
    (by decide +kernel : (parse .default _).isOk = true)
  have hfloat : ∀ x, .number (.float x) ∉ p.atoms := by
    intro x hx
    obtain ⟨eof, heof, htype⟩ := exists_end_of_parse KeywordTable.default_proper.ne_empty hparse
    rcases (derives_of_parse heof htype hparse).found _ hx with ⟨k, hk⟩ | ⟨t, ht, hnumber, -⟩
    · cases hk
    · revert t
      decide +kernel
  exact ⟨p, hparse, parse_print _ KeywordTable.default_proper _ p hparse
    (fun x hx => absurd hx (hfloat x)) _ (fun k _ => by cases k <;> decide) hroom hdepth⟩

end Scriptlet
