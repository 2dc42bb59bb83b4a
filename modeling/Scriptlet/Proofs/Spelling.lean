import Scriptlet.Proofs.Beginnings
import Scriptlet.Proofs.Layout
import Scriptlet.Proofs.TreeCodec

/-!
Tokens by their types and texts. Tokens that were found in a text, and that stand at the beginning of
some program, can be written down again with blanks between them and are found again, and so are the
tokens that complete them. A numeral that was found is a number, unless it has too many digits.
-/

namespace Scriptlet

open Text Lexer Decimal

namespace Lexer

section
variable {c c' : Cursor}

/-- The tokens at the beginning of a text are found in front of the others. -/
theorem Scans.split {rules : List Rule} {w more : List Token} (h : Scans rules c (w ++ more) c') :
    ∃ c₁, Scans rules c w c₁ := by
  generalize htokens : w ++ more = tokens at h
  induction h generalizing w with
  | stop c =>
    obtain rfl : w = [] := (List.append_eq_nil_iff.1 htokens).1
    exact ⟨c, .stop c⟩
  | drop hm _ ih =>
    obtain ⟨c₁, hs⟩ := ih htokens
    exact ⟨c₁, .drop hm hs⟩
  | @token c c' tokens type n hn hm _ ih =>
    cases w with
    | nil => exact ⟨c, .stop c⟩
    | cons t w =>
      obtain ⟨rfl, heq⟩ := List.cons.inj htokens
      obtain ⟨c₁, hs⟩ := ih heq
      exact ⟨c₁, .token hn hm hs⟩

end

/-- Whole numbers are written with no more digits than can be read. -/
def WithinDigits (tokens : List Token) : Prop :=
  ∀ t ∈ tokens, t.type = .number → '.' ∉ t.text.toList → t.text.length ≤ digitLimit

instance : DecidablePred WithinDigits := fun tokens =>
  inferInstanceAs (Decidable (∀ t ∈ tokens, _))

theorem readable_of_scan {table : KeywordTable} {source : String}
    (h : WithinDigits (scan (rules table) source).tokens) :
    ∀ t ∈ (scan (rules table) source).tokens, t.type = .number → ∃ n, Number.read t.text = .ok n := by
  intro t ht htype
  obtain ⟨c, hs, -⟩ := scans_collect (rules_progress table) (c := .ofSource source) (Nat.lt_succ_self _)
  rw [← String.ofList_toList (s := t.text)]
  rcases read_of_isNumeral (hs.isNumeral t ht htype) with ⟨hpoint, hread⟩ | ⟨whole, fraction, -, hread⟩
  · exact ⟨_, hread.trans (if_neg (Nat.not_lt.2 (h t ht htype hpoint)))⟩
  · exact ⟨_, hread⟩

end Lexer

/-! ## Types and texts -/

def Token.lexeme (t : Token) : TokenType × String :=
  (t.type, t.text)

theorem Token.erase_eq_of_lexeme {t u : Token} (h : t.lexeme = u.lexeme) : t.erase = u.erase := by
  have htype : t.type = u.type := congrArg Prod.fst h
  have htext : t.text = u.text := congrArg Prod.snd h
  rw [Token.erase, Token.erase, htype, htext]

theorem map_erase_of_lexeme {w v : List Token} (h : w.map Token.lexeme = v.map Token.lexeme) :
    w.map Token.erase = v.map Token.erase := by
  induction w generalizing v with
  | nil =>
    obtain rfl : v = [] := List.map_eq_nil_iff.1 h.symm
    rfl
  | cons t w ih =>
    cases v with
    | nil => cases h
    | cons u v =>
      obtain ⟨ht, hw⟩ := List.cons.inj h
      rw [List.map_cons, List.map_cons, Token.erase_eq_of_lexeme ht, ih hw]

namespace Lexer

/-- Tokens written one after the other, with a blank behind each. -/
def spell : List Token → List Char
  | [] => []
  | t :: w => t.text.toList ++ ' ' :: spell w

theorem reads_spell {table : KeywordTable} {w : List Token}
    (hw : ∀ t ∈ w, Stands table t.type t.text.toList) {before : Option Char}
    (hb : before.any isWord = false) :
    Reads table before (spell w) fun v => v.map Token.lexeme = w.map Token.lexeme := by
  induction w generalizing before with
  | nil => exact ready_nil (P := fun v => v.map Token.lexeme = []) rfl before
  | cons t w ih =>
    have hstands := hw t List.mem_cons_self
    have hblank : (' ' :: spell w).head?.all isBlank = true := by
      simp [show isBlank ' ' = true by decide]
    apply reads_token hstands.ne_nil fun offset => hstands.firstMatch hb hblank
    apply ready_blank (by decide)
    apply (ih (fun u hu => hw u (List.mem_cons_of_mem _ hu)) (by decide)).mono
    intro v hv u htype htext
    rw [String.ofList_toList] at htext
    rw [List.map_cons, List.map_cons, hv, Token.lexeme, Token.lexeme, htype, htext]

theorem stands_filler {type : TokenType} (h : type ∈ Parser.fillers) :
    Stands .default type (Parser.fillerText type).toList := by
  have hp := KeywordTable.default_proper
  simp only [Parser.fillers, List.mem_cons, List.not_mem_nil, or_false] at h
  rcases h with rfl | rfl | rfl | rfl | rfl | rfl | rfl | rfl | rfl
  case inl =>
    have hname : IsName (Parser.fillerText .identifier).toList := by decide
    have hfree : ∀ k, String.ofList (Parser.fillerText .identifier).toList ∉
        KeywordTable.default.spellings k := by
      intro k
      cases k <;> decide
    constructor
    · exact hname.ne_nil
    · intro before offset cs _ hcs
      exact firstMatch_name hp hname (fun _ => hfree) (not_of_blank hcs fun _ => isWord_of_isBlank)
  all_goals first
    | exact stands_keyword hp (by decide)
    | exact stands_mark hp (by decide) fun _ _ => rfl

theorem regular_filler {type : TokenType} (h : type ∈ Parser.fillers) :
    (Parser.filler type).Regular := by
  have hplain : ∀ type ∈ Parser.fillers, type ≠ .endOfInput ∧ type.operators = [] := by decide
  exact ⟨(hplain type h).1, fun hne => absurd (hplain type h).2 hne⟩

end Lexer

/-- Tokens at the beginning of a text that a few more tokens make a program are at the beginning of a
text that is a program. -/
theorem exists_source_of_completion {source : String} {w more : List Token} {v : List TokenType}
    (hw : (scan (rules .default) source).tokens = w ++ more) (hv : v ⊆ Parser.fillers)
    (hok : ∀ length tokens eof, tokens.tokens = w ++ v.map Parser.filler → tokens.ending = .ok eof →
      eof.type = .endOfInput → ∃ p, Parser.parseTokens nestingLimit length tokens = .ok p) :
    ∃ text p, parse .default text = .ok p ∧ (scan (rules .default) text).tokens.map Token.lexeme =
      (w ++ v.map Parser.filler).map Token.lexeme := by
  have hp := KeywordTable.default_proper
  obtain ⟨c, hscans, -⟩ := scans_collect (rules_progress .default) (c := .ofSource source)
    (Nat.lt_succ_self _)
  rw [show (collect (rules .default) _ (.ofSource source)).tokens = w ++ more from hw] at hscans
  obtain ⟨c₁, hfirst⟩ := hscans.split
  let completed : Tokens := ⟨w ++ v.map Parser.filler, .ok (.endOfInput 0), default⟩
  obtain ⟨p, hparse⟩ := hok 0 completed (.endOfInput 0) rfl rfl rfl
  have hreg : ∀ t ∈ w ++ v.map Parser.filler, t.Regular := by
    intro t ht
    rcases List.mem_append.1 ht with ht | ht
    · exact (hfirst.shape t ht).regular
    · obtain ⟨type, htype, rfl⟩ := List.mem_map.1 ht
      exact regular_filler (hv htype)
  have hderives : Derives .tight (w ++ v.map Parser.filler) _ :=
    Parser.derives_of_parseTokens rfl rfl hreg hparse
  have hstands : ∀ t ∈ w ++ v.map Parser.filler, Lexer.Stands .default t.type t.text.toList := by
    intro t ht
    rcases List.mem_append.1 ht with ht | ht
    · exact hfirst.stands hp
        (fun u hu => not_keyword_of_derives_append hp hfirst rfl hderives hu) t ht
    · obtain ⟨type, htype, rfl⟩ := List.mem_map.1 ht
      exact stands_filler (hv htype)
  have hreads : Reads .default none (spell (w ++ v.map Parser.filler)) _ := reads_spell hstands rfl
  obtain ⟨tokens, c', hscans', hrest, htokens⟩ := hreads 0
  let text := String.ofList (spell (w ++ v.map Parser.filler))
  have hscan : scan (rules .default) text = ⟨tokens, .ok (.endOfInput c'.offset), c'⟩ :=
    scan_of_scans (by rwa [Cursor.ofSource, String.toList_ofList]) hrest
  have hsame : completed.tokens.map Token.erase =
      (scan (rules .default) text).tokens.map Token.erase := by
    rw [hscan]
    exact (map_erase_of_lexeme htokens).symm
  have hends : completed.ending = .ok (.endOfInput 0) := rfl
  obtain ⟨q, hq, -⟩ : ∃ q, parse .default text = .ok q ∧ q.erase = p.erase :=
    Parser.parseTokens_relaid hends (congrArg Tokens.ending hscan) rfl hsame hparse
  exact ⟨text, q, hq, by rw [hscan]; exact htokens⟩

end Scriptlet
