import Scriptlet.Proofs.TokenCover

/-!
Keywords are whole words. Where a token starts with a letter or an underscore, it takes all word characters
from there on, even if a spelling of a keyword is the beginning of these. The word is a keyword if it is
spelled like one and does not go on a word in front of it, such as a numeral; any other word is a name.
-/

namespace Scriptlet.Lexer

open Text

/-- The longest run of word characters from a place on. -/
def wordFrom (source : List Char) (p : Nat) : List Char :=
  (source.drop p).takeWhile isWord

/-- The word from a place on is spelled like a keyword, and there is no word right in front of it. -/
def KeywordAt (table : KeywordTable) (source : List Char) (p : Nat) (k : Keyword) : Prop :=
  String.ofList (wordFrom source p) ∈ table.spellings k ∧ (source.take p).getLast?.any isWord = false

section
variable {table : KeywordTable} {source : List Char} {p : Nat} {ch : Char}

theorem isName_wordFrom (hch : source[p]? = some ch) (hstart : isNameStart ch = true) :
    IsName (wordFrom source p) := by
  obtain ⟨hlt, rfl⟩ := List.getElem?_eq_some_iff.1 hch
  refine ⟨source[p], (source.drop (p + 1)).takeWhile isWord, ?_, hstart, fun _ => List.mem_takeWhile_imp⟩
  rw [wordFrom, List.drop_eq_getElem_cons hlt, List.takeWhile_cons_of_pos (isWord_of_isNameStart hstart)]

/-- Of the rules of keywords and the rule of names, the first that matches takes the whole word. -/
theorem firstMatch_word (hp : table.Proper) (hch : source[p]? = some ch)
    (hstart : isNameStart ch = true) :
    ∃ type, firstMatch (rules table) (.at source p) = some (some type, (wordFrom source p).length) ∧
      (∀ k, type = .keyword k ↔ KeywordAt table source p k) ∧
      (type = .identifier ↔ ∀ k, ¬ KeywordAt table source p k) := by
  have hrest : wordFrom source p ++ (source.drop p).dropWhile isWord = source.drop p :=
    List.takeWhile_append_dropWhile
  by_cases hk : ∃ k, KeywordAt table source p k
  · obtain ⟨k, hs, hb⟩ := hk
    have hm : firstMatch (rules table) ⟨_, p, _⟩ = _ :=
      firstMatch_keyword hp hs hb (head?_dropWhile (source.drop p))
    rw [String.toList_ofList, hrest] at hm
    refine ⟨.keyword k, hm, fun j => ⟨?_, fun h => ?_⟩, fun h => ?_, fun h => absurd ⟨hs, hb⟩ (h k)⟩
    · rintro ⟨⟩
      exact ⟨hs, hb⟩
    · rw [hp.distinct hs h.1]
    · cases h
  · have hm : firstMatch (rules table) ⟨(source.take p).getLast?, p, _⟩ = _ :=
      firstMatch_name hp (isName_wordFrom hch hstart) (fun hb k hs => hk ⟨k, hs, hb⟩)
        (head?_dropWhile (source.drop p))
    rw [hrest] at hm
    refine ⟨.identifier, hm, fun k => ⟨fun h => ?_, fun h => absurd ⟨k, h⟩ hk⟩,
      fun _ k h => hk ⟨k, h⟩, fun _ => rfl⟩
    cases h

end

/-- At a letter or an underscore a search gives the whole word from there on, and so does cutting the text
into tokens if one of them starts there. The word is a keyword of a kind if it is spelled like one of this
kind and no word character stands in front of it, and a name otherwise. -/
theorem next_whole_word (table : KeywordTable) (hp : table.Proper) (source : String) (p : Nat) (ch : Char)
    (hch : source.toList[p]? = some ch) (hstart : isNameStart ch = true) :
    ∃ t, next (rules table) (.at source.toList p) = .token t (.at source.toList t.stop) ∧
      (∀ u ∈ (scan (rules table) source).tokens, u.start = p → u = t) ∧
      t.start = p ∧ t.stop = p + t.text.length ∧ t.text.toList = wordFrom source.toList p ∧
      (∀ k, t.type = .keyword k ↔ KeywordAt table source.toList p k) ∧
      (t.type = .identifier ↔ ∀ k, ¬ KeywordAt table source.toList p k) := by
  obtain ⟨type, hm, htype⟩ := firstMatch_word hp hch hstart
  have htext : (source.toList.drop p).take (wordFrom source.toList p).length = wordFrom source.toList p :=
    (List.prefix_iff_eq_take.1 (List.takeWhile_prefix _)).symm
  have htoken : (Cursor.at source.toList p).token type (wordFrom source.toList p).length =
      ⟨type, String.ofList (wordFrom source.toList p), ⟨p, p + (wordFrom source.toList p).length⟩⟩ := by
    rw [Cursor.token, Cursor.at, htext]
  refine ⟨(Cursor.at source.toList p).token type (wordFrom source.toList p).length, ?_, ?_, rfl, ?_,
    ?_, htype⟩
  · rw [next, nextWithin]
    split
    · rename_i hnil
      rw [List.getElem?_eq_none (List.drop_eq_nil_iff.1 hnil)] at hch
      cases hch
    · rw [hm]
      exact congrArg (Step.token _) (Cursor.advance_at source.toList p _)
  · intro u hu hplace
    obtain ⟨c, hscans, -⟩ :=
      scans_collect (rules_progress table) (c := .ofSource source) (Nat.lt_succ_self _)
    obtain ⟨front, d, type', n, hfront, hm', rfl⟩ := hscans.exists_match hu
    obtain ⟨q, -, -, rfl⟩ := hfront.at (rules_progress table) (p := 0) (Nat.zero_le _)
    obtain rfl : q = p := hplace
    cases hm.symm.trans hm'
    rfl
  · rw [htoken, String.length_ofList]
    rfl
  · rw [htoken, String.toList_ofList]

/-- A name that begins like a keyword, one behind a numeral that is spelled like it, and the keyword. -/
theorem next_whole_word_behind_numeral :
    let source := "iffy 1if if"
    (∃ t, next (rules .default) (.at source.toList 0) = .token t (.at source.toList t.stop) ∧
        t.text.toList = "iffy".toList ∧ t.type = .identifier) ∧
      (∃ t, next (rules .default) (.at source.toList 6) = .token t (.at source.toList t.stop) ∧
        t.text.toList = "if".toList ∧ t.type = .identifier) ∧
      ∃ t, next (rules .default) (.at source.toList 9) = .token t (.at source.toList t.stop) ∧
        t.text.toList = "if".toList ∧ t.type = .keyword .kwIf := by
  intro source
  have hword := next_whole_word .default KeywordTable.default_proper source
  refine ⟨?_, ?_, ?_⟩
  · obtain ⟨t, hnext, -, -, -, htext, -, hname⟩ := hword 0 'i' (by decide) (by decide)
    refine ⟨t, hnext, htext.trans (by decide), hname.2 fun k hk => ?_⟩
    exact absurd hk.1 (by cases k <;> decide)
  · obtain ⟨t, hnext, -, -, -, htext, -, hname⟩ := hword 6 'i' (by decide) (by decide)
    exact ⟨t, hnext, htext.trans (by decide), hname.2 fun k hk => absurd hk.2 (by decide)⟩
  · obtain ⟨t, hnext, -, -, -, htext, hkeyword, -⟩ := hword 9 'i' (by decide) (by decide)
    exact ⟨t, hnext, htext.trans (by decide), (hkeyword .kwIf).2 ⟨by decide, by decide⟩⟩

end Scriptlet.Lexer
