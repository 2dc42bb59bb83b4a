import Mathlib.Data.ENat.Basic
import Mathlib.Data.List.Forall2
import Mathlib.Data.Prod.Lex
import Mathlib.Tactic.FinCases
import Scriptlet.Grammar.Parse
import Scriptlet.Proofs.Scanning

/-!
The first rule that matches has the longest match. Two rules that both match at a place differ in the length
of their matches, and the longer match is that of the rule which comes first; only a keyword is as long as the
name that could be read in its place. So it does not matter in which order the rules are tried, as long as
keywords come before names and rules for longer texts before rules for shorter ones (`firstMatch_longest`).

Rules are compared by what they ask of the first two characters (`Profile`). Keywords are those of a proper
table, whose spellings are names that belong to one kind each.
-/

namespace Scriptlet

/-- Every spelling is a name, and no two kinds share one. -/
structure KeywordTable.Proper (table : KeywordTable) : Prop where
  isName {k : Keyword} {s : String} : s ∈ table.spellings k → Lexer.IsName s.toList
  distinct {k k' : Keyword} {s : String} :
    s ∈ table.spellings k → s ∈ table.spellings k' → k = k'

/-- The spellings of the language are such names. -/
theorem KeywordTable.default_proper : KeywordTable.default.Proper where
  isName {k s} hs := by
    have hall : ∀ k, ∀ s ∈ KeywordTable.default.spellings k, Lexer.IsName s.toList := by
      decide +kernel
    exact hall k s hs
  distinct {k k' s} hs hs' := by
    have hall : ∀ k k', ∀ s ∈ KeywordTable.default.spellings k,
        s ∈ KeywordTable.default.spellings k' → k = k' := by
      decide +kernel
    exact hall k k' s hs hs'

theorem KeywordTable.Proper.ne_empty {table : KeywordTable} (hp : table.Proper) (k : Keyword) :
    "" ∉ table.spellings k := by
  intro hk
  obtain ⟨c, rest, heq, -⟩ := hp.isName hk
  cases String.toList_empty.symm.trans heq

namespace Lexer

open Text

/-! ## Classes of characters -/

variable {c : Char} {cs : List Char} {p : Char → Bool}

theorem isNameStart_toNat (h : isNameStart c = true) :
    65 ≤ c.toNat ∧ c.toNat ≤ 90 ∨ 97 ≤ c.toNat ∧ c.toNat ≤ 122 ∨ c = '_' := by
  rcases Bool.or_eq_true_iff.1 h with h | h
  · rcases Bool.or_eq_true_iff.1 h with h | h
    · exact .inl (of_decide_eq_true h)
    · exact .inr (.inl ((Bool.and_eq_true_iff.1 h).imp of_decide_eq_true of_decide_eq_true))
  · exact .inr (.inr (of_decide_eq_true h))

theorem isDigit_toNat (h : isDigit c = true) :
    48 ≤ c.toNat ∧ c.toNat ≤ 57 ∨
      128 ≤ c.toNat ∧ ∃ z ∈ digitZeros, z ≤ c.toNat ∧ c.toNat < z + 10 := by
  rw [isDigit, digitValue?] at h
  split at h
  · split at h
    · rename_i hc
      simp only [Bool.and_eq_true, decide_eq_true_eq, Char.le_def, UInt32.le_iff_toNat_le] at hc
      exact .inl hc
    · cases h
  · rename_i hc
    simp only [Option.isSome_map, List.find?_isSome, Bool.and_eq_true, decide_eq_true_eq] at h
    exact .inr ⟨by omega, h⟩

theorem isBlank_toNat (h : isBlank c = true) :
    ∃ r ∈ blankRanges, r.1 ≤ c.toNat ∧ c.toNat ≤ r.2 := by
  simpa [isBlank, Ranges.has] using h

theorem isBlank_of_isNameStart (h : isNameStart c = true) : isBlank c = false := by
  refine Bool.eq_false_iff.2 fun hb => ?_
  obtain ⟨r, hr, hlow, hhigh⟩ := isBlank_toNat hb
  have hranges : ∀ r ∈ blankRanges, r.2 < 65 ∨ 122 < r.1 := by decide
  rcases isNameStart_toNat h with hc | hc | rfl
  · have := hranges r hr
    omega
  · have := hranges r hr
    omega
  · exact absurd hb (by decide)

/-- No range of blanks meets a run of digits. -/
theorem isBlank_of_isDigit (h : isDigit c = true) : isBlank c = false := by
  refine Bool.eq_false_iff.2 fun hb => ?_
  obtain ⟨r, hr, hlow, hhigh⟩ := isBlank_toNat hb
  rcases isDigit_toNat h with hc | ⟨-, z, hz, hc⟩
  · have hranges : ∀ r ∈ blankRanges, r.2 < 48 ∨ 57 < r.1 := by decide
    have := hranges r hr
    omega
  · have hranges : ∀ z ∈ digitZeros, ∀ r ∈ blankRanges, r.2 < z ∨ z + 10 ≤ r.1 := by
      decide
    have := hranges z hz r hr
    omega

theorem isDigit_of_isNameStart (h : isNameStart c = true) : isDigit c = false := by
  refine Bool.eq_false_iff.2 fun hd => ?_
  rcases isNameStart_toNat h with hc | hc | rfl
  · rcases isDigit_toNat hd with hc' | hc' <;> omega
  · rcases isDigit_toNat hd with hc' | hc' <;> omega
  · exact absurd hd (by decide)

theorem isNameStart_of_isDigit (h : isDigit c = true) : isNameStart c = false := by
  refine Bool.eq_false_iff.2 fun hn => ?_
  rw [isDigit_of_isNameStart hn] at h
  cases h

theorem isWord_of_isNameStart (h : isNameStart c = true) : isWord c = true := by
  have hlow : c.toNat < 128 := by
    rcases isNameStart_toNat h with hc | hc | rfl
    · omega
    · omega
    · decide
  rw [isWord, if_pos hlow, Char.isAlphanum]
  rw [isNameStart] at h
  cases hc : c.isAlpha <;> simp_all

theorem IsName.isWord {text : List Char} (h : IsName text) : ∀ c ∈ text, isWord c = true := by
  obtain ⟨c, rest, rfl, hc, hrest⟩ := h
  intro d hd
  rcases List.mem_cons.1 hd with rfl | hd
  · exact isWord_of_isNameStart hc
  · exact hrest d hd

theorem IsName.ne_nil {text : List Char} (h : IsName text) : text ≠ [] := by
  obtain ⟨c, rest, rfl, -⟩ := h
  simp

theorem IsName.getLast_isWord {text : List Char} (h : IsName text) (before : Option Char) :
    (text.getLast?.or before).any Text.isWord = true := by
  obtain ⟨c, hc⟩ := Option.isSome_iff_exists.1 (List.getLast?_isSome.2 h.ne_nil)
  rw [hc]
  exact h.isWord c (List.mem_of_getLast? hc)

theorem takeWhile_append_stop {text : List Char} (htext : ∀ c ∈ text, p c = true)
    (hcs : cs.head?.any p = false) :
    (text ++ cs).takeWhile p = text := by
  rw [List.takeWhile_append_of_pos htext]
  cases cs with
  | nil => simp
  | cons c rest =>
    have hc : p c = false := hcs
    simp [hc]

theorem dropWhile_append_stop {text : List Char} (htext : ∀ c ∈ text, p c = true)
    (hcs : cs.head?.any p = false) :
    (text ++ cs).dropWhile p = cs := by
  have hsplit := List.takeWhile_append_dropWhile (p := p) (l := text ++ cs)
  rw [takeWhile_append_stop htext hcs] at hsplit
  exact List.append_cancel_left hsplit

/-! ## Keywords -/

section
variable {table : KeywordTable} {before : Option Char} {cs text spelling : List Char} {k : Keyword}

theorem spelling_of_keywordRuleOf {n : Nat} (h : (keywordRuleOf table k).matcher before cs = some n) :
    ∃ s ∈ table.spellings k, standsAt before cs s.toList = true ∧ n = s.toList.length := by
  obtain ⟨_, hs, hstands, hn⟩ := wordOf_eq_some h
  obtain ⟨s, hmem, rfl⟩ := List.mem_map.1 hs
  exact ⟨s, mem_longestFirst.1 hmem, hstands, hn⟩

theorem standsAt_eq_true (h : standsAt before cs spelling = true) :
    spelling <+: cs ∧ isBoundary before cs.head? = true ∧
      isBoundary (spelling.getLast?.or before) (cs.drop spelling.length).head? = true := by
  simp only [standsAt, Bool.and_eq_true, List.isPrefixOf_iff_prefix] at h
  exact ⟨h.1.1, h.1.2, h.2⟩

/-- A name stands only between characters that are not part of words. -/
theorem neighbours_of_standsAt {s : List Char} (hs : IsName s) (h : standsAt before cs s = true) :
    before.any isWord = false ∧ ∃ rest, cs = s ++ rest ∧ rest.head?.any isWord = false := by
  obtain ⟨⟨rest, rfl⟩, hbefore, hafter⟩ := standsAt_eq_true h
  rw [isBoundary, hs.getLast_isWord, List.drop_left] at hafter
  refine ⟨?_, rest, rfl, by simpa using hafter⟩
  obtain ⟨c, tail, rfl, hc, -⟩ := hs
  simpa [isBoundary, isWord_of_isNameStart hc] using hbefore

/-- Of all names only the whole word stands at the place of a word. -/
theorem standsAt_iff (hs : IsName spelling) (ht : IsName text) (hb : before.any isWord = false)
    (hcs : cs.head?.any isWord = false) :
    standsAt before (text ++ cs) spelling = true ↔ spelling = text := by
  constructor
  · intro h
    obtain ⟨hbegins, -, hafter⟩ := standsAt_eq_true h
    rw [isBoundary, hs.getLast_isWord] at hafter
    obtain hlen | hlen | hlen := Nat.lt_trichotomy spelling.length text.length
    · -- The character behind the shorter spelling is in the word.
      rw [List.drop_append_of_le_length (Nat.le_of_lt hlen),
        List.drop_eq_getElem_cons hlen, List.cons_append, List.head?_cons] at hafter
      simp [ht.isWord _ (List.getElem_mem hlen)] at hafter
    · exact List.IsPrefix.eq_of_length
        (List.prefix_of_prefix_length_le hbegins (List.prefix_append ..) (Nat.le_of_eq hlen)) hlen
    · -- The longer spelling takes in the character behind the word.
      obtain ⟨rest, rfl⟩ := List.prefix_of_prefix_length_le (List.prefix_append text cs) hbegins
        (Nat.le_of_lt hlen)
      obtain ⟨after, heq⟩ := hbegins
      rw [List.append_assoc, List.append_cancel_left_eq] at heq
      cases rest with
      | nil => simp at hlen
      | cons c rest =>
        rw [← heq] at hcs
        have hc := hs.isWord c (by simp)
        simp [hc] at hcs
  · rintro rfl
    obtain ⟨c, rest, heq, hc, -⟩ := hs
    have hstart : ((spelling ++ cs).head?).any isWord = true := by
      rw [heq]
      exact isWord_of_isNameStart hc
    simp only [standsAt, isBoundary, hb, hstart, ht.getLast_isWord, List.drop_left, hcs]
    simp

theorem standsAt_unique {s s' : List Char} (hs : IsName s) (hs' : IsName s')
    (h : standsAt before cs s = true) (h' : standsAt before cs s' = true) : s = s' := by
  obtain ⟨hb, rest, rfl, hrest⟩ := neighbours_of_standsAt hs h
  exact ((standsAt_iff hs' hs hb hrest).1 h').symm

/-- At most one keyword stands at a place. -/
theorem keyword_unique (hp : table.Proper) {k k' : Keyword} {n n' : Nat}
    (h : (keywordRuleOf table k).matcher before cs = some n)
    (h' : (keywordRuleOf table k').matcher before cs = some n') : k = k' ∧ n = n' := by
  obtain ⟨s, hs, hstands, rfl⟩ := spelling_of_keywordRuleOf h
  obtain ⟨s', hs', hstands', rfl⟩ := spelling_of_keywordRuleOf h'
  have heq := standsAt_unique (hp.isName hs) (hp.isName hs') hstands hstands'
  obtain rfl := String.toList_inj.1 heq
  exact ⟨hp.distinct hs hs', rfl⟩

/-- The rule of a keyword matches the spelling that stands at a place. -/
theorem keywordRuleOf_of_standsAt (hp : table.Proper) {s : String} (hs : s ∈ table.spellings k)
    (h : standsAt before cs s.toList = true) :
    (keywordRuleOf table k).matcher before cs = some s.toList.length := by
  cases hm : (keywordRuleOf table k).matcher before cs with
  | none =>
    have hfind := List.find?_eq_none.1 (Option.map_eq_none_iff.1 hm)
    exact absurd h (hfind _ (List.mem_map_of_mem (mem_longestFirst.2 hs)))
  | some n =>
    obtain ⟨s', hs', hstands, rfl⟩ := spelling_of_keywordRuleOf hm
    rw [standsAt_unique (hp.isName hs) (hp.isName hs') h hstands]

theorem identifier_append (ht : IsName text) (hcs : cs.head?.any isWord = false) :
    identifier before (text ++ cs) = some text.length := by
  obtain ⟨c, rest, rfl, hc, hrest⟩ := ht
  rw [List.cons_append, identifier, if_pos hc, takeWhile_append_stop hrest hcs, List.length_cons,
    Nat.add_comm]

/-- Where a keyword stands, a name of the same length could be read. -/
theorem identifier_of_keyword (hp : table.Proper) {n : Nat}
    (h : (keywordRuleOf table k).matcher before cs = some n) : identifier before cs = some n := by
  obtain ⟨s, hs, hstands, rfl⟩ := spelling_of_keywordRuleOf h
  obtain ⟨-, rest, rfl, hrest⟩ := neighbours_of_standsAt (hp.isName hs) hstands
  exact identifier_append (hp.isName hs) hrest

theorem readBack_of_isName {text : List Char} (h : IsName text) : Keyword.readBack text = text := by
  have hword := h.isWord
  clear h
  fun_induction Keyword.readBack text with
  | case1 => rfl
  | case2 rest => exact absurd (hword '\r' List.mem_cons_self) (by decide)
  | case3 rest => exact absurd (hword '\\' List.mem_cons_self) (by decide)
  | case4 c rest _ _ ih => rw [ih fun d hd => hword d (List.mem_cons_of_mem c hd)]

theorem keywordRule_spellings (hp : table.Proper) (k : Keyword) :
    keywordRule k (Grammar.spellings table k) = keywordRuleOf table k := by
  rw [keywordRuleOf, Grammar.spellings]
  congr 1
  apply List.map_congr_left
  intro s hs
  exact readBack_of_isName (hp.isName (mem_longestFirst.1 hs))

theorem mem_insertKeyword {j k : Keyword} {list : List Keyword} :
    j ∈ Grammar.insertKeyword table k list ↔ j = k ∨ j ∈ list := by
  induction list with
  | nil => simp [Grammar.insertKeyword]
  | cons i rest ih =>
    rw [Grammar.insertKeyword]
    split
    · exact List.mem_cons
    · rw [List.mem_cons, ih, List.mem_cons, or_left_comm]

theorem mem_keywordOrder (table : KeywordTable) (k : Keyword) : k ∈ Grammar.keywordOrder table := by
  have h : ∀ (list sorted : List Keyword), k ∈ list.foldl
      (fun sorted j => Grammar.insertKeyword table j sorted) sorted ↔ k ∈ list ∨ k ∈ sorted := by
    intro list
    induction list with
    | nil => simp
    | cons j rest ih =>
      intro sorted
      rw [List.foldl_cons, ih, mem_insertKeyword, List.mem_cons, or_assoc, or_left_comm]
  exact (h Keyword.all []).2 (.inl (by cases k <;> decide))

/-- Which rules drop their match, and which make keywords, names and numerals. -/
theorem rule_of_type {r : Rule} (hr : r ∈ rules table) :
    (r.type = none → r ∈ droppedRules) ∧
      (∀ k, r.type = some (.keyword k) → r = keywordRuleOf table k) ∧
      (r.type = some .identifier → r.matcher = identifier) ∧
      (r.type = some .number → r.matcher = number) := by
  simp only [rules, List.mem_append, List.mem_map] at hr
  rcases hr with ((hr | hr) | ⟨k, -, rfl⟩) | hr
  · refine ⟨fun _ => hr, ?_⟩
    simp only [droppedRules, List.mem_cons, List.not_mem_nil, or_false] at hr
    rcases hr with rfl | rfl | rfl <;> refine ⟨fun k ht => ?_, fun ht => ?_, fun ht => ?_⟩ <;> cases ht
  · simp only [punctuationRules, List.mem_cons, List.not_mem_nil, or_false] at hr
    rcases hr with rfl | rfl | rfl | rfl | rfl | rfl <;>
      refine ⟨fun ht => ?_, fun k ht => ?_, fun ht => ?_, fun ht => ?_⟩ <;> cases ht
  · refine ⟨fun ht => ?_, fun k' ht => ?_, fun ht => ?_, fun ht => ?_⟩
    · cases ht
    · cases ht
      rfl
    · cases ht
    · cases ht
  · simp only [otherRules, List.mem_cons, List.not_mem_nil, or_false] at hr
    rcases hr with rfl | rfl | rfl | rfl | rfl | rfl | rfl | rfl | rfl | rfl | rfl | rfl | rfl <;>
      refine ⟨fun ht => ?_, fun k ht => ?_, fun ht => ?_, fun ht => ?_⟩ <;> first | rfl | cases ht

end

/-! ## Profiles of rules -/

/-- The rules that are not about keywords. -/
def symbolRules : List Rule :=
  droppedRules ++ punctuationRules ++ otherRules

/-- One character for all blanks, one for all digits and one for all letters. The others stand for
themselves. -/
def standIn (c : Char) : Char :=
  if isBlank c then ' ' else if isDigit c then '0' else if isNameStart c then 'a' else c

/-- How long a match is: one character, or more of which the second is given. -/
inductive Extent where
  | one
  | more (second : Char)
  | any
deriving DecidableEq

def Extent.Holds (rest : List Char) (n : Nat) : Extent → Prop
  | .one => n = 1
  | .more second => rest.head? = some second ∧ 2 ≤ n
  | .any => True

/-- The matches start with certain characters and have a certain extent. -/
def Begins (m : Matcher) (leads : List Char) (extent : Extent) : Prop :=
  ∀ before cs n, m before cs = some n → ∃ c rest, cs = c :: rest ∧ standIn c ∈ leads ∧ extent.Holds rest n

section
variable {leads : List Char} {p : Char → Bool}

theorem begins_run : Begins (run isBlank) [' '] .any := by
  intro before cs n hm
  obtain ⟨hpos, rfl⟩ := run_eq_some hm
  cases cs with
  | nil => cases hpos
  | cons c rest =>
    have hc : isBlank c = true := by
      by_contra hc
      simp [hc] at hpos
    exact ⟨c, rest, rfl, by simp [standIn, hc], trivial⟩

theorem begins_lineComment : Begins lineComment ['/'] (.more '/') := by
  intro before cs n hm
  unfold lineComment at hm
  split at hm
  · cases hm
    exact ⟨'/', _, rfl, by decide, rfl, Nat.le_add_right ..⟩
  · cases hm

theorem begins_blockComment : Begins blockComment ['/'] (.more '*') := by
  intro before cs n hm
  unfold blockComment at hm
  split at hm
  · obtain ⟨m, -, rfl⟩ := Option.map_eq_some_iff.1 hm
    exact ⟨'/', _, rfl, by decide, rfl, Nat.le_add_left ..⟩
  · cases hm

theorem begins_one (hleads : leads.map standIn = leads) (h : ∀ c, p c = true → c ∈ leads) :
    Begins (one p) leads .one := by
  intro before cs n hm
  obtain ⟨c, rest, rfl, hc, rfl⟩ := one_eq_some hm
  exact ⟨c, rest, rfl, hleads ▸ List.mem_map_of_mem (h c hc), rfl⟩

theorem begins_withEquals (hleads : leads.map standIn = leads) (h : ∀ c, p c = true → c ∈ leads) :
    Begins (withEquals p) leads (.more '=') := by
  intro before cs n hm
  obtain ⟨c, rest, rfl, hc, rfl⟩ := withEquals_eq_some hm
  exact ⟨c, _, rfl, hleads ▸ List.mem_map_of_mem (h c hc), rfl, Nat.le_refl 2⟩

theorem begins_comparison : Begins comparison ['<', '>'] .any := by
  intro before cs n hm
  obtain ⟨c, rest, rfl, rfl | rfl, -⟩ := comparison_eq_some hm
  · exact ⟨_, rest, rfl, by decide, trivial⟩
  · exact ⟨_, rest, rfl, by decide, trivial⟩

theorem begins_exactly {c : Char} (hc : standIn c ∈ leads) (rest : List Char) :
    Begins (exactly (c :: rest)) leads .any := by
  intro before cs n hm
  obtain ⟨tail, rfl, -⟩ := exactly_eq_some hm
  exact ⟨c, _, rfl, hc, trivial⟩

theorem begins_quotedBy {quote : Char} (hc : standIn quote ∈ leads) : Begins (quotedBy quote) leads .any := by
  intro before cs n hm
  obtain ⟨body, rest, rfl, -⟩ := quotedBy_eq_some hm
  exact ⟨quote, _, rfl, hc, trivial⟩

theorem begins_number : Begins number ['0'] .any := by
  intro before cs n hm
  obtain ⟨c, whole, rest, hwhole, rfl, -⟩ := number_eq_some hm
  have hc : isDigit c = true := List.mem_takeWhile_imp (hwhole ▸ List.mem_cons_self)
  exact ⟨c, _, rfl, by simp [standIn, hc, isBlank_of_isDigit hc], trivial⟩

theorem standIn_of_isNameStart {c : Char} (hc : isNameStart c = true) : standIn c = 'a' := by
  simp [standIn, hc, isBlank_of_isNameStart hc, isDigit_of_isNameStart hc]

theorem begins_identifier : Begins identifier ['a'] .any := by
  intro before cs n hm
  obtain ⟨c, rest, rfl, hc, -⟩ := identifier_eq_some hm
  exact ⟨c, rest, rfl, List.mem_singleton.2 (standIn_of_isNameStart hc), trivial⟩

end

/-- The type of a rule and what is known of its matches. -/
structure Profile where
  type : Option TokenType
  leads : List Char
  extent : Extent

def Profile.Describes (p : Profile) (r : Rule) : Prop :=
  r.type = p.type ∧ Begins r.matcher p.leads p.extent

def profiles : List Profile :=
  [⟨none, [' '], .any⟩, ⟨none, ['/'], .more '/'⟩, ⟨none, ['/'], .more '*'⟩,
   ⟨some .semi, [';'], .one⟩, ⟨some .curlyEnd, ['}'], .one⟩, ⟨some .curlyStart, ['{'], .one⟩,
   ⟨some .parenStart, ['('], .one⟩, ⟨some .parenEnd, [')'], .one⟩, ⟨some .comma, [','], .one⟩,
   ⟨some .number, ['0'], .any⟩, ⟨some .identifier, ['a'], .any⟩,
   ⟨some .equality, ['=', '!'], .more '='⟩, ⟨some .simpleAssignment, ['='], .one⟩,
   ⟨some .complexAssignment, ['*', '/', '+', '-'], .more '='⟩,
   ⟨some .additive, ['+', '-'], .one⟩, ⟨some .multiplicative, ['*', '/'], .one⟩,
   ⟨some .relational, ['<', '>'], .any⟩,
   ⟨some .logicalAnd, ['&'], .any⟩, ⟨some .logicalOr, ['|'], .any⟩, ⟨some .logicalNot, ['!'], .one⟩,
   ⟨some .string, ['"'], .any⟩, ⟨some .string, ['\''], .any⟩]

theorem symbols_described : List.Forall₂ (fun r p => p.Describes r) symbolRules profiles := by
  have hmark (type : Option TokenType) (mark : Char) (h : standIn mark = mark) :
      Profile.Describes ⟨type, [mark], .one⟩ ⟨type, one (· = mark)⟩ :=
    ⟨rfl, begins_one (congrArg (· :: []) h) (by simp)⟩
  exact .cons ⟨rfl, begins_run⟩ <| .cons ⟨rfl, begins_lineComment⟩ <| .cons ⟨rfl, begins_blockComment⟩ <|
    .cons (hmark _ ';' (by decide)) <| .cons (hmark _ '}' (by decide)) <|
    .cons (hmark _ '{' (by decide)) <| .cons (hmark _ '(' (by decide)) <|
    .cons (hmark _ ')' (by decide)) <| .cons (hmark _ ',' (by decide)) <|
    .cons ⟨rfl, begins_number⟩ <| .cons ⟨rfl, begins_identifier⟩ <|
    .cons ⟨rfl, begins_withEquals (by decide) (by simp)⟩ <| .cons (hmark _ '=' (by decide)) <|
    .cons ⟨rfl, begins_withEquals (by decide) (by simp [or_assoc])⟩ <|
    .cons ⟨rfl, begins_one (by decide) (by simp)⟩ <| .cons ⟨rfl, begins_one (by decide) (by simp)⟩ <|
    .cons ⟨rfl, begins_comparison⟩ <| .cons ⟨rfl, begins_exactly (by decide) _⟩ <|
    .cons ⟨rfl, begins_exactly (by decide) _⟩ <| .cons (hmark _ '!' (by decide)) <|
    .cons ⟨rfl, begins_quotedBy (by decide)⟩ <| .cons ⟨rfl, begins_quotedBy (by decide)⟩ .nil

/-! ## Ranks -/

/-- The length of the longest text that the rules of a type match, apart from keywords. -/
def width : Option TokenType → ℕ∞
  | none | some .number | some .identifier | some .string => ⊤
  | some .equality | some .complexAssignment | some .relational | some .logicalAnd | some .logicalOr => 2
  | _ => 1

/-- Keywords have priority; among others, and among keywords, the rules for longer texts come first. -/
def rank (table : KeywordTable) : Option TokenType → ℕ ×ₗ ℕ∞
  | some (.keyword k) => toLex (2, ((table.spellings k).foldr (fun s n => max s.length n) 0 : Nat))
  | type => toLex (0, width type)

/-- Where both rules match, the first is the higher one and its match is longer, or it is a keyword in
place of a name. -/
def Outranks (table : KeywordTable) (c : Cursor) (r r' : Rule) : Prop :=
  ∀ n n', r.matcher c.before c.rest = some n → r'.matcher c.before c.rest = some n' → r' = r ∨
    rank table r'.type < rank table r.type ∧
      (n' < n ∨ n' = n ∧ (∃ k, r.type = some (.keyword k)) ∧ r'.type = some .identifier)

/-- Two rules do not match at one place, or the first is the wider one and its match is longer. -/
def Profile.Apart (p q : Profile) : Bool :=
  p.leads.all (· ∉ q.leads) ||
    match p.extent, q.extent with
    | .more second, .more second' => second != second'
    | .more _, .one => decide (width q.type < width p.type)
    | _, _ => false

theorem profiles_apart : profiles.Pairwise fun p q => p.Apart q = true := by
  decide

section
variable {table : KeywordTable} {before : Option Char} {cs : List Char} {r : Rule} {k : Keyword} {n n' : Nat}
  {type : Option TokenType} {c : Cursor}

theorem rank_of_not_keyword (h : ∀ k, type ≠ some (.keyword k)) :
    rank table type = toLex (0, width type) := by
  unfold rank
  split
  · exact absurd rfl (h _)
  · rfl

theorem rank_lt_keyword (h : ∀ k, type ≠ some (.keyword k)) :
    rank table type < rank table (some (.keyword k)) := by
  rw [rank_of_not_keyword h, rank]
  exact Prod.Lex.toLex_lt_toLex.2 (.inl Nat.two_pos)

theorem keyword_of_rank (h : toLex (0, ⊤) < rank table type) : ∃ k, type = some (.keyword k) := by
  by_contra hne
  rw [rank_of_not_keyword (not_exists.1 hne), Prod.Lex.toLex_lt_toLex] at h
  rcases h with h | ⟨-, h⟩
  · exact absurd h (Nat.lt_irrefl 0)
  · exact not_top_lt h

theorem mem_rules : r ∈ rules table ↔ r ∈ symbolRules ∨ ∃ k, keywordRuleOf table k = r := by
  have hall : ∀ k, k ∈ Keyword.all := fun k => by cases k <;> decide
  simp only [rules, symbolRules, List.mem_append, List.mem_map, hall, true_and]
  rw [or_right_comm]

theorem symbolRules_eq_map : symbolRules = (symbolRules.zip profiles).map Prod.fst :=
  rfl

theorem exists_profile (hr : r ∈ symbolRules) : ∃ p ∈ profiles, p.Describes r := by
  rw [symbolRules_eq_map] at hr
  obtain ⟨⟨r, p⟩, hmem, rfl⟩ := List.mem_map.1 hr
  exact ⟨p, (List.of_mem_zip hmem).2, List.forall₂_zip symbols_described hmem⟩

theorem symbols_not_keyword (hr : r ∈ symbolRules) (k : Keyword) : r.type ≠ some (.keyword k) := by
  simp only [symbolRules, droppedRules, punctuationRules, otherRules, List.cons_append, List.nil_append] at hr
  fin_cases hr <;> simp

/-- Of the rules that are not about keywords, only that of names matches where a name starts. -/
theorem identifier_of_symbol (hr : r ∈ symbolRules) (hm : r.matcher before cs = some n)
    (hid : identifier before cs = some n') : r.type = some .identifier ∧ n = n' := by
  obtain ⟨p, hp, htype, hbegins⟩ := exists_profile hr
  obtain ⟨c, rest, rfl, hlead, -⟩ := hbegins _ _ _ hm
  obtain ⟨_, _, heq, hc, -⟩ := identifier_eq_some hid
  cases heq
  rw [standIn_of_isNameStart hc] at hlead
  have hleads : ∀ p ∈ profiles, 'a' ∈ p.leads → p.type = some .identifier := by decide
  have htype := htype.trans (hleads p hp hlead)
  have hmem : r ∈ rules .default := mem_rules.2 (.inl hr)
  rw [(rule_of_type hmem).2.2.1 htype] at hm
  exact ⟨htype, Option.some.inj (hm.symm.trans hid)⟩

theorem Profile.Apart.outranks {p q : Profile} {r' : Rule} (h : p.Apart q = true) (hr : p.Describes r)
    (hr' : q.Describes r') (hrank : rank table r'.type < rank table r.type ↔ width q.type < width p.type) :
    Outranks table c r r' := by
  intro n n' hm hm'
  obtain ⟨d, rest, hcs, hlead, hextent⟩ := hr.2 _ _ _ hm
  obtain ⟨_, _, hcs', hlead', hextent'⟩ := hr'.2 _ _ _ hm'
  cases hcs.symm.trans hcs'
  rcases Bool.or_eq_true_iff.1 h with hleads | hextents
  · exact absurd hlead' (by simpa using List.all_eq_true.1 hleads _ hlead)
  · split at hextents
    · rename_i hp hq
      rw [hp] at hextent
      rw [hq] at hextent'
      exact absurd (Option.some.inj (hextent.1.symm.trans hextent'.1)) (bne_iff_ne.1 hextents)
    · rename_i hp hq
      rw [hp] at hextent
      rw [hq] at hextent'
      exact .inr ⟨hrank.2 (of_decide_eq_true hextents), .inl (hextent' ▸ hextent.2)⟩
    · cases hextents

theorem symbols_ranked (table : KeywordTable) (c : Cursor) : symbolRules.Pairwise (Outranks table c) := by
  have hapart : (symbolRules.zip profiles).Pairwise fun x y => x.2.Apart y.2 = true :=
    (List.pairwise_map (f := Prod.snd) (R := fun p q => Profile.Apart p q = true)).1 profiles_apart
  rw [symbolRules_eq_map, List.pairwise_map]
  refine hapart.imp_of_mem fun {x y} hx hy h => ?_
  have hx' := List.forall₂_zip symbols_described hx
  have hy' := List.forall₂_zip symbols_described hy
  refine Profile.Apart.outranks h hx' hy' ?_
  rw [rank_of_not_keyword (symbols_not_keyword (List.of_mem_zip hx).1),
    rank_of_not_keyword (symbols_not_keyword (List.of_mem_zip hy).1), hx'.1, hy'.1, Prod.Lex.toLex_lt_toLex]
  simp

theorem keyword_outranks (hp : table.Proper) (k : Keyword) (hr : r ∈ symbolRules) :
    Outranks table c (keywordRuleOf table k) r := by
  intro n n' hm hm'
  obtain ⟨htype, rfl⟩ := identifier_of_symbol hr hm' (identifier_of_keyword hp hm)
  exact .inr ⟨rank_lt_keyword (symbols_not_keyword hr), .inr ⟨rfl, ⟨k, rfl⟩, htype⟩⟩

theorem outranks_keyword (hp : table.Proper) (k : Keyword) (hr : r ∈ droppedRules ++ punctuationRules) :
    Outranks table c r (keywordRuleOf table k) := by
  intro n n' hm hm'
  have hid := identifier_of_symbol (List.mem_append_left _ hr) hm (identifier_of_keyword hp hm')
  have htypes : ∀ r ∈ droppedRules ++ punctuationRules, r.type ≠ some .identifier := by decide
  exact absurd hid.1 (htypes r hr)

theorem keywords_ranked (hp : table.Proper) (order : List Keyword) :
    (order.map (keywordRuleOf table)).Pairwise (Outranks table c) := by
  refine List.pairwise_map.2 (List.pairwise_of_forall fun k k' n n' hm hm' => .inl ?_)
  rw [(keyword_unique hp hm hm').1]

theorem rules_ranked (hp : table.Proper) (c : Cursor) : (rules table).Pairwise (Outranks table c) := by
  obtain ⟨hfirst, hother, hacross⟩ := List.pairwise_append.1 (symbols_ranked table c)
  refine List.pairwise_append.2 ⟨List.pairwise_append.2 ⟨hfirst, keywords_ranked hp _, fun r hr _ hk => ?_⟩,
    hother, fun r hr r' hr' => ?_⟩
  · obtain ⟨k, -, rfl⟩ := List.mem_map.1 hk
    exact outranks_keyword hp k hr
  · rcases List.mem_append.1 hr with hr | hk
    · exact hacross r hr r' hr'
    · obtain ⟨k, -, rfl⟩ := List.mem_map.1 hk
      exact keyword_outranks hp k (List.mem_append_right _ hr')

/-! ## The first match -/

/-- The first match, if the rules are in an order. -/
theorem exists_of_firstMatch {R : Rule → Rule → Prop} {list : List Rule} {n : Nat} (h : list.Pairwise R)
    (hm : firstMatch list c = some (type, n)) : ∃ r ∈ list, r.type = type ∧
      r.matcher c.before c.rest = some n ∧
      ∀ r' ∈ list, ∀ n', r'.matcher c.before c.rest = some n' → r' = r ∨ R r r' := by
  obtain ⟨front, r, back, rfl, hfound, hnone⟩ := List.findSome?_eq_some_iff.1 hm
  obtain ⟨_, hr, heq⟩ := Option.map_eq_some_iff.1 hfound
  cases heq
  refine ⟨r, by simp, rfl, hr, fun r' hr' n' hm' => ?_⟩
  rcases List.mem_append.1 hr' with hfront | hback
  · cases hm'.symm.trans (Option.map_eq_none_iff.1 (hnone r' hfront))
  · have hlater := (List.pairwise_cons.1 (List.pairwise_append.1 h).2.1).1
    exact (List.mem_cons.1 hback).imp_right (hlater r')

theorem firstMatch_isSome {list : List Rule} (hr : r ∈ list) (hm : r.matcher c.before c.rest = some n) :
    ∃ type n, firstMatch list c = some (type, n) := by
  have hsome : (firstMatch list c).isSome := List.findSome?_isSome_iff.2 ⟨r, hr, by rw [hm]; rfl⟩
  obtain ⟨⟨type, n⟩, h⟩ := Option.isSome_iff_exists.1 hsome
  exact ⟨type, n, h⟩

/-- Any order of the rules in which higher ones come first gives the same first match. -/
theorem firstMatch_eq_of_ranked {list list' : List Rule} (hmem : ∀ r, r ∈ list' ↔ r ∈ list)
    (h : list.Pairwise (Outranks table c))
    (h' : list'.Pairwise fun r r' => Outranks table c r r' ∨ rank table r'.type ≤ rank table r.type) :
    firstMatch list' c = firstMatch list c := by
  cases hm : firstMatch list' c with
  | none =>
    rw [firstMatch, List.findSome?_eq_none_iff] at hm
    exact (List.findSome?_eq_none_iff.2 fun r hr => hm r ((hmem r).2 hr)).symm
  | some found =>
    obtain ⟨type, n⟩ := found
    obtain ⟨r', hr', rfl, hn', hlater'⟩ := exists_of_firstMatch h' hm
    obtain ⟨type, n, hm⟩ := firstMatch_isSome ((hmem r').1 hr') hn'
    obtain ⟨r, hr, rfl, hn, hlater⟩ := exists_of_firstMatch h hm
    obtain rfl : r' = r := by
      rcases hlater r' ((hmem r').1 hr') _ hn' with heq | hlower
      · exact heq
      rcases hlower _ _ hn hn' with heq | ⟨hlower, -⟩
      · exact heq
      rcases hlater' r ((hmem r).2 hr) _ hn with heq | hhigher | hhigher
      · exact heq.symm
      · exact (hhigher _ _ hn' hn).elim Eq.symm fun h => absurd hlower h.1.asymm
      · exact absurd hlower hhigher.not_gt
    rw [hm, Option.some.inj (hn'.symm.trans hn)]

/-- A keyword is the first match where it stands, and a rule for texts of any length where no keyword does. -/
theorem firstMatch_of_rank (hp : table.Proper) (hr : r ∈ rules table)
    (hm : r.matcher c.before c.rest = some n)
    (hrank : toLex (0, ⊤) ≤ rank table r.type)
    (hk : ∀ k n', (keywordRuleOf table k).matcher c.before c.rest = some n' → keywordRuleOf table k = r) :
    firstMatch (rules table) c = some (r.type, n) := by
  obtain ⟨type, n', hfirst⟩ := firstMatch_isSome hr hm
  obtain ⟨r', hr', rfl, hn', hlater⟩ := exists_of_firstMatch (rules_ranked hp c) hfirst
  obtain rfl : r = r' := by
    rcases hlater r hr _ hm with heq | hlower
    · exact heq
    rcases hlower _ _ hn' hm with heq | ⟨hlower, -⟩
    · exact heq
    obtain ⟨k, htype⟩ := keyword_of_rank (hrank.trans_lt hlower)
    obtain rfl := (rule_of_type hr').2.1 k htype
    exact (hk k n' hn').symm
  rw [hfirst, Option.some.inj (hn'.symm.trans hm)]

theorem lexerRules_eq (hp : table.Proper) : Grammar.lexerRules table =
    (Grammar.keywordOrder table).map (keywordRuleOf table) ++ symbolRules := by
  have hrules : (fun k => keywordRule k (Grammar.spellings table k)) = keywordRuleOf table :=
    funext (keywordRule_spellings hp)
  simp [Grammar.lexerRules, hrules, symbolRules]

theorem mem_lexerRules (hp : table.Proper) : r ∈ Grammar.lexerRules table ↔ r ∈ rules table := by
  rw [lexerRules_eq hp, mem_rules, List.mem_append, List.mem_map, or_comm]
  simp only [mem_keywordOrder, true_and]

/-- Both parsers find the same at every place. -/
theorem firstMatch_lexerRules (hp : table.Proper) (c : Cursor) :
    firstMatch (Grammar.lexerRules table) c = firstMatch (rules table) c := by
  refine firstMatch_eq_of_ranked (fun r => mem_lexerRules hp) (rules_ranked hp c)
    (List.Pairwise.imp Or.inl ?_)
  rw [lexerRules_eq hp]
  refine List.pairwise_append.2 ⟨keywords_ranked hp _, symbols_ranked table c, fun _ hk r hr => ?_⟩
  obtain ⟨k, -, rfl⟩ := List.mem_map.1 hk
  exact keyword_outranks hp k hr

/-- At every place the first match is a longest one, and only a name can be as long as a keyword there. So the
same is matched first in the order of the other parser, and in any order by priority and width. -/
theorem firstMatch_longest (hp : table.Proper) (c : Cursor) :
    (∀ r ∈ rules table, ∀ n, r.matcher c.before c.rest = some n →
      ∃ first ∈ rules table, ∃ longest, first.matcher c.before c.rest = some longest ∧
        firstMatch (rules table) c = some (first.type, longest) ∧ n ≤ longest ∧
        (n = longest → r = first ∨
          (∃ k, first.type = some (.keyword k)) ∧ r.type = some .identifier)) ∧
      firstMatch (Grammar.lexerRules table) c = firstMatch (rules table) c ∧
      ∀ order : List Rule, (∀ r, r ∈ order ↔ r ∈ Grammar.lexerRules table) →
        order.Pairwise (fun r r' => rank table r'.type ≤ rank table r.type) →
        firstMatch order c = firstMatch (rules table) c := by
  refine ⟨fun r hr n hm => ?_, firstMatch_lexerRules hp c, fun order hmem horder => ?_⟩
  · obtain ⟨_, longest, hfirst⟩ := firstMatch_isSome hr hm
    obtain ⟨first, hmem, rfl, hlongest, hlater⟩ := exists_of_firstMatch (rules_ranked hp c) hfirst
    refine ⟨first, hmem, longest, hlongest, hfirst, ?_⟩
    rcases hlater r hr n hm with rfl | hlower
    · exact ⟨Nat.le_of_eq (Option.some.inj (hm.symm.trans hlongest)), fun _ => .inl rfl⟩
    rcases hlower _ _ hlongest hm with rfl | ⟨-, hlt | ⟨rfl, hkinds⟩⟩
    · exact ⟨Nat.le_of_eq (Option.some.inj (hm.symm.trans hlongest)), fun _ => .inl rfl⟩
    · exact ⟨Nat.le_of_lt hlt, fun heq => absurd heq (Nat.ne_of_lt hlt)⟩
    · exact ⟨Nat.le_refl n, fun _ => .inr hkinds⟩
  · exact firstMatch_eq_of_ranked (fun r => (hmem r).trans (mem_lexerRules hp)) (rules_ranked hp c)
      (horder.imp Or.inr)

/-- A comment is longer than the operators that it could start with, in whichever order. -/
theorem firstMatch_longest_comment :
    let c : Cursor := ⟨none, 0, ['/', '/', '=']⟩
    KeywordTable.default.Proper ∧ firstMatch (rules .default) c = some (none, 3) ∧
      ∃ order : List Rule, (∀ r, r ∈ order ↔ r ∈ Grammar.lexerRules .default) ∧
        order.Pairwise (fun r r' => rank .default r'.type ≤ rank .default r.type) ∧
        firstMatch order c = some (none, 3) := by
  intro c
  have hfirst : firstMatch (rules .default) c = some (none, 3) := by decide
  let higher (r r' : Rule) : Bool := decide (rank .default r'.type ≤ rank .default r.type)
  have horder : ((Grammar.lexerRules .default).mergeSort higher).Pairwise
      (fun r r' => rank .default r'.type ≤ rank .default r.type) := by
    have hsorted := @List.pairwise_mergeSort _ higher (fun a b c hab hbc => ?_) (fun a b => ?_)
      (Grammar.lexerRules .default)
    · exact hsorted.imp of_decide_eq_true
    · exact decide_eq_true ((of_decide_eq_true hbc).trans (of_decide_eq_true hab))
    · simpa [higher] using le_total _ _
  refine ⟨KeywordTable.default_proper, hfirst, _, fun r => List.mem_mergeSort, horder, ?_⟩
  rw [(firstMatch_longest KeywordTable.default_proper c).2.2 _ (fun r => List.mem_mergeSort) horder, hfirst]

end

end Lexer

end Scriptlet
