import Mathlib.Data.List.TakeWhile
import Scriptlet.Proofs.ParserSound

/-!
What cutting a text into tokens gives. `Scans` says that the tokens between two places are found one
after the other, each by the first rule that matches; `scans_of_scan` and `scan_of_scans` say that the
lexer gets to the end of a text with some tokens exactly if they are found so. `Shape` says what the
text of a token of each type looks like.
-/

namespace Scriptlet.Lexer

open Text

/-! ## The texts that the rules match -/

/-- A letter or underscore and word characters. -/
def IsName (text : List Char) : Prop :=
  ∃ c rest, text = c :: rest ∧ isNameStart c = true ∧ ∀ d ∈ rest, isWord d = true

theorem isName_iff {text : List Char} :
    IsName text ↔ text.head?.any isNameStart = true ∧ text.tail.all isWord = true := by
  cases text with
  | nil => simp [IsName]
  | cons c rest =>
    rw [List.head?_cons, List.tail_cons, Option.any_some, List.all_eq_true]
    constructor
    · rintro ⟨_, _, heq, hc, hrest⟩
      cases heq
      exact ⟨hc, hrest⟩
    · rintro ⟨hc, hrest⟩
      exact ⟨c, rest, rfl, hc, hrest⟩

instance : DecidablePred IsName := fun _ => decidable_of_iff _ isName_iff.symm

/-- Text between two quotation marks on one line. -/
def IsQuoted (text : List Char) : Prop :=
  ∃ quote body, (quote = '"' ∨ quote = '\'') ∧ text = quote :: (body ++ [quote]) ∧
    quote ∉ body ∧ '\n' ∉ body

/-- The text of a token of a type, for a table of keywords. -/
def Shape (table : KeywordTable) (text : List Char) : TokenType → Prop
  | .keyword k => String.ofList text ∈ table.spellings k
  | .semi => text = [';']
  | .curlyStart => text = ['{']
  | .curlyEnd => text = ['}']
  | .parenStart => text = ['(']
  | .parenEnd => text = [')']
  | .comma => text = [',']
  | .number => ∃ c rest, text = c :: rest ∧ isDigit c = true ∧ ∀ d ∈ rest, isDigit d = true ∨ d = '.'
  | .identifier => IsName text
  | .string => IsQuoted text
  | .endOfInput => False
  | type => String.ofList text ∈ type.operators

theorem shape_of_mem_operators {table : KeywordTable} {text : List Char} {type : TokenType}
    (h : String.ofList text ∈ type.operators) : Shape table text type := by
  cases type <;> first | exact h | cases h

/-- Only a keyword could be without text. -/
theorem not_shape_nil {table : KeywordTable} (h : ∀ k, "" ∉ table.spellings k) (type : TokenType) :
    ¬ Shape table [] type := by
  cases type <;> simp [Shape, IsName, IsQuoted, TokenType.operators, h]

theorem mem_insertByLength {s t : String} {list : List String} :
    t ∈ Keyword.insertByLength s list ↔ t = s ∨ t ∈ list := by
  induction list with
  | nil => simp [Keyword.insertByLength]
  | cons u rest ih =>
    rw [Keyword.insertByLength]
    split
    · rw [List.mem_cons, ih, List.mem_cons, or_left_comm]
    · exact List.mem_cons

theorem mem_longestFirst {t : String} {list : List String} :
    t ∈ Keyword.longestFirst list ↔ t ∈ list := by
  have h : ∀ sorted, t ∈ list.foldl (fun sorted s => Keyword.insertByLength s sorted) sorted ↔
      t ∈ list ∨ t ∈ sorted := by
    induction list with
    | nil => simp
    | cons s rest ih =>
      intro sorted
      rw [List.foldl_cons, ih, mem_insertByLength, List.mem_cons, or_left_comm, or_assoc]
  simpa [Keyword.longestFirst] using h []

theorem length_takeWhile_le (p : Char → Bool) (cs : List Char) :
    (cs.takeWhile p).length ≤ cs.length :=
  (List.takeWhile_prefix p).length_le

theorem drop_length_takeWhile (p : Char → Bool) (cs : List Char) :
    cs.drop (cs.takeWhile p).length = cs.dropWhile p := by
  induction cs with
  | nil => rfl
  | cons c rest ih =>
    rw [List.takeWhile_cons, List.dropWhile_cons]
    split
    · exact ih
    · rfl

section
variable {before : Option Char} {cs : List Char} {n : Nat}

variable {p : Char → Bool}

theorem one_eq_some (h : one p before cs = some n) :
    ∃ c rest, cs = c :: rest ∧ p c = true ∧ n = 1 := by
  cases cs with
  | nil => cases h
  | cons c rest =>
    rw [one] at h
    split at h
    · rename_i hc
      exact ⟨c, rest, rfl, hc, by simpa using h.symm⟩
    · cases h

theorem withEquals_eq_some (h : withEquals p before cs = some n) :
    ∃ c rest, cs = c :: '=' :: rest ∧ p c = true ∧ n = 2 := by
  unfold withEquals at h
  split at h
  · rename_i c rest
    split at h
    · rename_i hc
      exact ⟨c, rest, rfl, hc, by simpa using h.symm⟩
    · cases h
  · cases h

theorem exactly_eq_some {text : List Char} (h : exactly text before cs = some n) :
    ∃ rest, cs = text ++ rest ∧ n = text.length := by
  unfold exactly at h
  split at h
  · rename_i hp
    obtain ⟨rest, rfl⟩ := List.isPrefixOf_iff_prefix.1 hp
    exact ⟨rest, rfl, by simpa using h.symm⟩
  · cases h

theorem comparison_eq_some (h : comparison before cs = some n) :
    ∃ c rest, cs = c :: rest ∧ (c = '<' ∨ c = '>') ∧
      n = if rest.head? = some '=' then 2 else 1 := by
  cases cs with
  | nil => cases h
  | cons c rest =>
    rw [comparison] at h
    split at h
    · rename_i hc
      exact ⟨c, rest, rfl, by simpa using hc, by simpa using h.symm⟩
    · cases h

theorem run_eq_some (h : run p before cs = some n) :
    0 < n ∧ n = (cs.takeWhile p).length := by
  unfold run at h
  simp only at h
  split at h
  · cases h
  · rename_i hn
    cases h
    exact ⟨by omega, rfl⟩

theorem commentEnd_eq_some (h : commentEnd cs = some n) : n ≤ cs.length := by
  fun_induction commentEnd cs generalizing n with
  | case1 => cases h
  | case2 rest =>
    cases h
    simp
  | case3 c rest _ ih =>
    obtain ⟨m, hm, rfl⟩ := Option.map_eq_some_iff.1 h
    exact Nat.succ_le_succ (ih hm)

/-- The numeral is the run of digits, or this run, a point and a second run. -/
theorem number_eq_some (h : number before cs = some n) :
    ∃ c whole rest, cs.takeWhile isDigit = c :: whole ∧ cs = c :: whole ++ rest ∧
      (n = (c :: whole).length ∨ ∃ d fraction rest', rest = '.' :: rest' ∧
        rest'.takeWhile isDigit = d :: fraction ∧
        n = (c :: whole).length + 1 + (d :: fraction).length) := by
  unfold number at h
  simp only at h
  have hcs := (List.takeWhile_append_dropWhile (p := isDigit) (l := cs)).symm
  rw [drop_length_takeWhile] at h
  cases hw : cs.takeWhile isDigit with
  | nil => simp [hw] at h
  | cons c whole =>
    rw [hw] at h hcs
    refine ⟨c, whole, _, rfl, hcs, ?_⟩
    simp only [List.length_cons, Nat.add_eq_zero_iff, Nat.one_ne_zero, and_false, ↓reduceIte] at h
    split at h
    · rename_i rest' hrest
      cases hf : rest'.takeWhile isDigit with
      | nil => exact .inl (by simpa [hf] using h.symm)
      | cons d fraction =>
        refine .inr ⟨d, fraction, rest', hrest, hf, ?_⟩
        simpa [hf] using h.symm
    · exact .inl (by simpa using h.symm)

theorem identifier_eq_some (h : identifier before cs = some n) :
    ∃ c rest, cs = c :: rest ∧ isNameStart c = true ∧ n = 1 + (rest.takeWhile isWord).length := by
  cases cs with
  | nil => cases h
  | cons c rest =>
    rw [identifier] at h
    split at h
    · rename_i hc
      exact ⟨c, rest, rfl, hc, by simpa using h.symm⟩
    · cases h

theorem quotedBy_eq_some {quote : Char} (h : quotedBy quote before cs = some n) :
    ∃ body rest, cs = quote :: (body ++ quote :: rest) ∧ quote ∉ body ∧ '\n' ∉ body ∧
      n = body.length + 2 := by
  cases cs with
  | nil => cases h
  | cons c tail =>
    rw [quotedBy] at h
    simp only at h
    split at h
    · rename_i hc
      split at h
      · rename_i hq
        cases h
        let plain : Char → Bool := fun d => d != quote && d != '\n'
        have htail := (List.takeWhile_append_dropWhile (p := plain) (l := tail)).symm
        obtain ⟨rest, hrest⟩ := List.head?_eq_some_iff.1 hq
        rw [← drop_length_takeWhile, hrest] at htail
        refine ⟨tail.takeWhile plain, rest, by rw [hc, ← htail], fun hm => ?_, fun hm => ?_, rfl⟩
        · simpa [plain] using List.mem_takeWhile_imp hm
        · simpa [plain] using List.mem_takeWhile_imp hm
      · cases h
    · cases h

theorem wordOf_eq_some {spellings : List (List Char)} (h : wordOf spellings before cs = some n) :
    ∃ s ∈ spellings, standsAt before cs s = true ∧ n = s.length := by
  obtain ⟨s, hs, rfl⟩ := Option.map_eq_some_iff.1 h
  exact ⟨s, List.mem_of_find?_eq_some hs, List.find?_some hs, rfl⟩

theorem lineComment_eq_some (h : lineComment before cs = some n) : 0 < n ∧ n ≤ cs.length := by
  unfold lineComment at h
  split at h
  · rename_i rest
    cases h
    have hle := length_takeWhile_le (· != '\n') rest
    simp only [List.length_cons]
    omega
  · cases h

theorem blockComment_eq_some (h : blockComment before cs = some n) : 0 < n ∧ n ≤ cs.length := by
  unfold blockComment at h
  split at h
  · rename_i rest
    obtain ⟨m, hm, rfl⟩ := Option.map_eq_some_iff.1 h
    have hle := commentEnd_eq_some hm
    simp only [List.length_cons]
    omega
  · cases h

end

/-- What the matches of a rule are like. -/
structure Rule.Lawful (table : KeywordTable) (r : Rule) : Prop where
  short {before : Option Char} {cs : List Char} {n : Nat} :
    r.matcher before cs = some n → n ≤ cs.length
  pos_of_dropped {before : Option Char} {cs : List Char} {n : Nat} :
    r.matcher before cs = some n → r.type = none → 0 < n
  shape {before : Option Char} {cs : List Char} {n : Nat} {type : TokenType} :
    r.matcher before cs = some n → r.type = some type → Shape table (cs.take n) type

variable {c c' : Cursor} {tokens : List Token} {m : Matcher} {p : Char → Bool}

/-- A rule for tokens only. -/
theorem Rule.lawful_of_shape {table : KeywordTable} {type : TokenType}
    (h : ∀ {before cs n}, m before cs = some n → n ≤ cs.length ∧ Shape table (cs.take n) type) :
    Rule.Lawful table ⟨some type, m⟩ where
  short hm := (h hm).1
  pos_of_dropped _ ht := nomatch ht
  shape hm ht := by
    cases ht
    exact (h hm).2

/-- A rule for blanks or comments. -/
theorem Rule.lawful_of_dropped {table : KeywordTable}
    (h : ∀ {before cs n}, m before cs = some n → 0 < n ∧ n ≤ cs.length) :
    Rule.Lawful table ⟨none, m⟩ where
  short hm := (h hm).2
  pos_of_dropped hm _ := (h hm).1
  shape _ ht := nomatch ht

theorem one_lawful {table : KeywordTable} {type : TokenType} (h : ∀ c, p c = true → Shape table [c] type) :
    Rule.Lawful table ⟨some type, one p⟩ := by
  refine Rule.lawful_of_shape fun hm => ?_
  obtain ⟨c, rest, rfl, hc, rfl⟩ := one_eq_some hm
  exact ⟨by simp, h c hc⟩

theorem withEquals_lawful {table : KeywordTable} {type : TokenType}
    (h : ∀ c, p c = true → Shape table [c, '='] type) :
    Rule.Lawful table ⟨some type, withEquals p⟩ := by
  refine Rule.lawful_of_shape fun hm => ?_
  obtain ⟨c, rest, rfl, hc, rfl⟩ := withEquals_eq_some hm
  exact ⟨by simp, h c hc⟩

theorem exactly_lawful {table : KeywordTable} {type : TokenType} {text : List Char}
    (h : Shape table text type) : Rule.Lawful table ⟨some type, exactly text⟩ := by
  refine Rule.lawful_of_shape fun hm => ?_
  obtain ⟨rest, rfl, rfl⟩ := exactly_eq_some hm
  exact ⟨by simp, by simpa using h⟩

theorem comparison_lawful (table : KeywordTable) :
    Rule.Lawful table ⟨some .relational, comparison⟩ := by
  refine Rule.lawful_of_shape fun hm => ?_
  obtain ⟨c, rest, rfl, hc, rfl⟩ := comparison_eq_some hm
  split
  · rename_i heq
    obtain ⟨rest, rfl⟩ := List.head?_eq_some_iff.1 heq
    simp only [List.take_succ_cons, List.take_zero]
    rcases hc with rfl | rfl <;> exact ⟨by simp, shape_of_mem_operators (by decide)⟩
  · simp only [List.take_succ_cons, List.take_zero]
    rcases hc with rfl | rfl <;> exact ⟨by simp, shape_of_mem_operators (by decide)⟩

theorem number_lawful (table : KeywordTable) : Rule.Lawful table ⟨some .number, number⟩ := by
  refine Rule.lawful_of_shape fun {before cs n} hm => ?_
  obtain ⟨c, whole, rest, hw, hcs, hn⟩ := number_eq_some hm
  have hdigit : ∀ d ∈ c :: whole, isDigit d = true := fun d hd => List.mem_takeWhile_imp (hw ▸ hd)
  have hwhole : ∀ d ∈ whole, isDigit d = true := fun d hd => hdigit d (List.mem_cons_of_mem _ hd)
  subst hcs
  rcases hn with rfl | ⟨d, fraction, rest', rfl, hf, rfl⟩
  · refine ⟨by simp, c, whole, ?_, hdigit c (by simp), fun d hd => .inl (hwhole d hd)⟩
    exact List.take_left
  · obtain ⟨rest, rfl⟩ : ∃ rest, rest' = d :: fraction ++ rest :=
      ⟨_, by rw [← hf, List.takeWhile_append_dropWhile]⟩
    have hfraction : ∀ x ∈ d :: fraction, isDigit x = true := fun x hx => List.mem_takeWhile_imp (hf ▸ hx)
    refine ⟨by simp; omega, c, whole ++ '.' :: d :: fraction, ?_, hdigit c (by simp), ?_⟩
    · have : c :: whole ++ '.' :: (d :: fraction ++ rest) =
          (c :: whole ++ '.' :: d :: fraction) ++ rest := by simp
      rw [this]
      refine (congrArg (List.take · _) ?_).trans List.take_left
      simp; omega
    · intro x hx
      rcases List.mem_append.1 hx with hx | hx
      · exact .inl (hwhole x hx)
      · rcases List.mem_cons.1 hx with rfl | hx
        · exact .inr rfl
        · exact .inl (hfraction x hx)

theorem identifier_lawful (table : KeywordTable) :
    Rule.Lawful table ⟨some .identifier, identifier⟩ := by
  refine Rule.lawful_of_shape fun hm => ?_
  obtain ⟨c, rest, rfl, hc, rfl⟩ := identifier_eq_some hm
  have hle := length_takeWhile_le isWord rest
  refine ⟨by simp; omega, c, rest.takeWhile isWord, ?_, hc, fun d hd => List.mem_takeWhile_imp hd⟩
  rw [Nat.add_comm, List.take_succ_cons, ← List.prefix_iff_eq_take.1 (List.takeWhile_prefix _)]

theorem quotedBy_lawful (table : KeywordTable) {quote : Char} (hq : quote = '"' ∨ quote = '\'') :
    Rule.Lawful table ⟨some .string, quotedBy quote⟩ := by
  refine Rule.lawful_of_shape fun hm => ?_
  obtain ⟨body, rest, rfl, hbody, hline, rfl⟩ := quotedBy_eq_some hm
  refine ⟨by simp, quote, body, hq, ?_, hbody, hline⟩
  rw [List.take_succ_cons, List.take_append, List.take_of_length_le (by omega)]
  simp

theorem keywordRuleOf_lawful (table : KeywordTable) (k : Keyword) :
    Rule.Lawful table (keywordRuleOf table k) := by
  refine Rule.lawful_of_shape fun hm => ?_
  obtain ⟨s, hs, hstands, rfl⟩ := wordOf_eq_some hm
  obtain ⟨spelling, hmem, rfl⟩ := List.mem_map.1 hs
  simp only [standsAt, Bool.and_eq_true, List.isPrefixOf_iff_prefix] at hstands
  obtain ⟨rest, rfl⟩ := hstands.1.1
  refine ⟨by simp, ?_⟩
  rw [List.take_left]
  simpa [Shape] using mem_longestFirst.1 hmem

theorem rules_lawful {table : KeywordTable} {r : Rule} (hr : r ∈ rules table) : r.Lawful table := by
  simp only [rules, List.mem_append, List.mem_map] at hr
  rcases hr with ((hr | hr) | ⟨k, -, rfl⟩) | hr
  · simp only [droppedRules, List.mem_cons, List.not_mem_nil, or_false] at hr
    rcases hr with rfl | rfl | rfl
    · refine Rule.lawful_of_dropped fun hm => ?_
      obtain ⟨hpos, rfl⟩ := run_eq_some hm
      exact ⟨hpos, length_takeWhile_le ..⟩
    · exact Rule.lawful_of_dropped lineComment_eq_some
    · exact Rule.lawful_of_dropped blockComment_eq_some
  · simp only [punctuationRules, List.mem_cons, List.not_mem_nil, or_false] at hr
    rcases hr with rfl | rfl | rfl | rfl | rfl | rfl <;>
      exact one_lawful fun c hc => by simpa [Shape] using hc
  · exact keywordRuleOf_lawful table k
  · simp only [otherRules, List.mem_cons, List.not_mem_nil, or_false] at hr
    rcases hr with rfl | rfl | rfl | rfl | rfl | rfl | rfl | rfl | rfl | rfl | rfl | rfl | rfl
    · exact number_lawful table
    · exact identifier_lawful table
    · exact withEquals_lawful fun c hc => by
        rcases (by simpa using hc : c = '=' ∨ c = '!') with rfl | rfl <;>
          exact shape_of_mem_operators (by decide)
    · exact one_lawful fun c hc => by
        obtain rfl : c = '=' := by simpa using hc
        exact shape_of_mem_operators (by decide)
    · exact withEquals_lawful fun c hc => by
        rcases (by simpa using hc : ((c = '*' ∨ c = '/') ∨ c = '+') ∨ c = '-') with
          ((rfl | rfl) | rfl) | rfl <;>
          exact shape_of_mem_operators (by decide)
    · exact one_lawful fun c hc => by
        rcases (by simpa using hc : c = '+' ∨ c = '-') with rfl | rfl <;>
          exact shape_of_mem_operators (by decide)
    · exact one_lawful fun c hc => by
        rcases (by simpa using hc : c = '*' ∨ c = '/') with rfl | rfl <;>
          exact shape_of_mem_operators (by decide)
    · exact comparison_lawful table
    · exact exactly_lawful (shape_of_mem_operators (by decide))
    · exact exactly_lawful (shape_of_mem_operators (by decide))
    · exact one_lawful fun c hc => by
        obtain rfl : c = '!' := by simpa using hc
        exact shape_of_mem_operators (by decide)
    · exact quotedBy_lawful table (.inl rfl)
    · exact quotedBy_lawful table (.inr rfl)

/-! ## Tokens one after the other -/

/-- The token of a type that a match of a length makes at a place. -/
def Cursor.token (c : Cursor) (type : TokenType) (n : Nat) : Token :=
  ⟨type, String.ofList (c.rest.take n), ⟨c.offset, c.offset + n⟩⟩

/-- Between two places the rules find these tokens. -/
inductive Scans (rules : List Rule) : Cursor → List Token → Cursor → Prop
  | stop (c : Cursor) : Scans rules c [] c
  | drop {c c' : Cursor} {tokens : List Token} {n : Nat}
      (h : firstMatch rules c = some (none, n)) (hs : Scans rules (c.advance n) tokens c') :
      Scans rules c tokens c'
  | token {c c' : Cursor} {tokens : List Token} {type : TokenType} {n : Nat} (hn : 0 < n)
      (h : firstMatch rules c = some (some type, n)) (hs : Scans rules (c.advance n) tokens c') :
      Scans rules c (c.token type n :: tokens) c'

theorem Scans.append {rules : List Rule} {c'' : Cursor} {tokens' : List Token} (h : Scans rules c tokens c')
    (h' : Scans rules c' tokens' c'') :
    Scans rules c (tokens ++ tokens') c'' := by
  induction h with
  | stop => exact h'
  | drop h _ ih => exact .drop h (ih h')
  | token hn h _ ih => exact .token hn h (ih h')

/-- Each token is found at a place between the two. -/
theorem Scans.exists_match {rules : List Rule} {t : Token} (h : Scans rules c tokens c') (ht : t ∈ tokens) :
    ∃ front d type n, Scans rules c front d ∧ firstMatch rules d = some (some type, n) ∧
      t = d.token type n := by
  induction h with
  | stop => cases ht
  | drop hm _ ih =>
    obtain ⟨front, d, type, n, hs, hmatch⟩ := ih ht
    exact ⟨front, d, type, n, .drop hm hs, hmatch⟩
  | token hn hm _ ih =>
    rcases List.mem_cons.1 ht with rfl | ht
    · exact ⟨[], _, _, _, .stop _, hm, rfl⟩
    · obtain ⟨front, d, type, n, hs, hmatch⟩ := ih ht
      exact ⟨_, d, type, n, .token hn hm hs, hmatch⟩

/-- Matches lie within the text, and what is dropped has a character. -/
structure Progress (rules : List Rule) : Prop where
  short {c : Cursor} {type : Option TokenType} {n : Nat} :
    firstMatch rules c = some (type, n) → n ≤ c.rest.length
  pos_of_dropped {c : Cursor} {n : Nat} : firstMatch rules c = some (none, n) → 0 < n

theorem exists_rule_of_firstMatch {rules : List Rule} {type : Option TokenType} {n : Nat}
    (h : firstMatch rules c = some (type, n)) :
    ∃ r ∈ rules, r.type = type ∧ r.matcher c.before c.rest = some n := by
  obtain ⟨r, hr, hm⟩ := List.exists_of_findSome?_eq_some h
  obtain ⟨m, hm, heq⟩ := Option.map_eq_some_iff.1 hm
  cases heq
  exact ⟨r, hr, rfl, hm⟩

theorem rules_progress (table : KeywordTable) : Progress (rules table) where
  short h := by
    obtain ⟨r, hr, rfl, hm⟩ := exists_rule_of_firstMatch h
    exact (rules_lawful hr).short hm
  pos_of_dropped h := by
    obtain ⟨r, hr, ht, hm⟩ := exists_rule_of_firstMatch h
    exact (rules_lawful hr).pos_of_dropped hm ht

theorem shape_of_firstMatch {table : KeywordTable} {type : TokenType} {n : Nat}
    (h : firstMatch (rules table) c = some (some type, n)) : Shape table (c.rest.take n) type := by
  obtain ⟨r, hr, ht, hm⟩ := exists_rule_of_firstMatch h
  exact (rules_lawful hr).shape hm ht

@[simp] theorem Cursor.advance_offset (c : Cursor) (n : Nat) :
    (c.advance n).offset = c.offset + n := rfl

@[simp] theorem Cursor.advance_rest (c : Cursor) (n : Nat) : (c.advance n).rest = c.rest.drop n := rfl

theorem Scans.offset_add {rules : List Rule} (hp : Progress rules) (h : Scans rules c tokens c') :
    c'.offset + c'.rest.length = c.offset + c.rest.length := by
  induction h with
  | stop c => rfl
  | drop hm _ ih | token _ hm _ ih =>
    have := hp.short hm
    rw [ih, Cursor.advance_offset, Cursor.advance_rest, List.length_drop]
    omega

/-- The end of a text is as far as the text is long. -/
theorem Scans.offset_of_end {table : KeywordTable} {source : String}
    (h : Scans (rules table) (.ofSource source) tokens c) (hend : c.rest = []) :
    c.offset = source.length := by
  have hadd := h.offset_add (rules_progress table)
  rw [← String.length_toList]
  simpa [hend, Cursor.ofSource] using hadd

theorem Cursor.token_isEmpty {type : TokenType} {n : Nat} (h : n ≤ c.rest.length) :
    (c.token type n).text.isEmpty = decide (n = 0) := by
  rw [Bool.eq_iff_iff, String.isEmpty_iff, decide_eq_true_iff, Cursor.token,
    ← String.toList_eq_nil_iff, String.toList_ofList, List.take_eq_nil_iff]
  refine ⟨fun h' => ?_, .inl⟩
  rcases h' with rfl | h'
  · rfl
  · simpa [h'] using h

section
variable {rules : List Rule} (hp : Progress rules)
include hp

variable {b : Nat} {c : Cursor}

/-- Beyond the length of the text, the bound on the steps does not matter. -/
theorem nextWithin_congr {b' : Nat} (h : c.rest.length < b) (h' : c.rest.length < b') :
    nextWithin rules b c = nextWithin rules b' c := by
  induction b generalizing b' c with
  | zero => omega
  | succ b ih =>
    obtain ⟨b', rfl⟩ : ∃ k, b' = k + 1 := ⟨b' - 1, by omega⟩
    rw [nextWithin, nextWithin]
    cases hrest : c.rest with
    | nil => rfl
    | cons ch rest =>
      cases hm : firstMatch rules c with
      | none => rfl
      | some m =>
        obtain ⟨type, n⟩ := m
        cases type with
        | some type => rfl
        | none =>
          have hpos := hp.pos_of_dropped hm
          simp only [hrest, List.length_cons] at h h'
          refine ih ?_ ?_ <;>
          · rw [Cursor.advance_rest, List.length_drop, hrest, List.length_cons]
            omega

/-- Looking for a token drops matches up to the end, a failure or the first token. -/
theorem nextWithin_spec (h : c.rest.length < b) :
    ∃ c', Scans rules c [] c' ∧ c'.rest.length ≤ c.rest.length ∧
      (c'.rest = [] ∧ nextWithin rules b c = .finished c' ∨
        firstMatch rules c' = none ∧ (∃ e, nextWithin rules b c = .failed e c') ∨
        ∃ type n, firstMatch rules c' = some (some type, n) ∧
          nextWithin rules b c = .token (c'.token type n) (c'.advance n)) := by
  induction b generalizing c with
  | zero => omega
  | succ b ih =>
    rw [nextWithin]
    cases hrest : c.rest with
    | nil => exact ⟨c, .stop c, by simp [hrest], .inl ⟨hrest, rfl⟩⟩
    | cons ch rest =>
      cases hm : firstMatch rules c with
      | none => exact ⟨c, .stop c, by simp [hrest], .inr (.inl ⟨hm, _, rfl⟩)⟩
      | some m =>
        obtain ⟨type, n⟩ := m
        cases type with
        | some type =>
          refine ⟨c, .stop c, by simp [hrest], .inr (.inr ⟨type, n, hm, ?_⟩)⟩
          rw [Cursor.token, hrest]
        | none =>
          have hpos := hp.pos_of_dropped hm
          have hlen : (c.advance n).rest.length = c.rest.length - n := List.length_drop
          rw [hrest, List.length_cons] at h hlen
          obtain ⟨c', hs, hle, hc⟩ := ih (c := c.advance n) (by omega)
          exact ⟨c', .drop hm hs, by rw [List.length_cons]; omega, hc⟩

/-- The lexer finds tokens one after the other, up to the end, a failure or a token without text. -/
theorem scans_collect (h : c.rest.length < b) :
    ∃ c', Scans rules c (collect rules b c).tokens c' ∧
      (c'.rest = [] ∧ (collect rules b c).ending = .ok (.endOfInput c'.offset) ∨
        (∃ e, (collect rules b c).ending = .error e) ∨
        ∃ type, firstMatch rules c' = some (some type, 0) ∧
          (collect rules b c).ending = .ok (c'.token type 0)) := by
  induction b generalizing c with
  | zero => omega
  | succ b ih =>
    obtain ⟨c₁, hs, hle, ⟨hrest, hnext⟩ | ⟨-, e, hnext⟩ | ⟨type, n, hm, hnext⟩⟩ :=
      nextWithin_spec hp h
    · rw [collect, hnext]
      exact ⟨c₁, hs, .inl ⟨hrest, rfl⟩⟩
    · rw [collect, hnext]
      exact ⟨c₁, hs, .inr (.inl ⟨e, rfl⟩)⟩
    · rw [collect, hnext]
      have hshort := hp.short hm
      simp only [Cursor.token_isEmpty hshort]
      by_cases hn : n = 0
      · subst hn
        exact ⟨c₁, hs, .inr (.inr ⟨type, hm, rfl⟩)⟩
      · have hlen : (c₁.advance n).rest.length = c₁.rest.length - n := List.length_drop
        obtain ⟨c', hs', hc⟩ := ih (c := c₁.advance n) (by omega)
        simp only [hn, decide_false, Bool.false_eq_true, ↓reduceIte]
        exact ⟨c', hs.append (.token (by omega) hm hs'), hc⟩

/-- Tokens found one after the other up to the end are the tokens of the text. -/
theorem collect_of_scans {c' : Cursor} {tokens : List Token} (hs : Scans rules c tokens c')
    (hend : c'.rest = []) (h : c.rest.length < b) :
    collect rules b c = ⟨tokens, .ok (.endOfInput c'.offset), c'⟩ := by
  induction hs generalizing b with
  | stop c =>
    obtain ⟨b, rfl⟩ : ∃ k, b = k + 1 := ⟨b - 1, by omega⟩
    rw [collect, nextWithin, hend]
  | @drop c c' tokens n hm _ ih =>
    obtain ⟨b, rfl⟩ : ∃ k, b = k + 1 := ⟨b - 1, by omega⟩
    have hpos := hp.pos_of_dropped hm
    have hshort := hp.short hm
    have hlen : (c.advance n).rest.length = c.rest.length - n := List.length_drop
    have hnext : nextWithin rules (b + 1) c = nextWithin rules (b + 1) (c.advance n) := by
      have hbound : nextWithin rules (b + 1) (c.advance n) = nextWithin rules b (c.advance n) :=
        nextWithin_congr hp (by omega) (by omega)
      rw [hbound, nextWithin]
      cases hrest : c.rest with
      | nil => simp [hrest] at hshort; omega
      | cons => simp only [hm]
    rw [collect, hnext, ← collect]
    exact ih hend (by omega)
  | @token c c' tokens type n hn hm _ ih =>
    obtain ⟨b, rfl⟩ : ∃ k, b = k + 1 := ⟨b - 1, by omega⟩
    have hshort := hp.short hm
    have hlen : (c.advance n).rest.length = c.rest.length - n := List.length_drop
    have hnext : nextWithin rules (b + 1) c = .token (c.token type n) (c.advance n) := by
      rw [nextWithin]
      cases hrest : c.rest with
      | nil => simp [hrest] at hshort; omega
      | cons => simp only [hm, Cursor.token, hrest]
    rw [collect, hnext]
    have hne : n ≠ 0 := by omega
    simp only [Cursor.token_isEmpty hshort, hne, decide_false, Bool.false_eq_true, ↓reduceIte]
    rw [ih hend (by omega)]

end

section
variable {table : KeywordTable} {c c' : Cursor} {tokens : List Token}

theorem Scans.shape (h : Scans (rules table) c tokens c') :
    ∀ t ∈ tokens, Shape table t.text.toList t.type := by
  intro t ht
  obtain ⟨front, d, type, n, -, hm, rfl⟩ := h.exists_match ht
  simpa [Cursor.token] using shape_of_firstMatch hm

theorem Shape.regular {t : Token} (h : Shape table t.text.toList t.type) : t.Regular where
  ne_end htype := by
    rw [htype] at h
    exact h
  text_mem hne := by
    revert h hne
    generalize t.type = type
    cases type <;> simp [Shape, TokenType.operators]

end

/-- The tokens of a text that is tokens up to its end. -/
theorem scans_of_scan {table : KeywordTable} {source : String} {eof : Token}
    (h : (scan (rules table) source).ending = .ok eof) (ht : eof.type = .endOfInput) :
    ∃ c, Scans (rules table) (.ofSource source) (scan (rules table) source).tokens c ∧ c.rest = [] := by
  obtain ⟨c, hs, ⟨hrest, -⟩ | ⟨e, he⟩ | ⟨type, hm, he⟩⟩ :=
    scans_collect (rules_progress table) (c := .ofSource source) (Nat.lt_succ_self _)
  · exact ⟨c, hs, hrest⟩
  · exact nomatch h.symm.trans he
  · -- A token without text is a keyword, and no rule makes the end of the input.
    cases h.symm.trans he
    have hshape := shape_of_firstMatch hm
    rw [show type = .endOfInput from ht] at hshape
    exact hshape.elim

theorem regular_scan (table : KeywordTable) (source : String) :
    ∀ t ∈ (scan (rules table) source).tokens, t.Regular := by
  obtain ⟨c, hs, -⟩ :=
    scans_collect (rules_progress table) (c := .ofSource source) (Nat.lt_succ_self _)
  exact fun t ht => (hs.shape t ht).regular

theorem scan_of_scans {table : KeywordTable} {source : String} {tokens : List Token} {c : Cursor}
    (h : Scans (rules table) (.ofSource source) tokens c) (hend : c.rest = []) :
    scan (rules table) source = ⟨tokens, .ok (.endOfInput c.offset), c⟩ :=
  collect_of_scans (rules_progress table) h hend (Nat.lt_succ_self _)

end Scriptlet.Lexer
