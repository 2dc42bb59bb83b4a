import Scriptlet.Proofs.FrontEnds

/-!
The store of prepared parsers. The key of a table lists its entries in alphabetic order and entries of one
name in their own order, so tables with one key have the same spellings. There is one exception: the empty
table has the key of the default table. In a sequence of calls each one is answered by the parser of the
first call with its key (`parseAll_first`), which is as good as a parser of its own unless just one of
the two tables is empty (`parseAll_empty_first`).
-/

namespace Scriptlet.Grammar

/-! ## Parsers by spellings -/

section

variable {t t' : KeywordTable} (h : t.spellings = t'.spellings)
include h

theorem fault?_congr : t.fault? = t'.fault? := by
  rw [KeywordTable.fault?, KeywordTable.fault?, h]

theorem spellings_congr : spellings t = spellings t' := by
  funext k
  rw [spellings, spellings, h]

theorem insertKeyword_congr (k : Keyword) (list : List Keyword) :
    insertKeyword t k list = insertKeyword t' k list := by
  have hbefore : triedBefore t = triedBefore t' := by
    funext a b
    rw [triedBefore, triedBefore, spellings_congr h, h]
  induction list with
  | nil => rfl
  | cons j rest ih => rw [insertKeyword, insertKeyword, ih, hbefore]

/-- A parser knows a table by its spellings only. -/
theorem parse_congr (source : String) : parse t source = parse t' source := by
  have horder : keywordOrder t = keywordOrder t' := by
    rw [keywordOrder, keywordOrder, funext fun sorted => funext fun k => insertKeyword_congr h k sorted]
  rw [parse, parse, fault?_congr h, lexerRules, lexerRules, horder, spellings_congr h]

end

namespace Cache

/-! ## Keys -/

/-- Entries in alphabetic order. -/
abbrev Sorted (entries : CacheKey) : Prop :=
  entries.Pairwise fun a b => a.1 ≤ b.1

variable {sorted : CacheKey}

theorem mem_insertEntry {entry e : String × List String} :
    e ∈ insertEntry entry sorted ↔ e = entry ∨ e ∈ sorted := by
  induction sorted with
  | nil => simp [insertEntry]
  | cons other rest ih =>
    rw [insertEntry]
    split
    · simp
    · simp [ih, or_left_comm]

theorem sorted_insertEntry (h : Sorted sorted) (entry : String × List String) :
    Sorted (insertEntry entry sorted) := by
  induction sorted with
  | nil => simp [insertEntry, Sorted]
  | cons other rest ih =>
    obtain ⟨hother, hrest⟩ := List.pairwise_cons.1 h
    rw [insertEntry]
    split
    · next hlt =>
      have hle := String.not_lt.1 fun hgt => String.lt_irrefl _ (String.lt_trans hlt hgt)
      refine List.pairwise_cons.2 ⟨fun e he => ?_, h⟩
      rcases List.mem_cons.1 he with rfl | he
      · exact hle
      · exact String.le_trans hle (hother e he)
    · next hge =>
      refine List.pairwise_cons.2 ⟨fun e he => ?_, ih hrest⟩
      rcases mem_insertEntry.1 he with rfl | he
      · exact String.not_lt.1 hge
      · exact hother e he

/-- An entry goes behind those of its name. -/
theorem lookup_insertEntry (h : Sorted sorted) (entry : String × List String) (name : String) :
    (insertEntry entry sorted).lookup name = (sorted.lookup name).or ([entry].lookup name) := by
  induction sorted with
  | nil => rfl
  | cons other rest ih =>
    obtain ⟨hother, hrest⟩ := List.pairwise_cons.1 h
    rw [insertEntry]
    split
    · next hlt =>
      by_cases hname : name = entry.1
      · have hnone : (other :: rest).lookup name = none := by
          rw [List.lookup_eq_none_iff]
          rintro e he
          rw [bne_iff_ne, hname]
          rintro heq
          rcases List.mem_cons.1 he with rfl | he
          · exact String.lt_irrefl _ (heq ▸ hlt)
          · exact String.not_lt.2 (hother e he) (heq ▸ hlt)
        rw [hnone, Option.none_or, hname]
        rw [List.lookup_cons_self, List.lookup_cons_self]
      · have hcons (es) : (entry :: es).lookup name = es.lookup name := by
          rw [List.lookup_cons, beq_false_of_ne hname]
        rw [hcons, hcons, List.lookup_nil, Option.or_none]
    · rw [List.lookup_cons, List.lookup_cons, ih hrest]
      split <;> rfl

theorem lookup_foldl_insertEntry (h : Sorted sorted) (entries : List (String × List String)) (name : String) :
    (entries.foldl (fun sorted entry => insertEntry entry sorted) sorted).lookup name =
      (sorted.lookup name).or (entries.lookup name) := by
  induction entries generalizing sorted with
  | nil => simp
  | cons entry entries ih =>
    rw [List.foldl_cons, ih (sorted_insertEntry h entry), lookup_insertEntry h, Option.or_assoc]
    congr 1
    rw [List.lookup_cons, List.lookup_cons]
    split <;> simp

/-- The key has the spellings of the table, or those of the default table. -/
theorem lookup_keyOf (table : KeywordTable) (name : String) :
    (keyOf table).lookup name =
      (if table.entries.isEmpty then KeywordTable.default.entries else table.entries).lookup name := by
  rw [keyOf, lookup_foldl_insertEntry .nil]
  rfl

variable {t t' : KeywordTable}

/-- Tables with one key have the same spellings, unless just one of them is empty. -/
theorem spellings_of_keyOf (h : keyOf t = keyOf t') (hempty : t.entries = [] ↔ t'.entries = []) :
    t.spellings = t'.spellings := by
  funext k
  rw [KeywordTable.spellings, KeywordTable.spellings]
  by_cases ht : t.entries = []
  · rw [ht, hempty.1 ht]
  · have hlookup := congrArg (List.lookup k.name) h
    rw [lookup_keyOf, lookup_keyOf, if_neg (by simpa using ht),
      if_neg (by simpa using mt hempty.2 ht)] at hlookup
    rw [hlookup]

/-- If just one is empty, then both can be used. -/
theorem fault?_of_keyOf (h : keyOf t = keyOf t') : t.fault? = t'.fault? := by
  have hnone : ∀ {t t' : KeywordTable}, keyOf t = keyOf t' → t.entries = [] → t'.entries ≠ [] →
      t.fault? = t'.fault? := by
    intro t t' h ht ht'
    have hdefault : keyOf t = keyOf .default := by
      rw [keyOf, keyOf, ht]
      rfl
    have hspell := spellings_of_keyOf (h.symm.trans hdefault)
      ⟨fun heq => absurd heq ht', nofun⟩
    rw [fault?_congr hspell, Lexer.fault?_eq_none KeywordTable.default_proper]
    obtain ⟨entries⟩ := t
    cases ht
    decide
  by_cases ht : t.entries = []
  · by_cases ht' : t'.entries = []
    · exact fault?_congr (spellings_of_keyOf h (iff_of_true ht ht'))
    · exact hnone h ht ht'
  · by_cases ht' : t'.entries = []
    · exact (hnone h.symm ht' ht).symm
    · exact fault?_congr (spellings_of_keyOf h (iff_of_false ht ht'))

/-! ## Sequences of calls -/

/-- The first of some calls that has the key of a table. -/
def first? (calls : List Call) (table : KeywordTable) : Option Call :=
  calls.find? fun d => keyOf d.table = keyOf table

/-- The store after some calls: of the tables with one key it has the first, unless it has a fault. -/
def After (calls : List Call) (cache : Cache) : Prop :=
  ∀ table, cache.parsers.lookup (keyOf table) =
    ((first? calls table).map Call.table).filter fun t => t.fault?.isNone

variable {calls : List Call} {cache : Cache} {c : Call}

theorem after_nil : After [] {} :=
  fun _ => rfl

theorem keyOf_of_first? {d : Call} {table : KeywordTable} (h : first? calls table = some d) :
    keyOf d.table = keyOf table := by
  simpa using List.find?_some h

theorem first?_concat (calls : List Call) (c : Call) (table : KeywordTable) :
    first? (calls ++ [c]) table =
      (first? calls table).or (if keyOf c.table = keyOf table then some c else none) := by
  rw [first?, List.find?_append, ← first?]
  by_cases h : keyOf c.table = keyOf table <;> simp [h]

theorem first?_congr {table table' : KeywordTable} (h : keyOf table = keyOf table') :
    first? calls table = first? calls table' := by
  rw [first?, first?, h]

/-- A call with the key of an earlier one leaves the store as it is. -/
theorem After.resolve_of_first? (h : After calls cache) {d : Call}
    (hd : first? calls c.table = some d) : (cache.resolve c.table).2 = cache := by
  have hfault := fault?_of_keyOf (keyOf_of_first? hd)
  have hlookup := h c.table
  rw [hd, Option.map_some, Option.filter_some, hfault] at hlookup
  rw [Cache.resolve, hlookup]
  split <;> simp_all

/-- Each call leaves the store as it should be. -/
theorem After.resolve (h : After calls cache) (c : Call) :
    After (calls ++ [c]) (cache.resolve c.table).2 := by
  intro table
  rw [first?_concat]
  cases hfirst : first? calls c.table with
  | some d =>
    rw [h.resolve_of_first? hfirst, h table]
    by_cases hkey : keyOf c.table = keyOf table
    · rw [← first?_congr hkey, hfirst, Option.some_or]
    · rw [if_neg hkey, Option.or_none]
  | none =>
    have hlookup : cache.parsers.lookup (keyOf c.table) = none := by
      rw [h c.table, hfirst]
      rfl
    simp only [Cache.resolve, hlookup]
    by_cases hkey : keyOf c.table = keyOf table
    · rw [← first?_congr hkey, hfirst, if_pos hkey, ← hkey, Option.none_or, Option.map_some,
        Option.filter_some]
      split
      · rw [List.lookup_cons_self]
      · exact hlookup
    · rw [if_neg hkey, Option.or_none, ← h table]
      split
      · rw [List.lookup_cons, beq_false_of_ne (Ne.symm hkey)]
      · rfl

/-- A call is answered by the parser of the first call with its key. -/
theorem After.parse (h : After calls cache) (c : Call) :
    (cache.parse c.table c.source).1 =
      Grammar.parse ((first? calls c.table).getD c).table c.source := by
  have hlookup := h c.table
  show Grammar.parse (cache.resolve c.table).1 c.source = _
  cases hfirst : first? calls c.table with
  | none =>
    rw [hfirst] at hlookup
    rw [Cache.resolve, hlookup]
    rfl
  | some d =>
    rw [hfirst, Option.map_some, Option.filter_some] at hlookup
    rw [Cache.resolve, hlookup]
    cases hfault : d.table.fault? with
    | none => rfl
    | some fault =>
      -- Neither table can be used, and the faults are the same.
      have heq := fault?_of_keyOf (keyOf_of_first? hfirst)
      show Grammar.parse c.table c.source = Grammar.parse d.table c.source
      rw [Grammar.parse, Grammar.parse, ← heq, hfault]

theorem parseAll_of_after (h : After calls cache) (later : List Call) :
    cache.parseAll later = later.map fun c =>
      Grammar.parse ((first? (calls ++ later) c.table).getD c).table c.source := by
  induction later generalizing calls cache with
  | nil => rfl
  | cons c later ih =>
    have hfirst : (first? (calls ++ c :: later) c.table).getD c = (first? calls c.table).getD c := by
      rw [first?, List.find?_append, List.find?_cons_of_pos (by simp), ← first?]
      cases first? calls c.table <;> rfl
    have hlater := ih (h.resolve c)
    rw [List.append_assoc] at hlater
    rw [List.map_cons, hfirst, ← h.parse c]
    exact congrArg _ hlater

/-- In a sequence of calls each one is answered as if it were made alone, with the table of the first call
that has its key. This is how it would be answered with its own table, unless just one of the two tables
is empty. -/
theorem parseAll_first (calls : List Call) (i : Nat) (c : Call) (hc : calls[i]? = some c) :
    ∃ d, calls.find? (fun d => keyOf d.table = keyOf c.table) = some d ∧
      (parseAll {} calls)[i]? = some (parse {} d.table c.source).1 ∧
      ((d.table.entries = [] ↔ c.table.entries = []) →
        (parse {} d.table c.source).1 = (parse {} c.table c.source).1) := by
  obtain ⟨d, hd⟩ : ∃ d, first? calls c.table = some d := by
    rw [← Option.isSome_iff_exists, first?, List.find?_isSome]
    exact ⟨c, List.mem_of_getElem? hc, by simp⟩
  refine ⟨d, hd, ?_, fun hempty => ?_⟩
  · rw [parseAll_of_after after_nil, List.getElem?_map, hc, Option.map_some, List.nil_append, hd]
    rfl
  · exact parse_congr (spellings_of_keyOf (keyOf_of_first? hd) hempty) c.source

/-- The default table with its entries in another order is served by the parser of the default table. -/
theorem parseAll_first_reversed :
    let reversed : Call := ⟨some ⟨KeywordTable.default.entries.reverse⟩, "let x = 1;"⟩
    let calls : List Call := [⟨none, "x;"⟩, ⟨some ⟨[("LET", ["let"])]⟩, "y;"⟩, reversed]
    calls.find? (fun d => keyOf d.table = keyOf reversed.table) = some ⟨none, "x;"⟩ ∧
      (parseAll {} calls)[2]? = some (parse {} reversed.table reversed.source).1 := by
  intro reversed calls
  have hfirst : calls.find? (fun d => keyOf d.table = keyOf reversed.table) = some ⟨none, "x;"⟩ := by
    rw [List.find?_cons_of_pos]
    decide +kernel
  obtain ⟨d, hd, hanswer, halone⟩ := parseAll_first calls 2 reversed rfl
  cases hfirst.symm.trans hd
  exact ⟨hfirst, hanswer.trans (congrArg some (halone (by decide)))⟩

/-- After a call with the empty table the default table has no keywords. -/
theorem parseAll_empty_first :
    (∃ e, (parseAll {} [⟨some ⟨[]⟩, "x;"⟩, ⟨none, "let x = true;"⟩])[1]? = some (.error e)) ∧
      ∃ p, (parse {} .default "let x = true;").1 = .ok p := by
  constructor
  · have hserved : (parseAll {} [⟨some ⟨[]⟩, "x;"⟩, ⟨none, "let x = true;"⟩])[1]? =
        some (Grammar.parse ⟨[]⟩ "let x = true;") := by
      rw [parseAll_of_after after_nil, List.getElem?_map]
      rfl
    have hproper : KeywordTable.Proper ⟨[]⟩ := ⟨nofun, nofun⟩
    have he : Scriptlet.parse ⟨[]⟩ "let x = true;" =
        .error (.unexpected ⟨.identifier, "x", ⟨4, 5⟩⟩ (.token .semi)) :=
      error_of_map (f := fun _ => ()) (by decide +kernel)
    rw [hserved]
    cases h : Grammar.parse ⟨[]⟩ "let x = true;" with
    | error e => exact ⟨e, rfl⟩
    | ok p =>
      obtain ⟨q, hq, -⟩ := parse_of_table_parse hproper (fun span => by rw [he]; rintro ⟨⟩) h
      cases he.symm.trans hq
  · have hp := KeywordTable.default_proper
    obtain ⟨p, h⟩ := exists_of_isOk (by decide +kernel :
      (Scriptlet.parse .default "let x = true;").isOk = true)
    obtain ⟨eof, heof, htype⟩ := exists_end_of_parse hp.ne_empty h
    have hwhole := derivesWhole_iff.2 ⟨(derives_of_parse heof htype h).program, .inl (by decide +kernel)⟩
    obtain ⟨q, hq, -⟩ := table_parse_of_derivesWhole hp
      (Grammar.parse_ne_tooDeep hp (by decide +kernel)) heof htype hwhole
    exact ⟨q, hq⟩

end Cache

end Scriptlet.Grammar
