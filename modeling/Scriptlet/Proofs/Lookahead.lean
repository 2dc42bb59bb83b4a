import Scriptlet.Proofs.Lexemes

/-!
What the rules find depends on the text behind it only at the end of a text. If a part of a text ends sooner,
a rule finds there what it finds in the text, or something beyond the part in the text, or nothing in
neither (`firstMatch_within`). And with a line feed and more text behind a text its tokens stay, and those of
the other text come behind them (`Scans.before_line`): only blanks and comments go beyond a line, and there
is no comment without an end where the tokens are those of a program.
-/

namespace Scriptlet

open Text

namespace Lexer

/-! ## Rules that look ahead -/

/-- What the matcher finds within a part of a text does not depend on what stands behind the part, and
where it finds something in the part it finds something in the text. -/
structure Matcher.Stable (m : Matcher) : Prop where
  within {before before' : Option Char} {cs more : List Char} {n : Nat} :
    m before (cs ++ more) = some n → n ≤ cs.length → m before' cs = some n
  found {before before' : Option Char} {cs : List Char} {n : Nat} (more : List Char) :
    m before cs = some n → (m before' (cs ++ more)).isSome

theorem takeWhile_of_length_le {p : Char → Bool} {cs more : List Char}
    (h : ((cs ++ more).takeWhile p).length ≤ cs.length) :
    cs.takeWhile p = (cs ++ more).takeWhile p := by
  rw [List.takeWhile_append] at h ⊢
  split
  · rename_i hall
    rw [if_pos hall, List.length_append] at h
    have hmore : (more.takeWhile p) = [] := List.length_eq_zero_iff.1 (by omega)
    rw [hmore, List.append_nil]
    exact (List.takeWhile_prefix p).eq_of_length hall
  · rfl

theorem takeWhile_prefix_append (p : Char → Bool) (cs more : List Char) :
    cs.takeWhile p <+: (cs ++ more).takeWhile p := by
  rw [List.takeWhile_append]
  split
  · exact ((List.takeWhile_prefix p).trans (List.prefix_append ..))
  · exact List.prefix_rfl

/-- What a text starts with, a long enough part of it starts with. -/
theorem exists_tail (start : List Char) {cs more rest : List Char} (h : cs ++ more = start ++ rest)
    (hle : start.length ≤ cs.length) : ∃ tail, cs = start ++ tail ∧ rest = tail ++ more := by
  have hprefix : start <+: cs ++ more := ⟨rest, h.symm⟩
  obtain ⟨tail, rfl⟩ := List.prefix_of_prefix_length_le hprefix (List.prefix_append cs more) hle
  rw [List.append_assoc] at h
  exact ⟨tail, rfl, (List.append_cancel_left h).symm⟩

section
variable {before before' : Option Char} {cs more : List Char} {n : Nat}

theorem run_stable (p : Char → Bool) : (run p).Stable where
  within h hn := by
    obtain ⟨hpos, rfl⟩ := run_eq_some h
    rw [run, takeWhile_of_length_le hn]
    simp only [Nat.pos_iff_ne_zero.1 hpos, ↓reduceIte]
  found {_ _ cs _} more h := by
    obtain ⟨hpos, rfl⟩ := run_eq_some h
    have hle := (takeWhile_prefix_append p cs more).length_le
    simp only [run]
    rw [if_neg (by omega)]
    rfl

theorem one_stable (p : Char → Bool) : (one p).Stable where
  within h hn := by
    obtain ⟨c, rest, hcs, hc, rfl⟩ := one_eq_some h
    obtain ⟨tail, rfl, -⟩ := exists_tail [c] hcs hn
    simp [one, hc]
  found more h := by
    obtain ⟨c, rest, rfl, hc, rfl⟩ := one_eq_some h
    simp [one, hc]

theorem withEquals_stable (p : Char → Bool) : (withEquals p).Stable where
  within h hn := by
    obtain ⟨c, rest, hcs, hc, rfl⟩ := withEquals_eq_some h
    obtain ⟨tail, rfl, -⟩ := exists_tail [c, '='] hcs hn
    simp [withEquals, hc]
  found more h := by
    obtain ⟨c, rest, rfl, hc, rfl⟩ := withEquals_eq_some h
    simp [withEquals, hc]

theorem exactly_stable (text : List Char) : (exactly text).Stable where
  within h hn := by
    obtain ⟨rest, hcs, rfl⟩ := exactly_eq_some h
    obtain ⟨tail, rfl, -⟩ := exists_tail _ hcs hn
    simp [exactly]
  found more h := by
    obtain ⟨rest, rfl, rfl⟩ := exactly_eq_some h
    simp [exactly]

theorem comparison_stable : comparison.Stable where
  within {_ _ cs more _} h hn := by
    obtain ⟨c, rest, hcs, hc, rfl⟩ := comparison_eq_some h
    have hpos : 1 ≤ if rest.head? = some '=' then 2 else 1 := by split <;> omega
    obtain ⟨tail, rfl, rfl⟩ := exists_tail [c] hcs (Nat.le_trans hpos hn)
    have hlength : (if tail.head? = some '=' then 2 else 1) =
        if (tail ++ more).head? = some '=' then 2 else 1 := by
      cases tail with
      | nil =>
        rw [List.nil_append] at hn ⊢
        split at hn
        · exact absurd hn (by simp)
        · rename_i hne
          simp [hne]
      | cons d tail => rfl
    simpa [comparison, hc] using hlength
  found more h := by
    obtain ⟨c, rest, rfl, hc, -⟩ := comparison_eq_some h
    simp [comparison, hc]

theorem identifier_stable : identifier.Stable where
  within h hn := by
    obtain ⟨c, rest, hcs, hc, rfl⟩ := identifier_eq_some h
    obtain ⟨tail, rfl, rfl⟩ := exists_tail [c] hcs (Nat.le_trans (Nat.le_add_right ..) hn)
    rw [List.length_append] at hn
    have htake := takeWhile_of_length_le (Nat.le_of_add_le_add_left hn)
    simp [identifier, hc, htake]
  found more h := by
    obtain ⟨c, rest, rfl, hc, -⟩ := identifier_eq_some h
    simp [identifier, hc]

theorem quotedBy_stable (quote : Char) : (quotedBy quote).Stable where
  within h hn := by
    obtain ⟨body, rest, hcs, hquote, hline, rfl⟩ := quotedBy_eq_some h
    have hcs' : _ = (quote :: (body ++ [quote])) ++ rest := hcs.trans (by simp)
    obtain ⟨tail, rfl, -⟩ := exists_tail _ hcs' (by simp; omega)
    rw [List.cons_append, List.append_assoc]
    exact quotedBy_append hquote hline
  found more h := by
    obtain ⟨body, rest, rfl, hquote, hline, -⟩ := quotedBy_eq_some h
    simp [quotedBy_append hquote hline]

theorem lineComment_stable : lineComment.Stable where
  within h hn := by
    unfold lineComment at h
    split at h
    · rename_i rest hcs
      cases h
      obtain ⟨tail, rfl, rfl⟩ := exists_tail ['/', '/'] hcs
        (Nat.le_trans (Nat.le_add_right ..) hn)
      rw [List.length_append] at hn
      have htake := takeWhile_of_length_le (Nat.le_of_add_le_add_left hn)
      simp [lineComment, htake]
    · cases h
  found more h := by
    unfold lineComment at h
    split at h
    · rfl
    · cases h

/-- A comment up to its first end mark. -/
theorem commentEnd_form (h : commentEnd cs = some n) :
    ∃ body rest, cs = (body ++ ['*', '/']) ++ rest ∧ n = (body ++ ['*', '/']).length ∧
      ¬ ['*', '/'] <:+: body := by
  obtain ⟨body, htake, hbody⟩ := exists_of_commentEnd h
  refine ⟨body, cs.drop n, by rw [← htake, List.take_append_drop], ?_, hbody⟩
  rw [← htake, List.length_take, Nat.min_eq_left (commentEnd_eq_some h)]

theorem commentEnd_mark {body : List Char} (hbody : ¬ ['*', '/'] <:+: body) (rest : List Char) :
    commentEnd ((body ++ ['*', '/']) ++ rest) = some (body ++ ['*', '/']).length := by
  have hm : commentEnd (body ++ '*' :: '/' :: rest) = _ := commentEnd_append hbody
  simpa using hm

theorem commentEnd_more (h : commentEnd cs = some n) (more : List Char) :
    commentEnd (cs ++ more) = some n := by
  obtain ⟨body, rest, rfl, rfl, hbody⟩ := commentEnd_form h
  rw [List.append_assoc]
  exact commentEnd_mark hbody _

theorem blockComment_stable : blockComment.Stable where
  within h hn := by
    unfold blockComment at h
    split at h
    · rename_i rest hcs
      obtain ⟨m, hm, rfl⟩ := Option.map_eq_some_iff.1 h
      obtain ⟨body, rest, rfl, rfl, hbody⟩ := commentEnd_form hm
      rw [Nat.add_comm] at hn
      have hcs' : _ = (['/', '*'] ++ (body ++ ['*', '/'])) ++ rest := hcs.trans (by simp)
      obtain ⟨tail, rfl, -⟩ := exists_tail _ hcs' (by rwa [List.length_append])
      rw [List.append_assoc]
      exact congrArg (Option.map (· + 2)) (commentEnd_mark hbody tail)
    · cases h
  found more h := by
    unfold blockComment at h
    split at h
    · obtain ⟨m, hm, rfl⟩ := Option.map_eq_some_iff.1 h
      simp only [List.cons_append, blockComment]
      rw [commentEnd_more hm]
      rfl
    · cases h

theorem number_stable : number.Stable where
  within {before before' cs more n} h hn := by
    obtain ⟨c, whole, rest, hwhole, hcs, hlength⟩ := number_eq_some h
    have hle : (c :: whole).length ≤ cs.length := by
      rcases hlength with rfl | ⟨d, fraction, rest', -, -, rfl⟩ <;> omega
    obtain ⟨tail, rfl, rfl⟩ := exists_tail _ hcs hle
    have htake : (c :: whole ++ tail).takeWhile isDigit = c :: whole := by
      rw [takeWhile_of_length_le (by rw [hwhole]; exact hle), hwhole]
    rw [number, hwhole, List.append_assoc, List.drop_left] at h
    rw [number, htake, List.drop_left]
    simp only [List.length_cons, Nat.add_eq_zero_iff, Nat.one_ne_zero, and_false, ↓reduceIte] at h ⊢
    rw [List.length_append, List.length_cons] at hn
    cases tail with
    | nil =>
      -- A fraction would lie beyond the part.
      rw [List.length_nil] at hn
      rw [List.nil_append] at h
      split at h
      · rw [Option.some.injEq] at h ⊢
        split at h <;> omega
      · exact h
    | cons d tail =>
      rw [List.length_cons] at hn
      by_cases hd : d = '.'
      · subst hd
        simp only [List.cons_append, Option.some.injEq] at h ⊢
        have hle : ((tail ++ more).takeWhile isDigit).length ≤ tail.length := by
          split at h <;> omega
        rwa [takeWhile_of_length_le hle]
      · simp only [List.cons_append] at h
        split at h
        · rename_i heq
          exact absurd (List.cons.inj heq).1 hd
        · split
          · rename_i heq
            exact absurd (List.cons.inj heq).1 hd
          · exact h
  found {before before' cs n} more h := by
    obtain ⟨c, whole, rest, hwhole, -, -⟩ := number_eq_some h
    have hprefix := (takeWhile_prefix_append isDigit cs more).length_le
    rw [hwhole, List.length_cons] at hprefix
    simp only [number]
    rw [if_neg (by omega)]
    split <;> rfl

theorem symbolRules_stable : ∀ r ∈ symbolRules, r.matcher.Stable := by
  simp only [symbolRules, droppedRules, punctuationRules, otherRules, List.cons_append,
    List.nil_append, List.forall_mem_cons]
  refine ⟨run_stable _, lineComment_stable, blockComment_stable, one_stable _, one_stable _,
    one_stable _, one_stable _, one_stable _, one_stable _, number_stable, identifier_stable,
    withEquals_stable _, one_stable _, withEquals_stable _, one_stable _, one_stable _,
    comparison_stable, exactly_stable _, exactly_stable _, one_stable _, quotedBy_stable _,
    quotedBy_stable _, fun r hr => absurd hr List.not_mem_nil⟩

/-- The rules that are not about keywords find in a part of a text what they find in the text. -/
theorem symbolMatch_within {type : Option TokenType} (h : symbolMatch before (cs ++ more) = some (type, n))
    (hn : n ≤ cs.length) : symbolMatch before' cs = some (type, n) := by
  have hall : ∀ list : List Rule, (∀ r ∈ list, r.matcher.Stable) →
      (list.findSome? fun r => (r.matcher before (cs ++ more)).map (r.type, ·)) = some (type, n) →
      (list.findSome? fun r => (r.matcher before' cs).map (r.type, ·)) = some (type, n) := by
    intro list hlist hfind
    induction list with
    | nil => cases hfind
    | cons r list ih =>
      obtain ⟨hr, hlist⟩ := List.forall_mem_cons.1 hlist
      rw [List.findSome?_cons] at hfind ⊢
      cases hm : r.matcher before (cs ++ more) with
      | some m =>
        rw [hm] at hfind
        cases hfind
        rw [hr.within hm hn]
        rfl
      | none =>
        -- What is not found in the text is not found in the part.
        have hnone : r.matcher before' cs = none := by
          cases hm' : r.matcher before' cs with
          | none => rfl
          | some m =>
            have hfound : (r.matcher before (cs ++ more)).isSome := hr.found more hm'
            rw [hm] at hfound
            cases hfound
        rw [hm] at hfind
        rw [hnone]
        exact ih hlist hfind
  exact hall symbolRules symbolRules_stable h

end

/-! ## Keywords -/

section
variable {table : KeywordTable} {before before' : Option Char} {cs more : List Char} {n offset offset' : Nat}

/-- If what is found is no keyword, no rule about keywords has found anything before. -/
theorem symbolMatch_of_firstMatch {type : Option TokenType} (hk : ∀ k, type ≠ some (.keyword k))
    (h : firstMatch (rules table) ⟨before, offset, cs⟩ = some (type, n)) :
    symbolMatch before cs = some (type, n) := by
  have hsymbol : symbolMatch before cs =
      firstMatch (droppedRules ++ punctuationRules ++ otherRules) ⟨before, offset, cs⟩ := rfl
  rw [rules, firstMatch_append, firstMatch_append] at h
  rw [hsymbol, firstMatch_append]
  cases hfirst : firstMatch (droppedRules ++ punctuationRules) ⟨before, offset, cs⟩ with
  | some m =>
    rw [hfirst] at h
    exact h
  | none =>
    rw [hfirst, Option.none_or] at h
    rw [Option.none_or]
    cases hword : firstMatch (Keyword.all.map (keywordRuleOf table)) ⟨before, offset, cs⟩ with
    | none =>
      rw [hword, Option.none_or] at h
      exact h
    | some m =>
      obtain ⟨r, hr, hrule, -⟩ := exists_rule_of_firstMatch hword
      obtain ⟨k, -, rfl⟩ := List.mem_map.1 hr
      rw [hword] at h
      cases h
      exact absurd hrule.symm (hk k)

/-- A rule finds in a part of a text what it finds in the text, also behind another character if it makes no
name that is spelled like a keyword. -/
theorem firstMatch_within (hp : table.Proper) {type : Option TokenType}
    (h : firstMatch (rules table) ⟨before, offset, cs ++ more⟩ = some (type, n)) (hn : n ≤ cs.length)
    (hname : type = some .identifier → ∀ k, String.ofList (cs.take n) ∉ table.spellings k)
    (hbefore : before.any isWord = false → before'.any isWord = false) :
    firstMatch (rules table) ⟨before', offset', cs⟩ = some (type, n) := by
  by_cases hk : ∃ k, type = some (.keyword k)
  · obtain ⟨k, rfl⟩ := hk
    obtain ⟨s, hs, hstands, rfl⟩ := keyword_of_firstMatch h
    obtain ⟨hfree, rest, hrest, hnext⟩ := neighbours_of_standsAt (hp.isName hs) hstands
    obtain ⟨tail, rfl, rfl⟩ := exists_tail _ hrest hn
    refine firstMatch_keyword hp hs (hbefore hfree) ?_
    cases tail with
    | nil => rfl
    | cons c tail => exact hnext
  · have hk' : ∀ k, type ≠ some (.keyword k) := fun k heq => hk ⟨k, heq⟩
    have hsymbol : symbolMatch before' cs = some (type, n) :=
      symbolMatch_within (symbolMatch_of_firstMatch hk' h) hn
    rw [← hsymbol]
    refine firstMatch_of_no_keyword fun k s hs => Bool.eq_false_iff.2 fun hstands => ?_
    -- Where a keyword stands, all the other rules can find is a name with its spelling.
    obtain ⟨-, rest, rfl, hrest⟩ := neighbours_of_standsAt (hp.isName hs) hstands
    obtain ⟨r, hr, rfl, hm⟩ := exists_rule_of_firstMatch (c := ⟨before', offset', _⟩) hsymbol
    obtain ⟨htype, rfl⟩ := identifier_of_symbol hr hm (identifier_append (hp.isName hs) hrest)
    refine hname htype k ?_
    rw [List.take_left, String.ofList_toList]
    exact hs

end

/-! ## Lines behind a text -/

section
variable {table : KeywordTable} (hp : table.Proper) {before : Option Char} {cs more : List Char}
  {n offset offset' : Nat}
include hp

/-- Tokens lie on one line. -/
theorem Shape.no_line {text : List Char} {type : TokenType} (h : Shape table text type) : '\n' ∉ text := by
  have hname : ∀ {text}, IsName text → '\n' ∉ text := fun hname hmem =>
    absurd (hname.isWord _ hmem) (by decide)
  have hoperator : ∀ s ∈ type.operators, '\n' ∉ s.toList := by
    cases type with
    | keyword =>
      intro s hs
      cases hs
    | _ => decide
  cases type with
  | keyword k => simpa using hname (hp.isName h)
  | identifier => exact hname h
  | endOfInput => exact h.elim
  | number =>
    obtain ⟨c, rest, rfl, hc, hrest⟩ := h
    intro hmem
    rcases List.mem_cons.1 hmem with rfl | hmem
    · exact absurd hc (by decide)
    · exact absurd (hrest _ hmem) (by decide)
  | semi | curlyStart | curlyEnd | parenStart | parenEnd | comma =>
    rw [show text = _ from h]
    decide
  | string =>
    obtain ⟨quote, body, hq, rfl, -, hbody⟩ := h
    rcases hq with rfl | rfl <;> simp [hbody]
  | equality | simpleAssignment | complexAssignment | additive | multiplicative | relational
  | logicalAnd | logicalOr | logicalNot =>
    simpa using hoperator _ h

/-- No rule goes beyond a line feed behind a text, unless the text is blank or begins a comment. -/
theorem le_of_line {r : Rule} (hr : r ∈ rules table) (h : r.matcher before (cs ++ '\n' :: more) = some n)
    (hblank : cs.all isBlank = false)
    (hcomment : ∀ rest, cs = '/' :: '*' :: rest → (commentEnd rest).isSome) : n ≤ cs.length := by
  refine Nat.le_of_not_lt fun hlt => ?_
  have hline : '\n' ∈ (cs ++ '\n' :: more).take n := by
    obtain ⟨m, rfl⟩ := Nat.exists_eq_add_of_lt hlt
    simp [List.take_append, Nat.add_assoc]
  cases htype : r.type with
  | some type => exact ((rules_lawful hr).shape h htype).no_line hp hline
  | none =>
    have hmem := (rule_of_type hr).1 htype
    simp only [droppedRules, List.mem_cons, List.not_mem_nil, or_false] at hmem
    rcases hmem with rfl | rfl | rfl
    · obtain ⟨-, rfl⟩ := run_eq_some (show run isBlank before _ = some n from h)
      rw [List.takeWhile_append, if_neg] at hlt
      · exact absurd (length_takeWhile_le isBlank cs) (Nat.not_le.2 hlt)
      · intro hlength
        rw [← (List.takeWhile_prefix isBlank).eq_of_length hlength, List.all_takeWhile] at hblank
        cases hblank
    · change lineComment _ _ = _ at h
      unfold lineComment at h
      split at h
      · rename_i rest hcs
        cases h
        rw [hcs, Nat.add_comm, List.take_succ_cons, List.take_succ_cons,
          ← List.prefix_iff_eq_take.1 (List.takeWhile_prefix _)] at hline
        have hmem : '\n' ∈ rest.takeWhile (· != '\n') := by simpa using hline
        exact absurd (List.mem_takeWhile_imp hmem) (by decide)
      · cases h
    · change blockComment _ _ = _ at h
      unfold blockComment at h
      split at h
      · rename_i rest hcs
        obtain ⟨m, hm, rfl⟩ := Option.map_eq_some_iff.1 h
        cases cs with
        | nil => cases hcs
        | cons c cs =>
          cases cs with
          | nil => cases hcs
          | cons d tail =>
            cases hcs
            obtain ⟨m', hm'⟩ := Option.isSome_iff_exists.1 (hcomment tail rfl)
            obtain rfl : m' = m := Option.some.inj ((commentEnd_more hm' _).symm.trans hm)
            have hle := commentEnd_eq_some hm'
            simp only [List.length_cons] at hlt
            omega
      · cases h

variable (hblank : cs.all isBlank = false)
  (hcomment : ∀ rest, cs = '/' :: '*' :: rest → (commentEnd rest).isSome) {type : Option TokenType}
include hblank hcomment

theorem symbolMatch_before_line (h : symbolMatch before cs = some (type, n)) (more : List Char) :
    symbolMatch before (cs ++ '\n' :: more) = some (type, n) := by
  obtain ⟨r, hr, hm⟩ := List.exists_of_findSome?_eq_some h
  obtain ⟨m, hm, -⟩ := Option.map_eq_some_iff.1 hm
  have hfound : (r.matcher before (cs ++ '\n' :: more)).isSome := (symbolRules_stable r hr).found _ hm
  have hsome : (symbolMatch before (cs ++ '\n' :: more)).isSome := by
    rw [symbolMatch, List.findSome?_isSome_iff]
    exact ⟨r, hr, by rwa [Option.isSome_map]⟩
  obtain ⟨⟨type', n'⟩, h'⟩ := Option.isSome_iff_exists.1 hsome
  obtain ⟨r', hr', hm'⟩ := List.exists_of_findSome?_eq_some h'
  obtain ⟨m', hm', heq⟩ := Option.map_eq_some_iff.1 hm'
  cases heq
  have hmem : r' ∈ rules table := by
    simp only [symbolRules, rules, List.mem_append] at hr' ⊢
    tauto
  rw [h', ← symbolMatch_within h' (le_of_line hp hmem hm' hblank hcomment), h]

/-- What is found in a text is also found with a line feed and more text behind it. -/
theorem firstMatch_before_line (h : firstMatch (rules table) ⟨before, offset, cs⟩ = some (type, n))
    (more : List Char) :
    firstMatch (rules table) ⟨before, offset', cs ++ '\n' :: more⟩ = some (type, n) := by
  by_cases hk : ∃ k, type = some (.keyword k)
  · obtain ⟨k, rfl⟩ := hk
    obtain ⟨s, hs, hstands, rfl⟩ := keyword_of_firstMatch h
    obtain ⟨hfree, rest, rfl, hnext⟩ := neighbours_of_standsAt (hp.isName hs) hstands
    rw [List.append_assoc]
    refine firstMatch_keyword hp hs hfree ?_
    cases rest with
    | nil => exact (by decide : isWord '\n' = false)
    | cons c rest => exact hnext
  · rw [← symbolMatch_before_line hp hblank hcomment
      (symbolMatch_of_firstMatch (fun k heq => hk ⟨k, heq⟩) h) more]
    refine firstMatch_of_no_keyword fun k s hs => Bool.eq_false_iff.2 fun hstands => ?_
    -- A keyword would lie on one line, so it would stand in the text by itself.
    obtain ⟨hfree, rest, hrest, hnext⟩ := neighbours_of_standsAt (hp.isName hs) hstands
    have hm : firstMatch (rules table) ⟨before, offset, s.toList ++ rest⟩ = _ :=
      firstMatch_keyword hp hs hfree hnext
    rw [← hrest] at hm
    obtain ⟨r, hr, -, hmatch⟩ := exists_rule_of_firstMatch hm
    obtain ⟨tail, rfl, rfl⟩ := exists_tail _ hrest (le_of_line hp hr hmatch hblank hcomment)
    have hnext' : tail.head?.any isWord = false := by
      cases tail with
      | nil => rfl
      | cons c tail => exact hnext
    rw [firstMatch_keyword hp hs hfree hnext'] at h
    cases h
    exact hk ⟨k, rfl⟩

end

/-! ## Operators and operands -/

/-- Each multiplicative operator has an operand behind it. -/
def Followed : List Token → Prop
  | [] => True
  | t :: w => (t.type = .multiplicative → Opens exprStarters w) ∧ Followed w

end Lexer

open Lexer

theorem followed_append {w v : List Token} (hw : Followed w) (hv : Followed v) : Followed (w ++ v) := by
  induction w with
  | nil => exact hv
  | cons t w ih => exact ⟨fun ht => (hw.1 ht).append v, ih hw.2⟩

theorem Derives.followed {place : Placing} {w : List Token} {phrase : Phrase}
    (h : Derives place w phrase) : Followed w := by
  have hunary : ∀ op : UnaryOp, op.tokenType ≠ .multiplicative := fun op => by cases op <;> decide
  have hassign : ∀ op : AssignOp, op.tokenType ≠ .multiplicative := fun op => by cases op <;> decide
  induction h with
  | binary hl _ _ hr _ ihl ihr | logical hl _ _ hr _ ihl ihr =>
    exact followed_append ihl ⟨fun _ => hr.expr_opens, ihr⟩
  | _ => grind [Followed, followed_append]

namespace Lexer

/-! ## Texts one after the other -/

section
variable {table : KeywordTable} {before : Option Char} {cs more text : List Char} {offset : Nat}
  {c c' : Cursor}
  {tokens : List Token}

theorem firstMatch_blanks (hne : text ≠ []) (htext : ∀ c ∈ text, isBlank c = true)
    (hcs : cs.head?.any isBlank = false) :
    firstMatch (rules table) ⟨before, offset, text ++ cs⟩ = some (none, text.length) := by
  simp [firstMatch, rules, droppedRules, run, takeWhile_append_stop htext hcs, hne]

/-- Blanks and a line feed in front of a text leave its tokens as they are. -/
theorem Scans.behind_line (htext : ∀ d ∈ text, isBlank d = true)
    (h : Scans (rules table) ⟨some '\n', offset + text.length + 1, more⟩ tokens c) (hend : c.rest = []) :
    Scans (rules table) ⟨before, offset, text ++ '\n' :: more⟩ tokens c := by
  -- They are dropped together with the blanks that the text starts with.
  obtain ⟨lead, rest, rfl, hlead, hrest⟩ : ∃ lead rest, more = lead ++ rest ∧
      (∀ d ∈ lead, isBlank d = true) ∧ rest.head?.any isBlank = false :=
    ⟨_, _, List.takeWhile_append_dropWhile.symm, fun _ => List.mem_takeWhile_imp, head?_dropWhile more⟩
  have hs : Scans (rules table)
      ⟨some (lead.getLast?.getD '\n'), offset + text.length + 1 + lead.length, rest⟩ tokens c := by
    cases lead with
    | nil => exact h
    | cons d lead =>
      have hm : firstMatch (rules table) ⟨some '\n', offset + text.length + 1, d :: lead ++ rest⟩ = _ :=
        firstMatch_blanks (List.cons_ne_nil d lead) hlead hrest
      cases h with
      | stop => cases hend
      | drop hm' hs =>
        rw [hm] at hm'
        cases hm'
        rwa [Cursor.advance_append _ (List.cons_ne_nil d lead)] at hs
      | token _ hm' =>
        rw [hm] at hm'
        cases hm'
  have hne : text ++ '\n' :: lead ≠ [] := by simp
  have hblank : ∀ d ∈ text ++ '\n' :: lead, isBlank d = true := by
    simp only [List.forall_mem_append, List.forall_mem_cons]
    exact ⟨htext, by decide, hlead⟩
  rw [← List.cons_append, ← List.append_assoc]
  refine .drop (firstMatch_blanks hne hblank hrest) ?_
  rw [Cursor.advance_append _ hne]
  simpa [List.getLast?_append, List.getLast?_cons, Nat.add_assoc, Nat.add_comm 1] using hs

theorem Scans.eq_nil (h : Scans (rules table) c tokens c') (hrest : c.rest = []) : tokens = [] := by
  have hshort : ∀ {type n}, firstMatch (rules table) c = some (type, n) → n = 0 := by
    intro type n hm
    have hle := (rules_progress table).short hm
    rw [hrest] at hle
    exact Nat.le_zero.1 hle
  cases h with
  | stop => rfl
  | drop hm =>
    have hpos := (rules_progress table).pos_of_dropped hm
    rw [hshort hm] at hpos
    cases hpos
  | token hn hm =>
    rw [hshort hm] at hn
    cases hn

variable (hp : table.Proper)
include hp

/-- A comment has an end, as a division sign is not followed by a multiplication sign. -/
theorem Scans.comment_closed (h : Scans (rules table) c tokens c') (hend : c'.rest = [])
    (hf : Followed tokens) : ∀ rest, c.rest = '/' :: '*' :: rest → (commentEnd rest).isSome := by
  intro rest hrest
  rw [Option.isSome_iff_ne_none]
  intro hopen
  obtain ⟨before, offset, cs⟩ := c
  obtain rfl : cs = '/' :: '*' :: rest := hrest
  have hslash : firstMatch (rules table) ⟨before, offset, '/' :: '*' :: rest⟩ =
      some (some .multiplicative, 1) := by
    have hblock : blockComment before ('/' :: '*' :: rest) = none := by rw [blockComment, hopen]; rfl
    rw [firstMatch_of_not_start hp (by decide)]
    simp only [symbolMatch, symbolRules, droppedRules, List.cons_append, List.findSome?_cons, hblock]
    rfl
  have hstar : ∃ type n, type ∉ exprStarters ∧
      firstMatch (rules table) ⟨some '/', offset + 1, '*' :: rest⟩ = some (some type, n) := by
    rw [firstMatch_of_not_start hp (by decide)]
    by_cases hequals : ∃ tail, rest = '=' :: tail
    · obtain ⟨tail, rfl⟩ := hequals
      exact ⟨.complexAssignment, 2, by decide, rfl⟩
    · have hnone : ∀ p, withEquals p (some '/') ('*' :: rest) = none := fun p =>
        withEquals.eq_2 _ _ _ fun _ tail heq => hequals ⟨tail, (List.cons.inj heq).2⟩
      refine ⟨.multiplicative, 1, by decide, ?_⟩
      simp only [symbolMatch, symbolRules, otherRules, List.findSome?_append, List.findSome?_cons, hnone]
      rfl
  obtain ⟨type, n, htype, hstar⟩ := hstar
  cases h with
  | stop => cases hend
  | drop hm =>
    rw [hslash] at hm
    cases hm
  | token _ hm hs =>
    rw [hslash] at hm
    cases hm
    obtain ⟨t, w, rfl, ht⟩ := hf.1 rfl
    change Scans _ ⟨some '/', offset + 1, '*' :: rest⟩ _ _ at hs
    cases hs with
    | drop hm =>
      rw [hstar] at hm
      cases hm
    | token _ hm =>
      rw [hstar] at hm
      cases hm
      exact htype ht

/-- The tokens of a text stay with a line feed and another text behind it, and those of this text come
behind them. -/
theorem Scans.before_line {tokens' : List Token} {c'' : Cursor} (h : Scans (rules table) c tokens c')
    (hend : c'.rest = []) (hf : Followed tokens)
    (hmore : Scans (rules table) ⟨some '\n', c'.offset + 1, more⟩ tokens' c'') (hend' : c''.rest = []) :
    Scans (rules table) ⟨c.before, c.offset, c.rest ++ '\n' :: more⟩ (tokens ++ tokens') c'' := by
  have hblanks : ∀ {c : Cursor} {type n}, firstMatch (rules table) c = some (type, n) → c.rest ≠ [] →
      c.rest.all isBlank = true → type = none ∧ n = c.rest.length := by
    rintro ⟨before, offset, cs⟩ type n hm hne hall
    have hm' : firstMatch (rules table) ⟨before, offset, cs ++ []⟩ = _ :=
      firstMatch_blanks hne (List.all_eq_true.1 hall) rfl
    rw [List.append_nil, hm] at hm'
    cases hm'
    exact ⟨rfl, rfl⟩
  have hnext : ∀ {c : Cursor} {n}, n ≤ c.rest.length →
      (⟨c.before, c.offset, c.rest ++ '\n' :: more⟩ : Cursor).advance n =
        ⟨(c.advance n).before, (c.advance n).offset, (c.advance n).rest ++ '\n' :: more⟩ := by
    intro c n hle
    simp [Cursor.advance, List.take_append_of_le_length hle, List.drop_append_of_le_length hle]
  induction h with
  | stop c =>
    rw [hend]
    exact .behind_line (by simp) hmore hend'
  | @drop c c' tokens n hm hs ih =>
    have hle := (rules_progress table).short hm
    cases hall : c.rest.all isBlank with
    | true =>
      -- The blanks go on with the line feed.
      have hpos := (rules_progress table).pos_of_dropped hm
      obtain ⟨-, rfl⟩ := hblanks hm (List.length_pos_iff.1 (Nat.lt_of_lt_of_le hpos hle)) hall
      obtain rfl := hs.eq_nil (by simp)
      have hoffset := hs.offset_add (rules_progress table)
      rw [hend, Cursor.advance_offset, Cursor.advance_rest, List.drop_length] at hoffset
      rw [show c'.offset = c.offset + c.rest.length from hoffset] at hmore
      exact .behind_line (List.all_eq_true.1 hall) hmore hend'
    | false =>
      refine .drop (firstMatch_before_line hp hall ((Scans.drop hm hs).comment_closed hp hend hf) hm _) ?_
      rw [hnext hle]
      exact ih hend hf hmore
  | @token c c' tokens type n hn hm hs ih =>
    have hle := (rules_progress table).short hm
    cases hall : c.rest.all isBlank with
    | true =>
      obtain ⟨htype, -⟩ := hblanks hm (List.length_pos_iff.1 (Nat.lt_of_lt_of_le hn hle)) hall
      cases htype
    | false =>
      have htoken : c.token type n =
          (⟨c.before, c.offset, c.rest ++ '\n' :: more⟩ : Cursor).token type n := by
        simp [Cursor.token, List.take_append_of_le_length hle]
      have hclosed := (Scans.token hn hm hs).comment_closed hp hend hf
      rw [List.cons_append, htoken]
      refine .token hn (firstMatch_before_line hp hall hclosed hm _) ?_
      rw [hnext hle]
      exact ih hend hf.2 hmore

theorem scan_before_line {source source' : String} {eof : Token} {tokens' : List Token}
    (heof : (scan (rules table) source).ending = .ok eof) (htype : eof.type = .endOfInput)
    (hf : Followed (scan (rules table) source).tokens)
    (h : Scans (rules table) ⟨some '\n', source.length + 1, source'.toList⟩ tokens' c) (hend : c.rest = []) :
    scan (rules table) (source ++ "\n" ++ source') =
      ⟨(scan (rules table) source).tokens ++ tokens', .ok (.endOfInput c.offset), c⟩ := by
  obtain ⟨c', hscans, hrest⟩ := scans_of_scan heof htype
  rw [← hscans.offset_of_end hrest] at h
  refine scan_of_scans ?_ hend
  have hline := hscans.before_line hp hrest hf h hend
  simpa [Cursor.ofSource] using hline

end

end Lexer

end Scriptlet
