import Scriptlet.Proofs.EarlyErrors

/-!
Cutting a text into tokens leaves nothing out. Searches for a token, one after the other from the start of
a text, give finitely many tokens and then end or fail, and what they give then is given again by every
further search. The tokens stand in the text in order, with their texts as they stand there; between them,
and behind the last one, there are only blanks and comments (`Skipped`). A search fails only at a place
where no rule matches.

The rules may have any spellings of keywords that are not empty.
-/

namespace Scriptlet.Lexer

open Text

/-! ## Places and searches -/

/-- The text between two places. -/
def slice (source : List Char) (low high : Nat) : List Char :=
  (source.take high).drop low

/-- A place in a text, given by the number of characters in front of it. -/
def Cursor.at (source : List Char) (p : Nat) : Cursor :=
  ⟨(source.take p).getLast?, p, source.drop p⟩

/-- The place where a search gets to. -/
def Step.place : Step → Cursor
  | .token _ c | .finished c | .failed _ c => c

/-- What searches give that start where the one before got to. -/
def searches (rules : List Rule) : Nat → Cursor → List Step
  | 0, _ => []
  | n + 1, c => next rules c :: searches rules n (next rules c).place

/-- Blanks and comments in front of the rest of a text. A comment to the end of the line ends in front of a
line feed or at the end of the text, a block comment at its first end mark. -/
inductive Skipped (after : List Char) : List Char → Prop
  | nil : Skipped after []
  | blank {b : Char} {cs : List Char} (hb : isBlank b = true) (h : Skipped after cs) :
      Skipped after (b :: cs)
  | line {body cs : List Char} (hbody : '\n' ∉ body) (hend : (cs ++ after).head?.all (· = '\n') = true)
      (h : Skipped after cs) : Skipped after ('/' :: '/' :: (body ++ cs))
  | block {body cs : List Char} (hbody : ¬ ['*', '/'] <:+: body) (h : Skipped after cs) :
      Skipped after ('/' :: '*' :: (body ++ '*' :: '/' :: cs))

/-- From a place on, a text is made of tokens with what is skipped in front of each, up to a second place
where the last token ends. -/
inductive Cut (source : List Char) : Nat → List Token → Nat → Prop
  | stop (p : Nat) : Cut source p [] p
  | token {p q : Nat} {t : Token} {tokens : List Token} (hle : p ≤ t.start)
      (hgap : Skipped (source.drop t.start) (slice source p t.start)) (hlt : t.start < t.stop)
      (hend : t.stop ≤ source.length) (htext : t.text.toList = slice source t.start t.stop)
      (h : Cut source t.stop tokens q) : Cut source p (t :: tokens) q

/-- Tokens from a place on, with what stands in front of each. -/
def spelled (source : List Char) : Nat → List Token → List Char
  | _, [] => []
  | p, t :: tokens => slice source p t.start ++ t.text.toList ++ spelled source t.stop tokens

section
variable {source : List Char} {p q n : Nat}

theorem Cursor.ofSource_eq (source : String) : Cursor.ofSource source = .at source.toList 0 := rfl

theorem Cursor.advance_at (source : List Char) (p n : Nat) :
    (Cursor.at source p).advance n = .at source (p + n) := by
  simp [Cursor.advance, Cursor.at, List.take_add, List.getLast?_append]

theorem slice_eq_take (source : List Char) (p n : Nat) :
    slice source p (p + n) = (source.drop p).take n := by
  rw [slice, List.drop_take, Nat.add_sub_cancel_left]

theorem slice_append_drop (h : p ≤ q) : slice source p q ++ source.drop q = source.drop p := by
  obtain ⟨n, rfl⟩ := Nat.exists_eq_add_of_le h
  rw [slice_eq_take, ← List.drop_drop, List.take_append_drop]

theorem take_append_slice (h : p ≤ q) : source.take p ++ slice source p q = source.take q := by
  obtain ⟨n, rfl⟩ := Nat.exists_eq_add_of_le h
  rw [slice_eq_take, List.take_add]

end

/-! ## What is skipped -/

section
variable {after cs text : List Char} {table : KeywordTable} {c c' : Cursor} {n : Nat}

theorem Skipped.blanks (htext : ∀ b ∈ text, isBlank b = true) (h : Skipped after cs) :
    Skipped after (text ++ cs) := by
  induction text with
  | nil => exact h
  | cons b text ih =>
    exact .blank (htext b List.mem_cons_self) (ih fun d hd => htext d (List.mem_cons_of_mem b hd))

/-- What a rule drops is skipped. -/
theorem Skipped.of_firstMatch (hm : firstMatch (rules table) c = some (none, n))
    (hrest : c.rest.drop n = cs ++ after) (h : Skipped after cs) :
    Skipped after (c.rest.take n ++ cs) := by
  obtain ⟨r, hr, ht, hmatch⟩ := exists_rule_of_firstMatch hm
  have hmem := (rule_of_type hr).1 ht
  simp only [droppedRules, List.mem_cons, List.not_mem_nil, or_false] at hmem
  rcases hmem with rfl | rfl | rfl
  · obtain ⟨-, rfl⟩ := run_eq_some (show run isBlank c.before c.rest = some n from hmatch)
    rw [← List.prefix_iff_eq_take.1 (List.takeWhile_prefix _)]
    exact .blanks (fun b hb => List.mem_takeWhile_imp hb) h
  · change lineComment _ _ = _ at hmatch
    unfold lineComment at hmatch
    split at hmatch
    · rename_i rest heq
      cases hmatch
      have hbody : rest.take (rest.takeWhile (· != '\n')).length = rest.takeWhile (· != '\n') :=
        (List.prefix_iff_eq_take.1 (List.takeWhile_prefix _)).symm
      rw [heq, Nat.add_comm, List.drop_succ_cons, List.drop_succ_cons, drop_length_takeWhile] at hrest
      rw [heq, Nat.add_comm, List.take_succ_cons, List.take_succ_cons, hbody]
      refine .line (fun hline => ?_) ?_ h
      · simpa using List.mem_takeWhile_imp hline
      · have hhead := head?_dropWhile (p := (· != '\n')) rest
        rw [hrest] at hhead
        cases hcs : (cs ++ after).head? with
        | none => rfl
        | some d => simpa [hcs] using hhead
    · cases hmatch
  · change blockComment _ _ = _ at hmatch
    unfold blockComment at hmatch
    split at hmatch
    · rename_i rest heq
      obtain ⟨m, hend, rfl⟩ := Option.map_eq_some_iff.1 hmatch
      obtain ⟨body, htake, hbody⟩ := exists_of_commentEnd hend
      rw [heq, List.take_succ_cons, List.take_succ_cons, htake, List.cons_append, List.cons_append,
        List.append_assoc]
      exact .block hbody h
    · cases hmatch

/-- Between two places without a token in between, the text is skipped. -/
theorem Scans.skipped {tokens : List Token} (h : Scans (rules table) c tokens c') (hnone : tokens = []) :
    ∃ text, c.rest = text ++ c'.rest ∧ Skipped c'.rest text := by
  induction h with
  | stop c => exact ⟨[], rfl, .nil⟩
  | @drop c c' tokens n hm _ ih =>
    obtain ⟨text, hrest, hskipped⟩ := ih hnone
    refine ⟨c.rest.take n ++ text, ?_, .of_firstMatch hm hrest hskipped⟩
    rw [List.append_assoc, ← hrest, Cursor.advance_rest, List.take_append_drop]
  | token => cases hnone

end

/-! ## One search -/

/-- The token of a type between two places. -/
def tokenAt (source : List Char) (type : TokenType) (low high : Nat) : Token :=
  ⟨type, String.ofList (slice source low high), ⟨low, high⟩⟩

section
variable {rules : List Rule} {source : List Char} {p : Nat}

/-- Where no rule matches a search fails on the spot. -/
theorem next_of_none {ch : Char} (hch : source[p]? = some ch)
    (hm : firstMatch rules (.at source p) = none) :
    next rules (.at source p) = .failed (LexError.atChar p ch) (.at source p) := by
  obtain ⟨hp, rfl⟩ := List.getElem?_eq_some_iff.1 hch
  have hrest : (Cursor.at source p).rest = source[p] :: source.drop (p + 1) :=
    List.drop_eq_getElem_cons hp
  rw [next, nextWithin, hm, hrest]
  rfl

/-- At the end of a text a search stays. -/
theorem next_of_end (hp : source.length ≤ p) :
    next rules (.at source p) = .finished (.at source p) := by
  have hrest : (Cursor.at source p).rest = [] := List.drop_of_length_le hp
  rw [next, nextWithin, hrest]

theorem atChar_of_failed {bound : Nat} {c c' : Cursor} {e : LexError}
    (h : nextWithin rules bound c = .failed e c') :
    ∃ ch, c'.rest.head? = some ch ∧ e = LexError.atChar c'.offset ch := by
  induction bound generalizing c with
  | zero => cases h
  | succ bound ih =>
    rw [nextWithin] at h
    split at h
    · cases h
    · rename_i ch rest hrest
      split at h
      · cases h
        exact ⟨ch, by rw [hrest, List.head?_cons], rfl⟩
      · exact ih h
      · cases h

/-- Searching goes from places of a text to places of this text. -/
theorem Scans.at {tokens : List Token} {c : Cursor} (hprogress : Progress rules)
    (h : Scans rules (.at source p) tokens c) (hp : p ≤ source.length) :
    ∃ q, p ≤ q ∧ q ≤ source.length ∧ c = .at source q := by
  generalize hstart : Cursor.at source p = start at h
  induction h generalizing p with
  | stop c => exact ⟨p, Nat.le_refl p, hp, hstart.symm⟩
  | drop hm _ ih | token _ hm _ ih =>
    subst hstart
    have hshort := hprogress.short hm
    rw [Cursor.at, List.length_drop] at hshort
    obtain ⟨q, hle, hend, rfl⟩ := ih (by omega) (Cursor.advance_at source p _).symm
    exact ⟨q, by omega, hend, rfl⟩

/-- A search skips what it can. It then is at the end of the text, where no rule matches, or where a rule
makes a token. -/
theorem next_cases (table : KeywordTable) (hp : p ≤ source.length) :
    ∃ q, p ≤ q ∧ q ≤ source.length ∧ Skipped (source.drop q) (slice source p q) ∧
      (q = source.length ∧
          next (Lexer.rules table) (.at source p) = .finished (.at source q) ∨
        (∃ ch, source[q]? = some ch ∧ firstMatch (Lexer.rules table) (.at source q) = none ∧
          next (Lexer.rules table) (.at source p) = .failed (LexError.atChar q ch) (.at source q)) ∨
        ∃ type n, firstMatch (Lexer.rules table) (.at source q) = some (some type, n) ∧
          q + n ≤ source.length ∧
          next (Lexer.rules table) (.at source p) =
            .token (tokenAt source type q (q + n)) (.at source (q + n))) := by
  have hprogress := rules_progress table
  obtain ⟨c, hs, -, hc⟩ := nextWithin_spec hprogress (c := .at source p) (Nat.lt_succ_self _)
  obtain ⟨q, hle, hend, rfl⟩ := hs.at hprogress hp
  obtain ⟨text, hrest, hskipped⟩ := hs.skipped rfl
  obtain rfl : text = slice source p q :=
    List.append_cancel_right (hrest.symm.trans (slice_append_drop hle).symm)
  refine ⟨q, hle, hend, hskipped, ?_⟩
  rcases hc with ⟨hnil, hnext⟩ | ⟨hnone, e, hnext⟩ | ⟨type, n, hm, hnext⟩
  · exact .inl ⟨Nat.le_antisymm hend (List.drop_eq_nil_iff.1 hnil), hnext⟩
  · obtain ⟨ch, hch, rfl⟩ := atChar_of_failed hnext
    rw [Cursor.at, List.head?_drop] at hch
    exact .inr (.inl ⟨ch, hch, hnone, hnext⟩)
  · have hshort := hprogress.short hm
    rw [Cursor.at, List.length_drop] at hshort
    refine .inr (.inr ⟨type, n, hm, by omega, ?_⟩)
    rw [next, hnext, Cursor.advance_at, tokenAt, slice_eq_take]
    rfl

end

/-! ## All searches -/

section
variable {source : List Char} {p q : Nat} {tokens : List Token}

/-- Tokens stand in order and do not overlap. -/
theorem Cut.pairwise (h : Cut source p tokens q) :
    tokens.Pairwise (fun t u => t.stop ≤ u.start) ∧ ∀ t ∈ tokens, p ≤ t.start := by
  induction h with
  | stop p => exact ⟨.nil, nofun⟩
  | @token p q t tokens hle _ hlt _ _ _ ih =>
    refine ⟨List.pairwise_cons.2 ⟨ih.2, ih.1⟩, ?_⟩
    intro u hu
    rcases List.mem_cons.1 hu with rfl | hu
    · exact hle
    · have := ih.2 u hu
      omega

/-- What is skipped and the texts of the tokens make up the text. -/
theorem Cut.spelled_eq (h : Cut source p tokens q) :
    source.take p ++ spelled source p tokens = source.take q := by
  induction h with
  | stop p => exact List.append_nil _
  | @token p q t tokens hle _ hlt _ htext _ ih =>
    rw [spelled, htext, ← List.append_assoc, ← List.append_assoc, take_append_slice hle,
      take_append_slice (Nat.le_of_lt hlt), ih]

end

/-- The end of a text, or a place where no rule matches, together with what every search there gives. -/
inductive Halted (rules : List Rule) (source : List Char) (p : Nat) : Step → Prop
  | finished (h : p = source.length) : Halted rules source p (.finished (.at source p))
  | failed {ch : Char} (hch : source[p]? = some ch)
      (h : ∀ r ∈ rules, r.matcher (Cursor.at source p).before (Cursor.at source p).rest = none) :
      Halted rules source p (.failed (LexError.atChar p ch) (.at source p))

variable {source : List Char} {p : Nat} {step : Step}

theorem Halted.next {rules : List Rule} (h : Halted rules source p step) :
    next rules (.at source p) = step := by
  cases h with
  | finished h => exact next_of_end (Nat.le_of_eq h.symm)
  | failed hch h =>
    refine next_of_none hch ?_
    rw [firstMatch, List.findSome?_eq_none_iff]
    intro r hr
    rw [h r hr]
    rfl

theorem Halted.place {rules : List Rule} (h : Halted rules source p step) : step.place = .at source p := by
  cases h <;> rfl

theorem Halted.searches {rules : List Rule} (h : Halted rules source p step) (n : Nat) :
    searches rules n (.at source p) = List.replicate n step := by
  induction n with
  | zero => rfl
  | succ n ih => rw [Lexer.searches, h.next, h.place, ih, List.replicate_succ]

/-- How a text of tokens ends if a search gives no token. -/
def Step.ending : Step → Except LexError Token
  | .token t _ => .ok t
  | .finished c => .ok (.endOfInput c.offset)
  | .failed e _ => .error e

/-- What searches from a place on come to: tokens, behind them something to skip, and a place where they
get no further. -/
structure Exhausts (rules : List Rule) (source : List Char) (p : Nat) (tokens : List Token) (q stop : Nat)
    (step : Step) : Prop where
  cut : Cut source p tokens q
  le : q ≤ stop
  skipped : Skipped (source.drop stop) (slice source q stop)
  halted : Halted rules source stop step
  searches (n : Nat) : Lexer.searches rules (tokens.length + n) (.at source p) =
    tokens.map (fun t => .token t (.at source t.stop)) ++ List.replicate n step
  collect {bound : Nat} (h : source.length - p < bound) :
    collect rules bound (.at source p) = ⟨tokens, step.ending, .at source stop⟩

section
variable {table : KeywordTable} {source : List Char} {p q stop : Nat} {tokens : List Token} {step : Step}

theorem nextWithin_at {bound : Nat} (h : source.length - p < bound) :
    nextWithin (rules table) bound (.at source p) = next (rules table) (.at source p) := by
  refine nextWithin_congr (rules_progress table) ?_ (Nat.lt_succ_self _)
  rwa [Cursor.at, List.length_drop]

/-- The first search gets no further. -/
theorem exhausts_of_settled (hle : p ≤ stop)
    (hskipped : Skipped (source.drop stop) (slice source p stop))
    (hhalted : Halted (rules table) source stop step)
    (hnext : next (rules table) (.at source p) = step) :
    Exhausts (rules table) source p [] p stop step where
  cut := .stop p
  le := hle
  skipped := hskipped
  halted := hhalted
  searches n := by
    rw [List.length_nil, Nat.zero_add]
    cases n with
    | zero => rfl
    | succ n =>
      rw [Lexer.searches, hnext, hhalted.place, hhalted.searches]
      rfl
  collect {bound} hbound := by
    cases bound with
    | zero => omega
    | succ bound =>
      rw [Lexer.collect, nextWithin_at hbound, hnext]
      cases hhalted <;> rfl

/-- The first search gives a token. -/
theorem Exhausts.token {t : Token} (h : Exhausts (rules table) source t.stop tokens q stop step)
    (hle : p ≤ t.start) (hgap : Skipped (source.drop t.start) (slice source p t.start))
    (hlt : t.start < t.stop) (hend : t.stop ≤ source.length)
    (htext : t.text.toList = slice source t.start t.stop)
    (hnext : next (rules table) (.at source p) = .token t (.at source t.stop)) :
    Exhausts (rules table) source p (t :: tokens) q stop step where
  cut := .token hle hgap hlt hend htext h.cut
  le := h.le
  skipped := h.skipped
  halted := h.halted
  searches n := by
    rw [List.length_cons, Nat.add_right_comm, Lexer.searches, hnext]
    exact congrArg _ (h.searches n)
  collect {bound} hbound := by
    have hne : t.text.isEmpty = false := by
      rw [Bool.eq_false_iff, ne_eq, String.isEmpty_iff, ← String.toList_eq_nil_iff, htext, slice,
        List.drop_eq_nil_iff, List.length_take]
      omega
    cases bound with
    | zero => omega
    | succ bound =>
      rw [Lexer.collect, nextWithin_at hbound, hnext]
      simp only [hne, Bool.false_eq_true, ↓reduceIte]
      rw [h.collect (by omega)]

theorem exists_exhausts (hne : ∀ k, "" ∉ table.spellings k) (hp : p ≤ source.length) :
    ∃ tokens q stop step, Exhausts (rules table) source p tokens q stop step := by
  -- Every token has a character, so that less and less of the text is left.
  induction hleft : source.length - p using Nat.strong_induction_on generalizing p with
  | _ left ih =>
    obtain ⟨q, hle, hend, hskipped, ⟨hq, hnext⟩ | ⟨ch, hch, hm, hnext⟩ | ⟨type, n, hm, hshort, hnext⟩⟩ :=
      next_cases table hp
    · exact ⟨[], p, q, _, exhausts_of_settled hle hskipped (.finished hq) hnext⟩
    · rw [firstMatch, List.findSome?_eq_none_iff] at hm
      exact ⟨[], p, q, _,
        exhausts_of_settled hle hskipped (.failed hch fun r hr => by simpa using hm r hr) hnext⟩
    · have hpos : 0 < n := by
        refine Nat.pos_of_ne_zero fun hzero => not_shape_nil hne type ?_
        subst hzero
        simpa using shape_of_firstMatch hm
      obtain ⟨tokens, q', stop, step, hrest⟩ := ih (source.length - (q + n)) (by omega) hshort rfl
      have htoken := Exhausts.token (t := tokenAt source type q (q + n)) (p := p) hrest hle hskipped
        (Nat.lt_add_of_pos_right hpos) hshort (String.toList_ofList ..) hnext
      exact ⟨_, q', stop, step, htoken⟩

end

/-- Searches from the start of a text on give tokens, then the end of the text or a failure, and this again
and again. The tokens are those of the text as a whole. They are in order and do not overlap; each is not
empty and is the text between its places; in front of each and behind the last one there are blanks and
complete comments. All this together spells the text, up to its end or up to the place of the failure,
where no rule matches. -/
theorem searches_cover (table : KeywordTable) (hne : ∀ k, "" ∉ table.spellings k) (source : String) :
    ∃ tokens q stop step,
      Cut source.toList 0 tokens q ∧ tokens.Pairwise (fun t u => t.stop ≤ u.start) ∧
      q ≤ stop ∧ Skipped (source.toList.drop stop) (slice source.toList q stop) ∧
      spelled source.toList 0 tokens ++ slice source.toList q stop = source.toList.take stop ∧
      Halted (rules table) source.toList stop step ∧
      (∀ n, searches (rules table) (tokens.length + n) (.ofSource source) =
        tokens.map (fun t => .token t (.at source.toList t.stop)) ++ List.replicate n step) ∧
      scan (rules table) source = ⟨tokens, step.ending, .at source.toList stop⟩ := by
  obtain ⟨tokens, q, stop, step, h⟩ := exists_exhausts hne (Nat.zero_le source.toList.length)
  have hspelled := h.cut.spelled_eq
  rw [List.take_zero, List.nil_append] at hspelled
  refine ⟨tokens, q, stop, step, h.cut, h.cut.pairwise.1, h.le, h.skipped, ?_, h.halted, ?_, ?_⟩
  · rw [hspelled, take_append_slice h.le]
  · exact h.searches
  · exact h.collect (Nat.lt_succ_self _)

/-- A spelling that holds a comment mark, a name right behind it, a comment, and a text that is not ended. -/
theorem searches_cover_unterminated :
    let table := KeywordTable.ofKinds fun k => if k = .kwLet then ["a//"] else [k.english]
    let source := "a//b // c\n 'd"
    let tokens : List Token := [⟨.keyword .kwLet, "a//", ⟨0, 3⟩⟩, ⟨.identifier, "b", ⟨3, 4⟩⟩]
    (∀ k, "" ∉ table.spellings k) ∧ Cut source.toList 0 tokens 4 ∧
      Skipped (source.toList.drop 11) (slice source.toList 4 11) ∧
      ∀ n, searches (rules table) (2 + n) (.ofSource source) =
        tokens.map (fun t => .token t (.at source.toList t.stop)) ++
          List.replicate n (.failed ⟨.unterminatedString, 11⟩ (.at source.toList 11)) := by
  intro table source tokens
  have hne : ∀ k, "" ∉ table.spellings k := by decide
  refine ⟨hne, ?_⟩
  have hscan : scan (rules table) source =
      ⟨tokens, .error ⟨.unterminatedString, 11⟩, .at source.toList 11⟩ :=
    Tokens.mk.injEq .. ▸ ⟨by decide +kernel, by decide +kernel, by decide +kernel⟩
  obtain ⟨tokens', q, stop, step, hcut, -, hle, hskipped, -, hhalted, hsearches, heq⟩ :=
    searches_cover table hne source
  rw [hscan, Tokens.mk.injEq] at heq
  obtain ⟨rfl, hending, hstop⟩ := heq
  obtain rfl : 11 = stop := congrArg Cursor.offset hstop
  have hstep : step = .failed ⟨.unterminatedString, 11⟩ (.at source.toList 11) := by
    cases hhalted with
    | finished => cases hending
    | failed => rw [Except.error.inj hending]
  rw [hstep] at hsearches
  obtain rfl : q = 4 := by
    simp only [tokens] at hcut
    cases hcut with
    | token _ _ _ _ _ hcut =>
      cases hcut with
      | token _ _ _ _ _ hcut =>
        cases hcut
        rfl
  exact ⟨hcut, hskipped, hsearches⟩

end Scriptlet.Lexer
