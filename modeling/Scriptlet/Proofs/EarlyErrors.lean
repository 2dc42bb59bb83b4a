import Scriptlet.Proofs.Spelling

/-!
Syntax errors come as early as they can. When the descent parser raises an error, some program begins with
the tokens that it has taken, and no program begins with these tokens and the one that it has ahead. Where
no token starts, some program begins with all the tokens in front of that place.
-/

namespace Scriptlet

open Lexer

/-! ## The tokens of a text and their ends -/

namespace Lexer

section
variable {rules : List Rule} {c c' : Cursor} {tokens : List Token}

/-- Every token ends behind the one before it. -/
theorem Scans.pairwise_stop (h : Scans rules c tokens c') :
    tokens.Pairwise (fun t u => t.stop < u.stop) ∧
      ∀ t ∈ tokens, c.offset < t.stop ∧ t.stop ≤ c'.offset := by
  induction h with
  | stop c => exact ⟨.nil, fun t ht => nomatch ht⟩
  | @drop c c' tokens n hm hs ih =>
    refine ⟨ih.1, fun t ht => ?_⟩
    have hrange := ih.2 t ht
    rw [Cursor.advance_offset] at hrange
    omega
  | @token c c' tokens type n hn hm hs ih =>
    have hle : c.offset + n ≤ c'.offset := hs.ordered.le
    have hstop : (c.token type n).stop = c.offset + n := rfl
    rw [Cursor.advance_offset] at ih
    refine ⟨List.pairwise_cons.2 ⟨fun t ht => hstop ▸ (ih.2 t ht).1, ih.1⟩, fun t ht => ?_⟩
    rcases List.mem_cons.1 ht with rfl | ht
    · omega
    · have := ih.2 t ht
      omega

theorem position_of_failed {bound : Nat} {e : LexError} (h : nextWithin rules bound c = .failed e c') :
    e.position = c'.offset := by
  induction bound generalizing c with
  | zero => cases h
  | succ bound ih =>
    rw [nextWithin] at h
    split at h
    · cases h
    · split at h
      · cases h
        rfl
      · exact ih h
      · cases h

/-- Where no token starts, the tokens end no later. -/
theorem scans_of_error (hp : Progress rules) {bound : Nat} {e : LexError} (hlen : c.rest.length < bound)
    (h : (collect rules bound c).ending = .error e) :
    ∃ c', Scans rules c (collect rules bound c).tokens c' ∧ c'.offset = e.position := by
  induction bound generalizing c with
  | zero => omega
  | succ bound ih =>
    obtain ⟨c₁, hs, hle, ⟨hrest, hnext⟩ | ⟨-, e', hnext⟩ | ⟨type, n, hm, hnext⟩⟩ :=
      nextWithin_spec hp hlen
    · rw [collect, hnext] at h
      cases h
    · rw [collect, hnext] at h ⊢
      cases h
      exact ⟨c₁, hs, (position_of_failed hnext).symm⟩
    · rw [collect, hnext] at h ⊢
      have hshort := hp.short hm
      simp only [Cursor.token_isEmpty hshort] at h ⊢
      by_cases hn : n = 0
      · subst hn
        cases h
      · have hless : (c₁.advance n).rest.length = c₁.rest.length - n := List.length_drop
        simp only [hn, decide_false, Bool.false_eq_true, ↓reduceIte] at h ⊢
        obtain ⟨c', hs', hc⟩ := ih (by omega) h
        exact ⟨c', hs.append (.token (by omega) hm hs'), hc⟩

end

/-- The tokens of a text, with the one at its end if it is tokens up to there. -/
def sequence (source : String) : List Token :=
  (scan (rules .default) source).tokens ++ Parser.final (scan (rules .default) source).ending

variable {source : String}

theorem eq_of_final :
    ∀ t ∈ Parser.final (scan (rules .default) source).ending, ∃ n, t = .endOfInput n := by
  obtain ⟨c, -, ⟨-, hend⟩ | ⟨e, hend⟩ | ⟨type, hm, hend⟩⟩ :=
    scans_collect (rules_progress .default) (c := .ofSource source) (Nat.lt_succ_self _)
  · intro t ht
    rw [scan, tokensFrom, hend] at ht
    exact ⟨_, List.mem_singleton.1 ht⟩
  · intro t ht
    rw [scan, tokensFrom, hend] at ht
    cases ht
  · exact absurd (shape_of_firstMatch hm)
      (not_shape_nil KeywordTable.default_proper.ne_empty type)

theorem type_of_final :
    ∀ t ∈ Parser.final (scan (rules .default) source).ending, t.type = .endOfInput := by
  intro t ht
  obtain ⟨n, rfl⟩ := eq_of_final t ht
  rfl

/-- A token of a text stands in front of the end or is the end. -/
theorem sequence_split {w rest : List Token} {k : Token} (h : sequence source = w ++ k :: rest) :
    (∃ more, (scan (rules .default) source).tokens = w ++ k :: more ∧
        rest = more ++ Parser.final (scan (rules .default) source).ending) ∨
      (scan (rules .default) source).tokens = w ∧ (scan (rules .default) source).ending = .ok k := by
  rcases List.append_eq_append_iff.1 h with ⟨v, rfl, hfinal⟩ | ⟨v, htokens, hrest⟩
  · refine .inr ?_
    cases hend : (scan (rules .default) source).ending with
    | error e =>
      rw [hend] at hfinal
      cases (List.append_eq_nil_iff.1 hfinal.symm).2
    | ok eof =>
      rw [hend] at hfinal
      cases v with
      | nil =>
        cases hfinal
        exact ⟨(List.append_nil _).symm, rfl⟩
      | cons t v => cases (List.append_eq_nil_iff.1 (List.cons.inj hfinal).2.symm).2
  · cases v with
    | nil =>
      refine .inr ⟨by rw [htokens, List.append_nil], ?_⟩
      cases hend : (scan (rules .default) source).ending with
      | error e =>
        rw [hend] at hrest
        cases hrest
      | ok eof =>
        rw [hend] at hrest
        cases hrest
        rfl
    | cons t v =>
      obtain ⟨rfl, hrest'⟩ := List.cons.inj hrest
      exact .inl ⟨v, htokens, hrest'⟩

/-- No two tokens of a text are alike in where they end and in whether they are its end. -/
theorem sequence_pairwise (source : String) : (sequence source).Pairwise fun t u =>
    t.stop < u.stop ∨ t.type ≠ .endOfInput ∧ u.type = .endOfInput := by
  obtain ⟨c, hs, -⟩ := scans_collect (rules_progress .default) (c := .ofSource source)
    (Nat.lt_succ_self _)
  refine List.pairwise_append.2 ⟨hs.pairwise_stop.1.imp .inl, ?_, fun t ht u hu => ?_⟩
  · cases (scan (rules .default) source).ending with
    | ok eof => exact List.pairwise_singleton _ _
    | error e => exact .nil
  · exact .inr ⟨(regular_scan .default source t ht).ne_end, type_of_final u hu⟩

end Lexer

/-! ## The token ahead -/

namespace SyntaxError

/-- Tokens do not go together. -/
def OfTokens : SyntaxError → Prop
  | .unexpected .. | .invalidTarget .. => True
  | _ => False

/-- The token is ahead when the error is raised: it ends where the error ends, and it is the end of the
input exactly if the error says so. -/
def Ahead (e : SyntaxError) (t : Token) : Prop :=
  e.span?.map Span.stop = some t.stop ∧
    (t.type = .endOfInput ↔ e.actual? = some (TokenType.name .endOfInput))

theorem ahead_of_blames {e : SyntaxError} {t : Token} (hof : e.OfTokens) (h : Parser.Blames t e) :
    e.Ahead t := by
  cases e with
  | unexpected u expected =>
    obtain rfl : t = u := h
    have hname : t.type.name = TokenType.name .endOfInput ↔ t.type = .endOfInput := by
      generalize t.type = type
      cases type with
      | keyword k => cases k <;> decide
      | _ => decide
    exact ⟨rfl, by rw [actual?, Option.some_inj, hname]⟩
  | invalidTarget span kind =>
    obtain ⟨htype, hstop⟩ := h
    refine ⟨congrArg some hstop.symm, ?_⟩
    have hassign : t.type ≠ .endOfInput := by
      rintro heq
      rw [heq] at htype
      revert htype
      decide
    have hkind : kind.name ≠ TokenType.name .endOfInput := by cases kind <;> decide
    simp [hassign, actual?, hkind]
  | lexical | badNumber | tooDeep | badTable => exact hof.elim

/-- Only one token can have been ahead. -/
theorem Ahead.unique {e : SyntaxError} {source : String} {w rest : List Token} {k : Token}
    (hk : e.Ahead k) (hseq : sequence source = w ++ k :: rest) : ∀ t ∈ w ++ rest, ¬e.Ahead t := by
  intro t ht hahead
  have hstop : t.stop = k.stop := Option.some_inj.1 (hahead.1.symm.trans hk.1)
  have hend : t.type = .endOfInput ↔ k.type = .endOfInput := hahead.2.trans hk.2.symm
  have hpairs := sequence_pairwise source
  rw [hseq, List.pairwise_append, List.pairwise_cons] at hpairs
  rcases List.mem_append.1 ht with ht | ht
  · rcases hpairs.2.2 t ht k List.mem_cons_self with hlt | ⟨hne, heq⟩
    · omega
    · exact hne (hend.2 heq)
  · rcases hpairs.2.1.1 t ht with hlt | ⟨hne, heq⟩
    · omega
    · exact hne (hend.1 heq)

end SyntaxError

/-- The first token that is to blame. -/
theorem Parser.About.first {tokens : List Token} {e : SyntaxError} (h : About tokens e) :
    ∃ w k rest, tokens = w ++ k :: rest ∧ Blames k e ∧ ¬About w e := by
  induction tokens with
  | nil =>
    obtain ⟨t, ht, -⟩ := h
    cases ht
  | cons t tokens ih =>
    by_cases ht : Blames t e
    · exact ⟨[], t, tokens, rfl, ht, fun ⟨_, hmem, _⟩ => nomatch hmem⟩
    · have hrest : About tokens e := by
        obtain ⟨u, hu, hblames⟩ := h
        rcases List.mem_cons.1 hu with rfl | hu
        · exact absurd hblames ht
        · exact ⟨u, hu, hblames⟩
      obtain ⟨w, k, rest, htokens, hk, hw⟩ := ih hrest
      refine ⟨t :: w, k, rest, by rw [htokens, List.cons_append], hk, fun habout => ?_⟩
      obtain ⟨u, hu, hblames⟩ := habout
      rcases List.mem_cons.1 hu with rfl | hu
      · exact ht hblames
      · exact hw ⟨u, hu, hblames⟩

/-! ## Beginnings of programs -/

/-- Some program begins with tokens of these types and texts. -/
def BeginsProgram (w : List Token) : Prop :=
  ∃ source p, parse .default source = .ok p ∧
    w.map Token.lexeme <+: (sequence source).map Token.lexeme

section
variable {source : String} {e : SyntaxError}
  (h : parse .default source = .error e)
  (hdigits : WithinDigits (scan (rules .default) source).tokens)
include h hdigits

/-- Tokens that are not to blame are at the beginning of a program. -/
theorem beginsProgram_of_not_about {w more : List Token}
    (hdepth : ∀ span, Parser.parseTokens (nestingLimit - 10) source.length
      (scan (rules .default) source) ≠ .error (.tooDeep span))
    (hw : (scan (rules .default) source).tokens = w ++ more) (habout : ¬Parser.About w e) :
    BeginsProgram w := by
  have hmem : ∀ t ∈ w, t ∈ (scan (rules .default) source).tokens :=
    fun t ht => hw ▸ List.mem_append_left _ ht
  have hbegins : w <+: (scan (rules .default) source).tokens := ⟨more, hw.symm⟩
  cases Parser.beginning (nestingLimit - 10) (fun t ht => readable_of_scan hdigits t (hmem t ht))
      (fun t ht => regular_scan _ _ t (hmem t ht)) with
  | stuck habout' hfails =>
    cases h.symm.trans (hfails nestingLimit source.length _ (Nat.sub_le ..) hbegins)
    exact absurd habout' habout
  | deep hdeep =>
    obtain ⟨span, hspan⟩ := hdeep source.length _ hbegins
    exact absurd hspan (hdepth span)
  | viable _ hcompletes =>
    obtain ⟨v, hv, hok⟩ := hcompletes nestingLimit (by decide)
    obtain ⟨text, p, hp, htokens⟩ := exists_source_of_completion hw hv hok
    refine ⟨text, p, hp, ?_⟩
    rw [Lexer.sequence, List.map_append, htokens, List.map_append, List.append_assoc]
    exact List.prefix_append ..

end

/-- Tokens at the beginning of a whole text end in front of its end or with it. -/
theorem lexemes_cases {tokens w : List Token} {eof k : Token} (hreg : ∀ t ∈ tokens, t.Regular)
    (heof : eof.type = .endOfInput)
    (h : (w ++ [k]).map Token.lexeme <+: (tokens ++ [eof]).map Token.lexeme) :
    k.type ≠ .endOfInput ∧ (∃ u u', tokens = u ++ u' ∧
        u.map Token.lexeme = (w ++ [k]).map Token.lexeme) ∨
      k.type = .endOfInput ∧ tokens.map Token.lexeme = w.map Token.lexeme := by
  rw [show (tokens ++ [eof]).map Token.lexeme = tokens.map Token.lexeme ++ [eof.lexeme] from
    List.map_append, List.prefix_concat_iff] at h
  rcases h with heq | ⟨more, hmore⟩
  · rw [List.map_append, List.map_singleton] at heq
    obtain ⟨hw, hk⟩ := List.append_inj' heq rfl
    have htype : k.type = eof.type := congrArg Prod.fst (List.cons.inj hk).1
    exact .inr ⟨htype.trans heof, hw.symm⟩
  · refine .inl ⟨fun hend => ?_, ?_⟩
    · have hmem : k.lexeme ∈ tokens.map Token.lexeme := by
        rw [← hmore]
        simp
      obtain ⟨t, ht, hlexeme⟩ := List.mem_map.1 hmem
      have htype : t.type = k.type := congrArg Prod.fst hlexeme
      exact (hreg t ht).ne_end (htype.trans hend)
    · obtain ⟨u, u', htokens, hu, -⟩ := List.map_eq_append_iff.1 hmore.symm
      exact ⟨u, u', htokens, hu⟩

section
variable {source : String} {e : SyntaxError}
  (h : parse .default source = .error e)
  (hdigits : WithinDigits (scan (rules .default) source).tokens)
include h hdigits

/-- No program begins with the tokens up to the one that is to blame. -/
theorem not_beginsProgram_of_blames {w rest : List Token} {k : Token} (hof : e.OfTokens)
    (hblames : Parser.Blames k e) (hseq : sequence source = w ++ k :: rest) :
    ¬BeginsProgram (w ++ [k]) := by
  rintro ⟨text, p, hp, hbegins⟩
  obtain ⟨eof, heof, htype⟩ := exists_end_of_parse KeywordTable.default_proper.ne_empty hp
  have htext : sequence text = (scan (rules .default) text).tokens ++ [eof] := by
    rw [Lexer.sequence, heof]
    rfl
  rw [htext] at hbegins
  rcases lexemes_cases (regular_scan _ text) htype hbegins with ⟨hk, u, u', hu, hlexemes⟩ | ⟨hk, hw⟩
  · -- The program goes the way of the source up to the token, where that run has failed.
    rcases sequence_split hseq with ⟨more, hmore, hrest⟩ | ⟨-, hend⟩
    · let mixed : Tokens := ⟨w ++ [k] ++ u', .ok eof, default⟩
      obtain ⟨q, hq, -⟩ : ∃ q, Parser.parseTokens nestingLimit text.length mixed = .ok q ∧
          q.erase = p.erase := by
        refine Parser.parseTokens_relaid heof rfl rfl ?_ hp
        rw [hu, Parser.Same, List.map_append, List.map_append, map_erase_of_lexeme hlexemes]
      have hmore' : (scan (rules .default) source).tokens = w ++ [k] ++ more := by
        rw [hmore, List.append_assoc, List.singleton_append]
      have hmem : ∀ t ∈ w ++ [k], t ∈ (scan (rules .default) source).tokens :=
        fun t ht => hmore' ▸ List.mem_append_left _ ht
      cases Parser.beginning nestingLimit (fun t ht => readable_of_scan hdigits t (hmem t ht))
          (fun t ht => regular_scan _ _ t (hmem t ht)) with
      | stuck _ hfails =>
        have hfail := hfails nestingLimit text.length mixed (Nat.le_refl _) ⟨u', rfl⟩
        cases hq.symm.trans hfail
      | deep hdeep =>
        obtain ⟨span, hspan⟩ := hdeep source.length _ ⟨more, hmore'.symm⟩
        cases h.symm.trans hspan
        exact hof
      | viable hbehind _ =>
        -- An error that is about a later token is not the one that was raised.
        cases hbehind source.length _ more e hmore' h with
        | about habout =>
          obtain ⟨t, ht, hblames'⟩ := habout
          have hahead := SyntaxError.ahead_of_blames hof hblames'
          refine (SyntaxError.ahead_of_blames hof hblames).unique hseq t ?_ hahead
          exact List.mem_append_right _ (hrest ▸ ht)
        | lexical | deep => exact hof
    · exact hk (type_of_final k (by rw [hend]; exact List.mem_singleton_self k))
  · -- The program has the same tokens as the source.
    rcases sequence_split hseq with ⟨more, hmore, -⟩ | ⟨htokens, hend⟩
    · have hmem : k ∈ (scan (rules .default) source).tokens := by
        rw [hmore]
        simp
      exact (regular_scan _ _ k hmem).ne_end hk
    · have hsame : eof.erase = k.erase := by
        obtain ⟨n, rfl⟩ := eq_of_final eof (by rw [heof]; exact List.mem_singleton_self eof)
        obtain ⟨m, rfl⟩ := eq_of_final k (by rw [hend]; exact List.mem_singleton_self k)
        rfl
      obtain ⟨q, hq, -⟩ : ∃ q, parse .default source = .ok q ∧ q.erase = p.erase := by
        refine Parser.parseTokens_relaid heof hend hsame ?_ hp
        rw [htokens]
        exact map_erase_of_lexeme hw
      cases h.symm.trans hq

end

/-- Errors come as early as they can. If the source nests ten rules below the limit at least, so that
what it has begun can be completed, and its whole numbers can be read, then
* for a place where no token starts, some program begins with the tokens in front of it;
* for any other error, some program begins with the tokens in front of the one ahead, and no program
  begins with these tokens and the one ahead. -/
theorem parse_error_earliest (source : String)
    (hdepth : ∀ span, Parser.parseTokens (nestingLimit - 10) source.length
      (scan (rules .default) source) ≠ .error (.tooDeep span))
    (hdigits : WithinDigits (scan (rules .default) source).tokens) :
    (∀ e : LexError, parse .default source = .error (.lexical e) →
      (∀ t ∈ (scan (rules .default) source).tokens, t.stop ≤ e.position) ∧
        BeginsProgram (scan (rules .default) source).tokens) ∧
    ∀ e : SyntaxError, parse .default source = .error e → e.OfTokens →
      ∃ w k rest, sequence source = w ++ k :: rest ∧ e.Ahead k ∧ (∀ t ∈ w ++ rest, ¬e.Ahead t) ∧
        BeginsProgram w ∧ ¬BeginsProgram (w ++ [k]) := by
  constructor
  · intro e h
    have hend : (scan (rules .default) source).ending = .error e := by
      cases Parser.behind_of_parseTokens h with
      | about habout => exact absurd habout Parser.not_about_lexical
      | lexical hend => exact hend
    obtain ⟨c, hs, hc⟩ := scans_of_error (rules_progress .default) (Nat.lt_succ_self _) hend
    exact ⟨fun t ht => hc ▸ (hs.pairwise_stop.2 t ht).2, beginsProgram_of_not_about h hdigits hdepth
      (List.append_nil _).symm Parser.not_about_lexical⟩
  · intro e h hof
    cases Parser.behind_of_parseTokens h with
    | lexical | deep => exact hof.elim
    | about habout =>
      obtain ⟨w, k, rest, hseq, hblames, hnone⟩ := habout.first
      have hahead := SyntaxError.ahead_of_blames hof hblames
      obtain ⟨more, hmore⟩ : ∃ more, (scan (rules .default) source).tokens = w ++ more := by
        rcases sequence_split hseq with ⟨more, hmore, -⟩ | ⟨htokens, -⟩
        · exact ⟨_, hmore⟩
        · exact ⟨[], by rw [htokens, List.append_nil]⟩
      exact ⟨w, k, rest, hseq, hahead, hahead.unique hseq,
        beginsProgram_of_not_about h hdigits hdepth hmore hnone,
        not_beginsProgram_of_blames h hdigits hof hblames hseq⟩

/-- A condition that assigns to a call. -/
theorem parse_error_earliest_condition :
    parse .default "while (f(x) = y) ;" = .error (.invalidTarget ⟨7, 13⟩ .callExpression) ∧
      ∃ w k rest, sequence "while (f(x) = y) ;" = w ++ k :: rest ∧
        (SyntaxError.invalidTarget ⟨7, 13⟩ .callExpression).Ahead k ∧
        (∀ t ∈ w ++ rest, ¬(SyntaxError.invalidTarget ⟨7, 13⟩ .callExpression).Ahead t) ∧
        BeginsProgram w ∧ ¬BeginsProgram (w ++ [k]) := by
  have h : parse .default "while (f(x) = y) ;" =
      .error (.invalidTarget ⟨7, 13⟩ .callExpression) :=
    error_of_map (f := fun _ => ()) (by decide +kernel)
  have hroom : Parser.parseTokens (nestingLimit - 10) "while (f(x) = y) ;".length
      (scan (rules .default) "while (f(x) = y) ;") =
        .error (.invalidTarget ⟨7, 13⟩ .callExpression) :=
    error_of_map (f := fun _ => ()) (by decide +kernel)
  refine ⟨h, (parse_error_earliest _ (fun span hspan => ?_) (by decide +kernel)).2 _ h trivial⟩
  cases hroom.symm.trans hspan

end Scriptlet
