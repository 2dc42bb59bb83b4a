import Scriptlet.Proofs.EarlyErrors
import Scriptlet.Proofs.TableBeginnings

/-!
The first error of a text, for both parsers. Neither takes a token with which no program begins, so where
one finds an error, the other does. The exception is an assignment to something that is no name: the descent
parser refuses it at the operator, and the table-driven parser only when it has read the text.
-/

namespace Scriptlet

open Grammar (Known BeginsWhole Takes)
open Lr (Sane)

/-! ## Beginnings for both parsers -/

section

variable {room : Nat} {w : List Token} {e : SyntaxError}

theorem known_filler {type : TokenType} (h : type ∈ Parser.fillers) : Known (Parser.filler type) := by
  refine ⟨Lexer.regular_filler h, fun htype => ?_⟩
  have hnumber : ∀ type ∈ Parser.fillers, type ≠ .number := by decide
  exact absurd htype (hnumber type h)

/-- What the descent parser can complete is the beginning of a text. -/
theorem beginsWhole_of_completes (hw : ∀ t ∈ w, Known t)
    (h : ∃ v ⊆ Parser.fillers, ∀ length (tokens : Lexer.Tokens) eof,
      tokens.tokens = w ++ v.map Parser.filler → tokens.ending = .ok eof → eof.type = .endOfInput →
        ∃ p, Parser.parseTokens room length tokens = .ok p) : BeginsWhole w := by
  obtain ⟨v, hv, hok⟩ := h
  let tokens : Lexer.Tokens := ⟨w ++ v.map Parser.filler, .ok (.endOfInput 0), default⟩
  obtain ⟨p, hp⟩ := hok 0 tokens (.endOfInput 0) rfl rfl rfl
  have hknown : ∀ t ∈ v.map Parser.filler, Known t := by
    intro t ht
    obtain ⟨type, htype, rfl⟩ := List.mem_map.1 ht
    exact known_filler (hv htype)
  have hreg : ∀ t ∈ tokens.tokens, t.Regular :=
    fun t ht => (List.forall_mem_append.2 ⟨hw, hknown⟩ t ht).1
  have hderives : DerivesProgram tokens.tokens p :=
    (Parser.derives_of_parseTokens rfl rfl hreg hp).program
  -- A terminator makes a whole text of it for the productions too.
  have hwhole :
      DerivesWhole .free (withTerminator (Parser.filler .semi) tokens.tokens) p.erase.body :=
    .inl (terminable_of_derives hderives rfl _ rfl)
  rw [withTerminator] at hwhole
  split at hwhole
  · exact ⟨_, _, hknown, hwhole⟩
  · rw [List.append_assoc] at hwhole
    exact ⟨_, _, List.forall_mem_append.2 ⟨hknown, by simpa using known_filler (by decide)⟩, hwhole⟩

/-- The descent parser does not fail on the beginning of a text. -/
theorem not_beginsWhole_of_fails (habout : Parser.About w e)
    (hfails : ∀ room' length (tokens : Lexer.Tokens), room ≤ room' → w <+: tokens.tokens →
      Parser.parseTokens room' length tokens = .error e) : ¬BeginsWhole w := by
  rintro ⟨v, list, -, hwhole⟩
  let tokens : Lexer.Tokens := ⟨w ++ v, .ok (.endOfInput 0), default⟩
  have herror := hfails room 0 tokens (Nat.le_refl _) (List.prefix_append ..)
  have hderives : DerivesProgram tokens.tokens ⟨list, ⟨0, 0⟩⟩ := (derivesWhole_iff.1 hwhole).1.program
  have hparses : (∃ span, Parser.parseTokens room 0 tokens = .error (.tooDeep span)) ∨ _ :=
    Parser.parseTokens_of_derives rfl rfl hderives
  rcases hparses with ⟨span, hdeep⟩ | ⟨q, hok, -⟩
  · cases herror.symm.trans hdeep
    exact Parser.not_about_tooDeep habout
  · cases herror.symm.trans hok

theorem Grammar.Known.beginning (room : Nat) (h : ∀ t ∈ w, Known t) : Parser.Beginning room w :=
  Parser.beginning room (fun t ht => (h t ht).2) fun t ht => (h t ht).1

/-- The operator of a disjunction at the place of a token. -/
def orAt (k : Token) : Token :=
  ⟨.logicalOr, "||", k.span⟩

theorem orAt_known (k : Token) : Known (orAt k) :=
  ⟨⟨nofun, fun _ => List.mem_singleton_self _⟩, nofun⟩

/-- Where a disjunction may go on, the descent parser refuses an assignment only for its target. -/
theorem target_of_beginsWhole_or {k : Token} (hw : ∀ t ∈ w, Known t) (hk : k.type ∈ Parser.assignments)
    (hor : BeginsWhole (w ++ [orAt k])) (habout : Parser.About (w ++ [k]) e)
    (hfails : ∀ length (tokens : Lexer.Tokens), w ++ [k] <+: tokens.tokens →
      Parser.parseTokens room length tokens = .error e) :
    ∃ span kind, e = .invalidTarget span kind := by
  have herror := hfails 0 ⟨w ++ [k], .error (LexError.atChar 0 ' '), default⟩ (List.prefix_refl _)
  have hrefused : Parser.Refuses e := by
    cases e with
    | lexical => exact Parser.not_about_lexical habout
    | tooDeep => exact Parser.not_about_tooDeep habout
    | _ => trivial
  rcases Parser.parseTokens_swap hk (rfl : (orAt k).type = _) herror hrefused with
    htarget | ⟨e', he', hrefuses⟩
  · exact htarget
  · have hknown : ∀ t ∈ w ++ [orAt k], Known t :=
      List.forall_mem_append.2 ⟨hw, by simpa using orAt_known k⟩
    cases Grammar.Known.beginning room hknown with
    | stuck habout' hfails' => exact absurd hor (not_beginsWhole_of_fails habout' hfails')
    | deep hdeep =>
      obtain ⟨span, hspan⟩ := hdeep 0 ⟨w ++ [orAt k], _, _⟩ (List.prefix_refl _)
      cases he'.symm.trans hspan
      exact hrefuses.elim
    | viable hbehind _ =>
      cases hbehind 0 _ [] e' (List.append_nil _).symm he' with
      | about h =>
        obtain ⟨t, ht, -⟩ := h
        cases ht
      | lexical | deep => exact hrefuses.elim

/-- When the descent parser fails on tokens that the table-driven parser reads, it refuses what is
assigned to. The induction goes over the tokens up to the first with which the descent parser fails. -/
theorem target_of_takes {s : Lr.Stack Grammar.Attribute} (h : Takes w s) (hknown : ∀ t ∈ w, Known t)
    (habout : Parser.About w e)
    (hfails : ∀ room' length (tokens : Lexer.Tokens), room ≤ room' → w <+: tokens.tokens →
      Parser.parseTokens room' length tokens = .error e) :
    ∃ span kind, e = .invalidTarget span kind := by
  induction w using List.reverseRecOn generalizing s with
  | nil =>
    obtain ⟨t, ht, -⟩ := habout
    cases ht
  | append_singleton w k ih =>
    have hw : ∀ t ∈ w, Known t := fun t ht => hknown t (List.mem_append_left _ ht)
    obtain ⟨s₀, hs₀⟩ := h.exists_prefix
    let tokens : Lexer.Tokens := ⟨w ++ [k], .error (LexError.atChar 0 ' '), default⟩
    have herror := hfails room 0 tokens (Nat.le_refl _) (List.prefix_refl _)
    cases Grammar.Known.beginning room hw with
    | stuck habout' hfails' =>
      cases herror.symm.trans (hfails' room 0 tokens (Nat.le_refl _) (List.prefix_append ..))
      exact ih hs₀ hw habout' hfails'
    | deep hdeep =>
      obtain ⟨span, hspan⟩ := hdeep 0 tokens (List.prefix_append ..)
      cases herror.symm.trans hspan
      exact absurd habout Parser.not_about_tooDeep
    | viable _ hcompletes =>
      obtain ⟨s₁, hs₁, hsane⟩ :=
        (beginsWhole_of_completes hw (hcompletes (room + 10) (Nat.le_refl _))).takes hw
      by_cases hgood : Sane Grammar.Good Grammar.Fits s.values
      · exact absurd (Grammar.beginsWhole_of_sane h hknown hgood)
          (not_beginsWhole_of_fails habout hfails)
      · obtain ⟨hk, hor⟩ := Grammar.beginsWhole_or hs₁ hsane h hgood hw
          (show (orAt k).type = .logicalOr from rfl) (orAt_known k).1
        exact target_of_beginsWhole_or hw hk hor habout fun length tokens =>
          hfails room length tokens (Nat.le_refl _)

end

/-! ## The errors of the table-driven parser -/

namespace Grammar

variable {length : Nat} {tokens : Lexer.Tokens}

theorem parseTokens_eq_run (length : Nat) (tokens : Lexer.Tokens) : parseTokens length tokens =
    match Lr.run tables meaning terminalOf ((tokens.tokens.length + 3) * rules.length) []
      (tokens.tokens ++ Parser.final tokens.ending), tokens.ending with
    | .accepted a, _ => finish length a
    | .rejected t state, _ => .error (.unexpected t (.oneOf (expectedNames state)))
    | .unfinished, .error e => .error (.lexical e)
    | .unfinished, .ok _ => .error (.tooDeep ⟨0, length⟩) := by
  unfold parseTokens
  cases tokens.ending <;> rfl

/-- The bound on the reductions allows for all tokens. -/
theorem reading_bound {m n : Nat} (h : m ≤ n) : 15 * m + 2 ≤ (n + 3) * rules.length := by
  rw [show rules.length = 96 from rfl]
  omega

variable {w u : List Token} {err : LexError} {s : Lr.Stack Attribute}

theorem length_le_of_append {t : Token} (h : tokens.tokens ++ Parser.final tokens.ending = w ++ t :: u) :
    w.length ≤ tokens.tokens.length := by
  have hlength := congrArg List.length h
  have hlast : (Parser.final tokens.ending).length ≤ 1 := by
    cases tokens.ending <;> simp [Parser.final]
  rw [List.length_append, List.length_append, List.length_cons] at hlength
  omega

/-- When the whole text was read, only its meaning can be at fault. -/
theorem finish_error {bound : Nat} {input : List Token} {a : Attribute} {e : SyntaxError}
    (hrun : Lr.run tables meaning terminalOf bound [] input = .accepted a)
    (h : finish length a = .error e) : (∃ span, e = .tooDeep span) ∨ IsMeaningError e := by
  obtain ⟨w, eof, u, -, -, hbuilds⟩ := builds_of_run hrun
  unfold finish at h
  split at h
  · cases h
    exact .inl ⟨_, rfl⟩
  · split at h
    · cases h
    · cases h
    · rename_i hpart
      cases h
      exact .inr (hbuilds.part_error a List.mem_cons_self _ hpart)

/-- The table-driven parser reads all tokens in front of a place where no token starts. -/
theorem takes_of_lexical (h : parseTokens length tokens = .error (.lexical err)) :
    tokens.ending = .error err ∧ ∃ s, Takes tokens.tokens s := by
  rw [parseTokens_eq_run] at h
  split at h
  · rename_i hrun
    rcases finish_error hrun h with ⟨_, ⟨⟩⟩ | ⟨_, _, ⟨⟩⟩ | ⟨_, ⟨⟩⟩
  · cases h
  · rename_i hrun hending
    cases h
    rw [hending, Parser.final, List.append_nil] at hrun
    exact ⟨hending, Lr.reads_of_unfinished hrun⟩
  · cases h

theorem parseTokens_of_takes (h : Takes tokens.tokens s) (hending : tokens.ending = .error err) :
    parseTokens length tokens = .error (.lexical err) := by
  have hrun := h.run_append tables_deterministic terminalOf_lt rank_terminalOf rank_numbered
    (reading_bound (Nat.le_refl _)) []
  rw [parseTokens_eq_run, hending, Parser.final, show Lr.run tables _ _ _ _ _ = _ from hrun]
  rfl

/-- The table-driven parser reads the tokens in front of one that is unexpected, and not this one. -/
theorem takes_of_unexpected {t : Token} {expected : Expected}
    (h : parseTokens length tokens = .error (.unexpected t expected)) :
    ∃ w u s, tokens.tokens ++ Parser.final tokens.ending = w ++ t :: u ∧ Takes w s ∧
      ¬∃ s', Takes (w ++ [t]) s' := by
  rw [parseTokens_eq_run] at h
  split at h
  · rename_i hrun
    rcases finish_error hrun h with ⟨_, ⟨⟩⟩ | ⟨_, _, ⟨⟩⟩ | ⟨_, ⟨⟩⟩
  · rename_i hrun
    cases h
    obtain ⟨w, u, s, hinput, hs, hfeed⟩ := Lr.reads_of_rejected hrun
    have hbound := reading_bound (length_le_of_append hinput)
    exact ⟨w, u, s, hinput, hs, not_takes_of_rejected hs hbound hfeed⟩
  · cases h
  · cases h

theorem parseTokens_of_not_takes {t : Token}
    (hinput : tokens.tokens ++ Parser.final tokens.ending = w ++ t :: u) (h : Takes w s)
    (hnot : ¬∃ s', Takes (w ++ [t]) s') (ht : t.type ≠ .endOfInput) :
    ∃ expected, parseTokens length tokens = .error (.unexpected t expected) := by
  obtain ⟨state, hrun⟩ :=
    run_of_not_takes (u := u) h (reading_bound (length_le_of_append hinput)) hnot ht
  refine ⟨.oneOf (expectedNames state), ?_⟩
  rw [parseTokens_eq_run, hinput, hrun]

end Grammar

/-! ## The first error -/

open Lexer

/-- The descent parser refuses what is assigned to, with an operator that ends no later than a place. -/
def Misassigns (source : String) (place : Nat) : Prop :=
  ∃ span kind, parse .default source = .error (.invalidTarget span kind) ∧ span.stop ≤ place ∧
    ∃ t ∈ (scan (rules .default) source).tokens, t.type ∈ Parser.assignments ∧ t.stop = span.stop

section

variable {source : String} (hdepth : ∀ span, parse .default source ≠ .error (.tooDeep span))
  (hdigits : WithinDigits (scan (rules .default) source).tokens)

theorem known_of_scan (hdigits : WithinDigits (scan (rules .default) source).tokens) :
    ∀ t ∈ (scan (rules .default) source).tokens, Known t :=
  fun t ht => ⟨regular_scan _ _ t ht, readable_of_scan hdigits t ht⟩

/-- The end of a text is behind its tokens. -/
theorem end_of_scan {eof : Token} (h : (scan (rules .default) source).ending = .ok eof) :
    eof = .endOfInput source.length ∧
      ∀ t ∈ (scan (rules .default) source).tokens, t.stop ≤ source.length := by
  obtain ⟨c, hs, ⟨hrest, hend⟩ | ⟨e, hend⟩ | ⟨type, hm, -⟩⟩ :=
    scans_collect (rules_progress .default) (c := .ofSource source) (Nat.lt_succ_self _)
  · cases h.symm.trans hend
    have hoffset := hs.offset_of_end hrest
    exact ⟨by rw [hoffset], fun t ht => hoffset ▸ (hs.pairwise_stop.2 t ht).2⟩
  · cases h.symm.trans hend
  · exact absurd (shape_of_firstMatch hm) (not_shape_nil KeywordTable.default_proper.ne_empty type)

include hdepth hdigits

/-- On tokens at the beginning of the text the descent parser fails, for what is assigned to if the
table-driven parser reads them; or both parsers get behind them. -/
theorem fails_or_takes {w more : List Token} (hw : (scan (rules .default) source).tokens = w ++ more) :
    (∃ e, Parser.About w e ∧
      (∀ tokens : Tokens, w <+: tokens.tokens →
        Parser.parseTokens nestingLimit source.length tokens = .error e) ∧
      ∀ s, Takes w s → ∃ span kind, e = .invalidTarget span kind) ∨
    (∀ (tokens : Tokens) more e, tokens.tokens = w ++ more →
      Parser.parseTokens nestingLimit source.length tokens = .error e →
        Parser.Behind more tokens.ending e) ∧ ∃ s, Takes w s := by
  have hknown : ∀ t ∈ w, Known t :=
    fun t ht => known_of_scan hdigits t (hw ▸ List.mem_append_left _ ht)
  cases Grammar.Known.beginning nestingLimit hknown with
  | @stuck e habout hfails =>
    exact .inl ⟨e, habout, fun tokens => hfails _ _ tokens (Nat.le_refl _),
      fun s hs => target_of_takes hs hknown habout hfails⟩
  | deep hdeep =>
    obtain ⟨span, hspan⟩ := hdeep source.length _ ⟨more, hw.symm⟩
    exact absurd hspan (hdepth span)
  | viable hbehind hcompletes =>
    have hwhole := beginsWhole_of_completes hknown (hcompletes (nestingLimit + 10) (Nat.le_refl _))
    obtain ⟨s, hs, -⟩ := hwhole.takes hknown
    exact .inr ⟨fun tokens more e => hbehind source.length tokens more e, s, hs⟩

/-- The descent parser goes as far as the table-driven parser, or refuses what is assigned to. -/
theorem misassigns_or_behind {w more : List Token} {s : Lr.Stack Grammar.Attribute} {place : Nat}
    (h : Takes w s) (hw : (scan (rules .default) source).tokens = w ++ more)
    (hplace : ∀ t ∈ w, t.stop ≤ place) :
    Misassigns source place ∨ ∀ (tokens : Tokens) more e, tokens.tokens = w ++ more →
      Parser.parseTokens nestingLimit source.length tokens = .error e →
        Parser.Behind more tokens.ending e := by
  rcases fails_or_takes hdepth hdigits hw with ⟨e, ⟨t, ht, hblames⟩, hfails, htarget⟩ | ⟨hbehind, -⟩
  · obtain ⟨span, kind, rfl⟩ := htarget s h
    obtain ⟨htype, hstop⟩ := hblames
    have hmem : t ∈ (scan (rules .default) source).tokens := hw ▸ List.mem_append_left _ ht
    exact .inl ⟨span, kind, hfails _ ⟨more, hw.symm⟩, hstop ▸ hplace t ht, t, hmem, htype, hstop⟩
  · exact .inr hbehind

/-- Where no token starts. -/
theorem first_error_lexical {err : LexError}
    (h : Grammar.parse .default source = .error (.lexical err)) :
    parse .default source = .error (.lexical err) ∨ Misassigns source err.position := by
  rw [Grammar.parse_eq KeywordTable.default_proper] at h
  obtain ⟨hending, s, hs⟩ := Grammar.takes_of_lexical h
  obtain ⟨c, hscans, hc⟩ := scans_of_error (rules_progress .default) (Nat.lt_succ_self _) hending
  rcases misassigns_or_behind hdepth hdigits hs (List.append_nil _).symm
    (fun t ht => hc ▸ (hscans.pairwise_stop.2 t ht).2) with hmis | hbehind
  · exact .inr hmis
  · left
    cases hparse : parse .default source with
    | ok p => exact absurd hparse (Parser.parseTokens_of_error hending (regular_scan _ _))
    | error e =>
      have hbehind := hbehind _ [] e (List.append_nil _).symm hparse
      rw [hending] at hbehind
      cases hbehind with
      | about habout =>
        obtain ⟨t, ht, -⟩ := habout
        cases ht
      | lexical heq => cases heq; rfl
      | deep span => exact absurd hparse (hdepth span)

/-- A token that the table-driven parser does not take is to blame, if the descent parser comes to it. -/
theorem blames_of_not_takes {w more : List Token} {t : Token}
    (hw : (scan (rules .default) source).tokens = w ++ [t] ++ more)
    (hbehind : ∀ (tokens : Tokens) more e, tokens.tokens = w ++ more →
      Parser.parseTokens nestingLimit source.length tokens = .error e →
        Parser.Behind more tokens.ending e)
    (hnot : ¬∃ s, Takes (w ++ [t]) s) :
    ∃ e, parse .default source = .error e ∧ Parser.Blames t e := by
  rcases fails_or_takes hdepth hdigits hw with ⟨e, habout, hfails, -⟩ | ⟨-, htakes⟩
  · refine ⟨e, hfails _ ⟨more, hw.symm⟩, ?_⟩
    let cut : Tokens := ⟨w ++ [t], .error (LexError.atChar 0 ' '), default⟩
    cases hbehind cut [t] e rfl (hfails cut (List.prefix_refl _)) with
    | about habout' =>
      obtain ⟨u, hu, hblames⟩ := habout'
      cases List.mem_singleton.1 hu
      exact hblames
    | lexical => exact absurd habout Parser.not_about_lexical
    | deep => exact absurd habout Parser.not_about_tooDeep
  · exact absurd htakes hnot

/-- At a token that is not the end. -/
theorem first_error_unexpected {t : Token} {expected : Expected} (ht : t.type ≠ .endOfInput)
    (h : Grammar.parse .default source = .error (.unexpected t expected)) :
    (∃ expected', parse .default source = .error (.unexpected t expected')) ∨
      Misassigns source t.stop := by
  rw [Grammar.parse_eq KeywordTable.default_proper] at h
  obtain ⟨w, u, s, hseq, hs, hnot⟩ := Grammar.takes_of_unexpected h
  rcases sequence_split hseq with ⟨more, hmore, -⟩ | ⟨-, hend⟩
  · have hplace : ∀ u ∈ w, u.stop ≤ t.stop := by
      have hpairs := sequence_pairwise source
      rw [show sequence source = _ from hseq, List.pairwise_append] at hpairs
      intro u hu
      rcases hpairs.2.2 u hu t List.mem_cons_self with hlt | ⟨-, heq⟩
      · exact Nat.le_of_lt hlt
      · exact absurd heq ht
    have hmem : t ∈ (scan (rules .default) source).tokens := by
      rw [hmore]
      exact List.mem_append_right _ List.mem_cons_self
    rcases misassigns_or_behind hdepth hdigits hs hmore hplace with hmis | hbehind
    · exact .inr hmis
    · obtain ⟨e, he, hblames⟩ := blames_of_not_takes hdepth hdigits (by simpa using hmore) hbehind hnot
      cases e with
      | unexpected u expected' =>
        cases hblames
        exact .inl ⟨expected', he⟩
      | invalidTarget span kind =>
        exact .inr ⟨span, kind, he, Nat.le_of_eq hblames.2.symm, t, hmem, hblames⟩
      | badNumber fault =>
        obtain ⟨n, hn⟩ := readable_of_scan hdigits t hmem hblames.1
        cases hn.symm.trans hblames.2
      | lexical | tooDeep | badTable => exact hblames.elim
  · exact absurd (type_of_final t (by rw [hend]; exact List.mem_singleton_self t)) ht

/-- At the end. -/
theorem first_error_end {t : Token} {expected : Expected} (ht : t.type = .endOfInput)
    (h : Grammar.parse .default source = .error (.unexpected t expected)) :
    (∃ p, parse .default source = .ok p) ∨
      (t.span = ⟨source.length, source.length⟩ ∧
        ∃ expected', parse .default source = .error (.unexpected t expected')) ∨
      Misassigns source source.length := by
  rw [Grammar.parse_eq KeywordTable.default_proper] at h
  obtain ⟨w, u, s, hseq, hs, -⟩ := Grammar.takes_of_unexpected h
  rcases sequence_split hseq with ⟨more, hmore, -⟩ | ⟨hw, hend⟩
  · have hmem : t ∈ (scan (rules .default) source).tokens := by
      rw [hmore]
      exact List.mem_append_right _ List.mem_cons_self
    exact absurd ht (regular_scan _ _ t hmem).ne_end
  · obtain ⟨rfl, hplace⟩ := end_of_scan hend
    rcases misassigns_or_behind hdepth hdigits hs (by rw [hw, List.append_nil]) (hw ▸ hplace) with
      hmis | hbehind
    · exact .inr (.inr hmis)
    · cases hparse : parse .default source with
      | ok p => exact .inl ⟨p, rfl⟩
      | error e =>
        have hbehind := hbehind _ [] e (by rw [hw, List.append_nil]) hparse
        rw [hend] at hbehind
        cases hbehind with
        | about habout =>
          obtain ⟨u, hu, hblames⟩ := habout
          cases List.mem_singleton.1 hu
          cases e with
          | unexpected u expected' =>
            cases hblames
            exact .inr (.inl ⟨rfl, expected', rfl⟩)
          | invalidTarget span kind =>
            exact absurd hblames.1 (show TokenType.endOfInput ∉ Parser.assignments by decide)
          | badNumber fault => cases hblames.1
          | lexical | tooDeep | badTable => exact hblames.elim
        | lexical heq => cases heq
        | deep span => exact absurd hparse (hdepth span)

/-- Tokens that are not to blame for the error of the descent parser are read by the other. -/
theorem takes_of_not_about {w more : List Token} {e : SyntaxError}
    (h : parse .default source = .error e)
    (hw : (scan (rules .default) source).tokens = w ++ more) (habout : ¬Parser.About w e) :
    ∃ s, Takes w s := by
  rcases fails_or_takes hdepth hdigits hw with ⟨e', habout', hfails, -⟩ | ⟨-, htakes⟩
  · cases h.symm.trans (hfails _ ⟨more, hw.symm⟩)
    exact absurd habout' habout
  · exact htakes

/-- A token that the descent parser does not expect is not read by the other. -/
theorem not_takes_of_unexpected {w more : List Token} {t : Token} {expected : Expected}
    (h : parse .default source = .error (.unexpected t expected))
    (hw : (scan (rules .default) source).tokens = w ++ [t] ++ more)
    (hlater : t ∉ more ++ Parser.final (scan (rules .default) source).ending) :
    ¬∃ s, Takes (w ++ [t]) s := by
  rintro ⟨s, hs⟩
  rcases fails_or_takes hdepth hdigits hw with ⟨e, -, hfails, htarget⟩ | ⟨hbehind, -⟩
  · cases h.symm.trans (hfails _ ⟨more, hw.symm⟩)
    obtain ⟨_, _, ⟨⟩⟩ := htarget s hs
  · cases hbehind _ more _ hw h with
    | about habout =>
      obtain ⟨u, hu, rfl⟩ := habout
      exact hlater hu

theorem table_error_of_lexical {err : LexError} (h : parse .default source = .error (.lexical err)) :
    Grammar.parse .default source = .error (.lexical err) := by
  have hending : (scan (rules .default) source).ending = .error err := by
    cases Parser.behind_of_parseTokens h with
    | about habout => exact absurd habout Parser.not_about_lexical
    | lexical hend => exact hend
  obtain ⟨s, hs⟩ := takes_of_not_about hdepth hdigits h (List.append_nil _).symm Parser.not_about_lexical
  rw [Grammar.parse_eq KeywordTable.default_proper]
  exact Grammar.parseTokens_of_takes hs hending

theorem table_error_of_unexpected {t : Token} {expected : Expected} (ht : t.type ≠ .endOfInput)
    (h : parse .default source = .error (.unexpected t expected)) :
    ∃ expected', Grammar.parse .default source = .error (.unexpected t expected') := by
  cases Parser.behind_of_parseTokens h with
  | about habout =>
    obtain ⟨w, t, rest, hseq, rfl, hnone⟩ := habout.first
    rcases sequence_split hseq with ⟨more, hmore, hrest⟩ | ⟨-, hend⟩
    · obtain ⟨s, hs⟩ := takes_of_not_about hdepth hdigits h hmore hnone
      have hlater : t ∉ more ++ Parser.final (scan (rules .default) source).ending := by
        have hpairs := sequence_pairwise source
        rw [show sequence source = _ from hseq, List.pairwise_append, List.pairwise_cons,
          hrest] at hpairs
        intro hmem
        rcases hpairs.2.1.1 t hmem with hlt | ⟨-, heq⟩
        · exact Nat.lt_irrefl _ hlt
        · exact ht heq
      have hnot := not_takes_of_unexpected hdepth hdigits h (by simpa using hmore) hlater
      rw [Grammar.parse_eq KeywordTable.default_proper]
      exact Grammar.parseTokens_of_not_takes hseq hs hnot ht
    · exact absurd (type_of_final t (by rw [hend]; exact List.mem_singleton_self t)) ht

end

/-- The first error of a text. If the whole numbers of the source can be read and it nests within the limit
of the descent parser, then
* where no token starts for the table-driven parser, none starts for the descent parser, at the same place
  and for the same reason;
* a token that the first does not expect, the second does not expect;
* where the first does not expect the end, the second accepts the source or does not expect the end.
In each case the second may have refused what is assigned to, with an operator that ends no later. And
where the second finds no token, or one that it does not expect, the first has the same error. -/
theorem first_error_agrees (source : String)
    (hdepth : ∀ span, parse .default source ≠ .error (.tooDeep span))
    (hdigits : WithinDigits (scan (rules .default) source).tokens) :
    (∀ e, (Grammar.Cache.parse {} .default source).1 = .error (.lexical e) →
      parse .default source = .error (.lexical e) ∨ Misassigns source e.position) ∧
    (∀ t expected, (Grammar.Cache.parse {} .default source).1 = .error (.unexpected t expected) →
      t.type ≠ .endOfInput →
      (∃ expected', parse .default source = .error (.unexpected t expected')) ∨
        Misassigns source t.stop) ∧
    (∀ t expected, (Grammar.Cache.parse {} .default source).1 = .error (.unexpected t expected) →
      t.type = .endOfInput →
      (∃ p, parse .default source = .ok p) ∨
        (t.span = ⟨source.length, source.length⟩ ∧
          ∃ expected', parse .default source = .error (.unexpected t expected')) ∨
        Misassigns source source.length) ∧
    (∀ e, parse .default source = .error (.lexical e) →
      (Grammar.Cache.parse {} .default source).1 = .error (.lexical e)) ∧
    ∀ t expected, parse .default source = .error (.unexpected t expected) → t.type ≠ .endOfInput →
      ∃ expected', (Grammar.Cache.parse {} .default source).1 = .error (.unexpected t expected') :=
  ⟨fun _ => first_error_lexical hdepth hdigits,
    fun _ _ h ht => first_error_unexpected hdepth hdigits ht h,
    fun _ _ h ht => first_error_end hdepth hdigits ht h,
    fun _ => table_error_of_lexical hdepth hdigits,
    fun _ _ h ht => table_error_of_unexpected hdepth hdigits ht h⟩

/-- An operand is missing in a loop, in front of a place where no token starts. -/
theorem first_error_agrees_missing_operand :
    parse .default "for (let x = f(y) ; x < z ; ) x = (y + ; @" =
        .error (.unexpected ⟨.semi, ";", ⟨39, 40⟩⟩ .expression) ∧
      ∃ expected, (Grammar.Cache.parse {} .default "for (let x = f(y) ; x < z ; ) x = (y + ; @").1 =
        .error (.unexpected ⟨.semi, ";", ⟨39, 40⟩⟩ expected) := by
  have h : parse .default "for (let x = f(y) ; x < z ; ) x = (y + ; @" =
      .error (.unexpected ⟨.semi, ";", ⟨39, 40⟩⟩ .expression) :=
    error_of_map (f := fun _ => ()) (by decide +kernel)
  exact ⟨h, (first_error_agrees _ (fun span => by rw [h]; rintro ⟨⟩) (by decide +kernel)).2.2.2.2 _ _ h
    (by rintro ⟨⟩)⟩

end Scriptlet
