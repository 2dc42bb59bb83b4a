import Scriptlet.Proofs.ParserGrammar
import Scriptlet.Proofs.ViableRules

/-!
Beginnings of texts. What the descent parser makes of the tokens at the beginning of a text is one of
three things: it fails on them, and then on every text that begins so; it runs out of room; or it takes
them all. In the third case a few more tokens make a program of them, and whatever error comes is about
what stands behind them.
-/

namespace Scriptlet.Parser

/-- An error on a text, given what stands behind its first tokens. -/
inductive Behind (more : List Token) (ending : Except LexError Token) : SyntaxError → Prop
  | about {e : SyntaxError} (h : About (more ++ final ending) e) : Behind more ending e
  | lexical {e : LexError} (h : ending = .error e) : Behind more ending (.lexical e)
  | deep (span : Span) : Behind more ending (.tooDeep span)

/-- What the parser makes of the tokens at the beginning of a text. -/
inductive Beginning (room : Nat) (w : List Token) : Prop
  | stuck {e : SyntaxError} (h : About w e)
      (hfails : ∀ room' length tokens, room ≤ room' → w <+: tokens.tokens →
        parseTokens room' length tokens = .error e)
  | deep (hdeep : ∀ length tokens, w <+: tokens.tokens →
        ∃ span, parseTokens room length tokens = .error (.tooDeep span))
  | viable
      (hbehind : ∀ length tokens more e, tokens.tokens = w ++ more →
        parseTokens room length tokens = .error e → Behind more tokens.ending e)
      (hcompletes : ∀ room', room + 10 ≤ room' → ∃ v ⊆ fillers, ∀ length tokens eof,
        tokens.tokens = w ++ v.map filler → tokens.ending = .ok eof → eof.type = .endOfInput →
          ∃ p, parseTokens room' length tokens = .ok p)

variable {tokens : List Token} {e : SyntaxError} {room length : Nat}

theorem not_about_lexical {e : LexError} : ¬About tokens (.lexical e) :=
  fun ⟨_, _, hblames⟩ => hblames

theorem not_about_tooDeep {span : Span} : ¬About tokens (.tooDeep span) :=
  fun ⟨_, _, hblames⟩ => hblames

theorem Lands.behind {α : Type} {more : List Token} {ending : Except LexError Token}
    (hsub : tokens ⊆ more ++ final ending)
    (h : Lands tokens ending (.error e : Except SyntaxError (α × State))) : Behind more ending e := by
  cases h with
  | about h => exact .about (h.mono hsub)
  | lexical h => exact .lexical h
  | deep span => exact .deep span

/-- Two runs on the same text, or with room to spare in the second. -/
def cutAt (e : LexError) (exact spare : Prop) (n : Nat) : Cut :=
  ⟨e, exact, spare, n, 0⟩

theorem statements_forward (n room : Nat) (s : State) : ForwardAt (statements n room) s := by
  have hroom : Roomy (cutAt (LexError.atChar 0 ' ') True False 0) room room :=
    ⟨Nat.le_refl _, fun _ => rfl, nofun⟩
  exact (viable_statements hroom).forward trivial n s

/-- Whatever error comes, it is about a token, about what is behind them, or about the nesting. -/
theorem behind_of_parseTokens {tokens : Lexer.Tokens} (h : parseTokens room length tokens = .error e) :
    Behind tokens.tokens tokens.ending e := by
  cases hlist : tokens.tokens with
  | cons t rest =>
    rw [parseTokens_cons room length hlist] at h
    have hlands := statements_forward (rest.length + 2) room ⟨t, rest, tokens.ending, 0⟩
    rw [ForwardAt, eq_error_of_map h] at hlands
    exact hlands.behind (List.Subset.refl _)
  | nil =>
    cases hend : tokens.ending with
    | ok eof =>
      rw [parseTokens_eq hend, hlist, List.length_nil] at h
      have hlands := statements_forward (0 + 1) room (stateAt eof 0 [])
      rw [ForwardAt, eq_error_of_map h] at hlands
      exact hlands.behind (by simp [State.all, final, stateAt])
    | error err =>
      obtain ⟨list, ending, stop⟩ := tokens
      cases hlist
      cases hend
      cases h
      exact .lexical rfl

theorem beginning_nil (room : Nat) : Beginning room [] := by
  refine .viable ?_ ?_
  · intro length tokens more e htokens h
    rw [List.nil_append] at htokens
    exact htokens ▸ behind_of_parseTokens h
  · intro room' _
    refine ⟨[], List.nil_subset _, fun length tokens eof htokens hend heof => ?_⟩
    refine ⟨⟨[], ⟨0, length⟩⟩, ?_⟩
    have hstop : statements 1 room' (stateAt eof 0 []) = .ok ([], stateAt eof 0 []) := by
      simp [statements, repeatWhile, heof]
    rw [parseTokens_eq hend, htokens]
    exact congrArg (Except.map _) hstop

section
variable {room : Nat} {t : Token} {rest : List Token} {err : LexError}
  (hread : ∀ u ∈ t :: rest, u.type = .number → ∃ n, Number.read u.text = .ok n)
include hread

/-- The run on a text that begins with some tokens, given the run on these tokens. -/
theorem extended_of_begins {exact spare : Prop} {room' : Nat} (length : Nat) {tokens : Lexer.Tokens}
    {more : List Token} (hroom : Roomy (cutAt err exact spare (rest.length + 2)) room room')
    (htokens : tokens.tokens = t :: rest ++ more) :
    ∃ r, parseTokens room' length tokens = r.map (fun p => ⟨p.1, ⟨0, length⟩⟩) ∧
      Extended (cutAt err exact spare (rest.length + 2)) 0 ⟨t, rest, .error err, 0⟩ more tokens.ending
        (statements (rest.length + 2) room ⟨t, rest, .error err, 0⟩) r := by
  refine ⟨_, parseTokens_cons room' length htokens, ?_⟩
  exact ((viable_statements hroom).viableAt ⟨t, rest, .error err, 0⟩).goesOn rfl
    (Nat.lt_succ_self _) hread ((rest ++ more).length + 2) more tokens.ending (by
      simp only [List.length_append, cutAt]
      omega)

end

/-- The run on the tokens with no token behind them decides. -/
theorem beginning_cons (room : Nat) {t : Token} {rest : List Token}
    (hread : ∀ u ∈ t :: rest, u.type = .number → ∃ n, Number.read u.text = .ok n)
    (hreg : ∀ u ∈ t :: rest, u.Regular) : Beginning room (t :: rest) := by
  let err : LexError := LexError.atChar 0 ' '
  let cut : Lexer.Tokens := ⟨t :: rest, .error err, default⟩
  have hsame : Roomy (cutAt err True False (rest.length + 2)) room room :=
    ⟨Nat.le_refl _, fun _ => rfl, nofun⟩
  have hcuts : cut.tokens = t :: rest ++ [] := (List.append_nil _).symm
  obtain ⟨r, hparse, hext⟩ := extended_of_begins hread 0 hsame hcuts
  cases hcut : statements (rest.length + 2) room ⟨t, rest, .error err, 0⟩ with
  | ok p =>
    have hok := parseTokens_cons room 0 (show cut.tokens = t :: rest from rfl)
    rw [show statements (rest.length + 2) room ⟨t, rest, cut.ending, 0⟩ = .ok p from hcut] at hok
    exact absurd hok (parseTokens_of_error rfl hreg)
  | error e =>
    rw [hcut] at hext
    cases hext with
    | stuck habout =>
      refine .stuck habout fun room' length tokens hle hbegins => ?_
      obtain ⟨more, hmore⟩ := hbegins
      have hroom : Roomy (cutAt err False False (rest.length + 2)) room room' := ⟨hle, nofun, nofun⟩
      obtain ⟨r', hparse', hext'⟩ := extended_of_begins hread length hroom hmore.symm
      rw [hcut] at hext'
      rw [hparse']
      cases hext' with
      | stuck => rfl
      | beyond => exact absurd habout not_about_lexical
      | deep => exact absurd habout not_about_tooDeep
    | beyond =>
      refine .viable (fun length tokens more e htokens h => ?_) fun room' hle => ?_
      · obtain ⟨r', hparse', hext'⟩ := extended_of_begins hread length hsame htokens
        rw [hcut] at hext'
        rw [hparse'] at h
        cases eq_error_of_map h
        cases hext' with
        | stuck habout => exact absurd habout not_about_lexical
        | beyond hlands => exact (hlands trivial).behind (List.Subset.refl _)
      · have hroom : Roomy (cutAt err False True (rest.length + 2)) room room' :=
          ⟨by omega, nofun, fun _ => hle⟩
        obtain ⟨v, hv, hdone⟩ := ((viable_statements hroom).viableAt ⟨t, rest, .error err, 0⟩).completes
          trivial rfl (Nat.lt_succ_self _) hread hcut
        refine ⟨v, hv, fun length tokens eof htokens hend heof => ?_⟩
        obtain ⟨body, last, hbody⟩ := hdone ((rest ++ v.map filler).length + 2) eof [] (by
          simp only [List.length_append, cutAt]
          omega) heof (by rw [heof]; exact List.mem_singleton_self _)
        rw [List.append_nil] at hbody
        refine ⟨⟨body, ⟨0, length⟩⟩, ?_⟩
        rw [parseTokens_cons room' length htokens, hend]
        exact congrArg (Except.map _) hbody
    | @deep span =>
      refine .deep fun length tokens hbegins => ?_
      obtain ⟨more, hmore⟩ := hbegins
      obtain ⟨r', hparse', hext'⟩ := extended_of_begins hread length hsame hmore.symm
      rw [hcut] at hext'
      refine ⟨span, ?_⟩
      rw [hparse']
      cases hext' with
      | stuck habout => exact absurd habout not_about_tooDeep
      | deep h => rw [h trivial]; rfl

theorem beginning (room : Nat) {w : List Token}
    (hread : ∀ t ∈ w, t.type = .number → ∃ n, Number.read t.text = .ok n)
    (hreg : ∀ t ∈ w, t.Regular) : Beginning room w := by
  cases w with
  | nil => exact beginning_nil room
  | cons t rest => exact beginning_cons room hread hreg

end Scriptlet.Parser
