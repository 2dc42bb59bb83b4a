import Scriptlet.Proofs.Lookahead
import Scriptlet.Proofs.TokenCover

/-!
Tokens of a part of a text. If a part of a text starts where one token starts and ends where another one
ends, it is cut into the same tokens as it is in the text, at places of its own.

A name that stands right behind a word character could be a keyword at the beginning of a text; such names
are excluded.
-/

namespace Scriptlet

namespace Lexer

open Text

/-! ## Tokens of a part -/

section
variable {source : List Char} {low high p q : Nat}

theorem drop_slice (hlow : low ≤ p) : (slice source low high).drop (p - low) = slice source p high := by
  rw [slice, slice, List.drop_drop, Nat.add_sub_cancel' hlow]

theorem take_slice {n : Nat} (hn : p + n ≤ high) :
    (slice source p high).take n = (source.drop p).take n := by
  rw [slice, List.drop_take, List.take_take, Nat.min_eq_left (by omega)]

/-- In a part of a text, the character in front of a place is the same as in the text, except that there
is none in front of the first place. -/
theorem getLast?_take_slice (hlow : low ≤ p) (hhigh : p ≤ high) :
    ((slice source low high).take (p - low)).getLast? = (source.take p).getLast? ∨
      ((slice source low high).take (p - low)).getLast? = none := by
  have htake : (slice source low high).take (p - low) = slice source low p := by
    rw [slice, slice, ← List.drop_take, List.take_take, Nat.min_eq_left hhigh]
  rw [htake, ← take_append_slice hlow, List.getLast?_append]
  cases (slice source low p).getLast? with
  | none => exact .inr rfl
  | some c => exact .inl rfl

variable {table : KeywordTable}

theorem firstMatch_slice (hp : table.Proper) {type : Option TokenType} {n : Nat} (hlow : low ≤ p)
    (hn : p + n ≤ high) (hhigh : high ≤ source.length)
    (h : firstMatch (rules table) (.at source p) = some (type, n))
    (hname : type = some .identifier → ∀ k, String.ofList ((source.drop p).take n) ∉ table.spellings k) :
    firstMatch (rules table) (.at (slice source low high) (p - low)) = some (type, n) := by
  have hle : n ≤ (slice source p high).length := by
    rw [slice, List.length_drop, List.length_take]
    omega
  rw [Cursor.at, ← slice_append_drop (q := high) (by omega)] at h
  rw [← take_slice hn] at hname
  rw [Cursor.at, drop_slice hlow]
  refine firstMatch_within hp h hle hname fun hbefore => ?_
  rcases getLast?_take_slice hlow (show p ≤ high by omega) with heq | heq
  · rw [heq, hbefore]
  · rw [heq]
    rfl

/-- A step goes forward, and what comes behind it too. -/
theorem Scans.step_le {type : Option TokenType} {n : Nat} {tokens : List Token}
    (h : firstMatch (rules table) (.at source p) = some (type, n))
    (hs : Scans (rules table) ((Cursor.at source p).advance n) tokens (.at source q))
    (hp : p ≤ source.length) : p + n ≤ q ∧ p + n ≤ source.length := by
  have hshort := (rules_progress table).short h
  rw [Cursor.at, List.length_drop] at hshort
  rw [Cursor.advance_at] at hs
  obtain ⟨q', hle, -, hq⟩ := hs.at (rules_progress table) (by omega)
  obtain rfl : q = q' := congrArg Cursor.offset hq
  exact ⟨hle, by omega⟩

/-- The tokens between two places of a part of a text are found in the part by itself. -/
theorem Scans.within (hp : table.Proper) {tokens : List Token}
    (h : Scans (rules table) (.at source p) tokens (.at source q)) (hlow : low ≤ p)
    (hple : p ≤ source.length) (hq : q ≤ high) (hhigh : high ≤ source.length)
    (hname : ∀ t ∈ tokens, t.type = .identifier → ∀ k, t.text ∉ table.spellings k) :
    Scans (rules table) (.at (slice source low high) (p - low))
      (tokens.map (Token.relocate (· - low))) (.at (slice source low high) (q - low)) := by
  generalize hstart : Cursor.at source p = start at h
  generalize hstop : Cursor.at source q = stop at h
  induction h generalizing p with
  | stop c =>
    obtain rfl : p = q := congrArg Cursor.offset (hstart.trans hstop.symm)
    exact .stop _
  | @drop c c' tokens n hm hs ih =>
    subst hstart hstop
    obtain ⟨hle, hlen⟩ := Scans.step_le hm hs hple
    have hrest := ih (p := p + n) (by omega) hlen hname (Cursor.advance_at ..).symm rfl
    refine .drop (firstMatch_slice hp hlow (by omega) hhigh hm (fun htype => by cases htype)) ?_
    rwa [Cursor.advance_at, ← Nat.sub_add_comm hlow]
  | @token c c' tokens type n hpos hm hs ih =>
    subst hstart hstop
    obtain ⟨hle, hlen⟩ := Scans.step_le hm hs hple
    obtain ⟨hthis, hname⟩ := List.forall_mem_cons.1 hname
    have hrest := ih (p := p + n) (by omega) hlen hname (Cursor.advance_at ..).symm rfl
    have hm' := firstMatch_slice hp hlow (by omega) hhigh hm (fun htype => hthis (Option.some.inj htype))
    have htoken : ((Cursor.at source p).token type n).relocate (· - low) =
        (Cursor.at (slice source low high) (p - low)).token type n := by
      simp only [Cursor.token, Cursor.at, Token.relocate, Span.relocate, drop_slice hlow,
        take_slice (show p + n ≤ high by omega), Nat.sub_add_comm hlow]
    rw [List.map_cons, htoken]
    refine .token hpos hm' ?_
    rwa [Cursor.advance_at, ← Nat.sub_add_comm hlow]

end

section
variable {rules : List Rule} {c c' : Cursor} {w more : List Token}

/-- Tokens at the beginning of a text are found between the start of the first and the end of the last. -/
theorem Scans.between (h : Scans rules c (w ++ more) c') (hw : w ≠ []) :
    ∃ c₁ c₂, Scans rules c [] c₁ ∧ Scans rules c₁ w c₂ ∧ Scans rules c₂ more c' ∧
      c₁.offset = startOf w ∧ c₂.offset = endOf 0 w := by
  generalize htokens : w ++ more = tokens at h
  induction h generalizing w with
  | stop c => exact absurd (List.append_eq_nil_iff.1 htokens).1 hw
  | drop hm _ ih =>
    obtain ⟨c₁, c₂, hskip, hrest⟩ := ih hw htokens
    exact ⟨c₁, c₂, .drop hm hskip, hrest⟩
  | @token c c' tokens type n hn hm hs ih =>
    cases w with
    | nil => exact absurd rfl hw
    | cons t w =>
      obtain ⟨rfl, rfl⟩ := List.cons.inj htokens
      refine ⟨c, ?_⟩
      by_cases hnil : w = []
      · subst hnil
        exact ⟨c.advance n, .stop c, .token hn hm (.stop _), hs, rfl, rfl⟩
      · obtain ⟨c₁, c₂, hskip, htail, hmore, -, hend⟩ := ih hnil rfl
        refine ⟨c₂, .stop c, .token hn hm (hskip.append htail), hmore, rfl, ?_⟩
        rw [endOf, hend, Parser.endOf_of_ne_nil hnil]

theorem Scans.exists_part {x u y : List Token} (h : Scans rules c (x ++ (u ++ y)) c') (hu : u ≠ []) :
    ∃ c₁ c₂, Scans rules c x c₁ ∧ Scans rules c₁ u c₂ ∧ Scans rules c₂ y c' ∧
      c₁.offset = startOf u ∧ c₂.offset = endOf 0 u := by
  by_cases hx : x = []
  · subst hx
    exact Scans.between h hu
  · obtain ⟨_, c₀, hskip, hfirst, hrest, -⟩ := h.between hx
    obtain ⟨c₁, c₂, hskip', hpart⟩ := hrest.between hu
    exact ⟨c₁, c₂, List.append_nil x ▸ (hskip.append hfirst).append hskip', hpart⟩

end

end Lexer

/-- The text of a span. -/
def excerpt (source : String) (span : Span) : String :=
  String.ofList (Lexer.slice source.toList span.start span.stop)

theorem toList_excerpt (source : String) (span : Span) :
    (excerpt source span).toList = Lexer.slice source.toList span.start span.stop :=
  String.toList_ofList

namespace Lexer

/-- The text from the start of one token to the end of another has the tokens from the one to the other, if
none of them is a name that is spelled like a keyword. -/
theorem scan_excerpt {table : KeywordTable} (hp : table.Proper) {source : String} {c : Cursor}
    {x u y : List Token} (h : Scans (rules table) (.ofSource source) (x ++ (u ++ y)) c) (hu : u ≠ [])
    (hname : ∀ t ∈ u, t.type = .identifier → ∀ k, t.text ∉ table.spellings k) :
    ∃ c', scan (rules table) (excerpt source ⟨startOf u, endOf 0 u⟩) =
      ⟨u.map (Token.relocate (· - startOf u)), .ok (.endOfInput (endOf 0 u - startOf u)), c'⟩ := by
  obtain ⟨c₁, c₂, hbefore, hpart, -, hstart, hend⟩ := h.exists_part hu
  rw [Cursor.ofSource_eq] at hbefore
  obtain ⟨p, -, hp₁, rfl⟩ := hbefore.at (rules_progress table) (Nat.zero_le _)
  obtain ⟨q, hpq, hq, rfl⟩ := hpart.at (rules_progress table) hp₁
  obtain rfl : p = startOf u := hstart
  obtain rfl : q = endOf 0 u := hend
  have hscans := hpart.within hp (Nat.le_refl _) hp₁ (Nat.le_refl _) hq hname
  rw [Nat.sub_self, ← toList_excerpt source ⟨startOf u, endOf 0 u⟩, ← Cursor.ofSource_eq] at hscans
  have hend : slice source.toList (endOf 0 u) (endOf 0 u) = [] := by
    rw [slice, List.drop_take, Nat.sub_self, List.take_zero]
  refine ⟨_, scan_of_scans hscans ?_⟩
  rw [Cursor.at, toList_excerpt]
  exact (drop_slice hpq).trans hend

end Lexer

end Scriptlet
