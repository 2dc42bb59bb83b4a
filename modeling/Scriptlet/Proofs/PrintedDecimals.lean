import Mathlib.Tactic.LinearCombination
import Scriptlet.Tree.Printer
import Scriptlet.Proofs.NumberText

/-!
Decimal literals that are printed and read again. A literal is read as a float. The float is printed in the
fewest digits, as long as these need no exponent, and with six places otherwise. Large floats are whole, so
six places are exact; but a float whose digits start behind the fourth place is read back only if it is the
float nearest to a decimal with six places (`reads_back_iff`). A literal beyond the largest float is printed
as no number at all.
-/

namespace Scriptlet

open Binary

namespace Decimal

open Lexer

variable {x : Float} {m k places : Nat} {q : Int} {r : ℚ} {p : Parts}

/-! ## Fixed places -/

/-- A number of units of a decimal place, in parts. -/
def unitParts (places units : Nat) : Parts :=
  let fraction := Nat.toDigits 10 (units % 10 ^ places)
  ⟨Nat.toDigits 10 (units / 10 ^ places), List.replicate (places - fraction.length) '0' ++ fraction, none⟩

theorem unitParts_legible (places units : Nat) : (unitParts places units).Legible where
  whole_ne := Nat.toDigits_ne_nil
  whole_digits _ := isDigit_of_mem_toDigits
  fraction_digits c hc := by
    rcases List.mem_append.1 hc with hc | hc
    · rw [(List.mem_replicate.1 hc).2]
      decide
    · exact isDigit_of_mem_toDigits hc
  exponent_digits := by rintro _ _ ⟨⟩

theorem unitParts_value (hplaces : 0 < places) (units : Nat) :
    value ((unitParts places units).whole ++ (unitParts places units).fraction) = units ∧
      (unitParts places units).place = -places := by
  have hlength : (Nat.toDigits 10 (units % 10 ^ places)).length ≤ places :=
    (Nat.length_toDigits_le_iff (by decide) hplaces).2 (Nat.mod_lt _ (Nat.pow_pos (by decide)))
  have hplace : (unitParts places units).fraction.length = places := by
    simp [unitParts, hlength]
  constructor
  · rw [value_append, hplace]
    simp only [unitParts, value_append, value_replicate_zero, value_toDigits, Nat.zero_mul, Nat.zero_add]
    exact Nat.div_add_mod' _ _
  · rw [Parts.place, hplace]
    exact Int.zero_sub _

theorem fixed_toList (h : decode x = .finite false m q) :
    (fixed places x).toList = (unitParts places (roundRat (m * 2 ^ q * 10 ^ places))).text := by
  obtain ⟨hpos, hscale⟩ := scale_spec m Nat.one_pos q
  have hunits : roundDiv ((fraction m q).1 * 10 ^ places) (fraction m q).2 =
      roundRat (m * 2 ^ q * 10 ^ places) := by
    rw [fraction, roundDiv_eq hpos, Nat.cast_mul, mul_div_right_comm, hscale]
    simp
  simp only [fixed, h, Nat.pow_eq, hunits]
  simp [unitParts, Parts.text, Parts.fractionText, Parts.exponentText, digitsOf, Nat.toDigits_ne_nil]

/-- A text with a point is read as a float. -/
theorem Parts.Legible.read {s : String} (h : p.Legible) (hfraction : p.fraction ≠ [])
    (hs : s.toList = p.text) :
    Number.read s = .ok (.float (toFloat false (value (p.whole ++ p.fraction)) p.place)) := by
  have hpoint : '.' ∈ s.toList := by simp [hs, text, fractionText, hfraction]
  have hread := h.readFloat false
  simp only [Bool.false_eq_true, ↓reduceIte, List.nil_append, ← hs, String.ofList_toList] at hread
  rw [Number.read, if_pos hpoint, hread]
  rfl

/-- What a float is read back as from its text with fixed places. -/
theorem read_fixed (hplaces : 0 < places) (h : decode x = .finite false m q) :
    Number.read (fixed places x) =
      .ok (.float (toFloat false (roundRat (m * 2 ^ q * 10 ^ places)) (-places))) := by
  obtain ⟨hvalue, hplace⟩ := unitParts_value hplaces (roundRat (m * 2 ^ q * 10 ^ places))
  rw [(unitParts_legible places _).read (by simp [unitParts, Nat.toDigits_ne_nil]) (fixed_toList h), hvalue,
    hplace]

/-- Parts without an exponent are a numeral. -/
theorem Parts.Legible.isNumeral (h : p.Legible) (hnone : p.exponent = none) : IsNumeral p.text := by
  obtain ⟨c, whole, hwhole⟩ := List.exists_cons_of_ne_nil h.whole_ne
  refine ⟨c, whole, hwhole ▸ h.whole_digits, ?_⟩
  rw [text, fractionText, exponentText, hnone, hwhole, List.append_nil]
  cases hfraction : p.fraction with
  | nil => exact .inl (List.append_nil _)
  | cons d fraction => exact .inr ⟨d, fraction, hfraction ▸ h.fraction_digits, rfl⟩

theorem not_mem_of_isNumeral {cs : List Char} {c : Char} (h : IsNumeral cs) (hc : Text.isDigit c = false)
    (hpoint : c ≠ '.') : c ∉ cs := by
  have hdigit : ∀ {ds : List Char}, (∀ d ∈ ds, Text.isDigit d = true) → c ∉ ds := fun hds hmem =>
    Bool.false_ne_true (hc.symm.trans (hds c hmem))
  obtain ⟨d, whole, hwhole, rfl | ⟨d', fraction, hfraction, rfl⟩⟩ := h
  · exact hdigit hwhole
  · intro hmem
    rcases List.mem_append.1 hmem with hmem | hmem
    · exact hdigit hwhole hmem
    · exact (List.mem_cons.1 hmem).elim hpoint (hdigit hfraction)

/-! ## Large and small floats -/

/-- A float that a large fraction rounds to is whole. -/
theorem whole_of_nearestBits (h : Normal m q) (hr : 10 ^ (16 : Int) ≤ r)
    (heq : nearestBits r = (q - leastExponent).toNat * 2 ^ 52 + m) : 0 ≤ q := by
  have hle : 1076 * 2 ^ 52 ≤ nearestBits r :=
    le_nearestBits (k := 53) (by norm_num) (le_trans (by norm_num) hr)
  have hlt := h.lt
  rw [heq, leastExponent] at hle
  omega

/-- Six places are exact for a whole float. -/
theorem toFloat_of_whole (h : decode x = .finite false m q) (hq : 0 ≤ q) :
    toFloat false (roundRat (m * 2 ^ q * 10 ^ 6)) (-6) = x := by
  obtain ⟨hnormal, -, -⟩ := decode_eq_finite h
  have hm : 0 < m := by
    have := hnormal.full (by rw [leastExponent]; omega)
    omega
  obtain ⟨n, rfl⟩ := Int.eq_ofNat_of_zero_le hq
  have hexact : roundRat (m * 2 ^ (n : Int) * 10 ^ 6) = m * 2 ^ n * 10 ^ 6 := by
    refine roundRat_of_close ?_ (by positivity)
    push_cast
    norm_num
  have hvalue : ((m * 2 ^ n * 10 ^ 6 : Nat) : ℚ) * 10 ^ (-6 : Int) = m * 2 ^ (n : Int) := by
    rw [Nat.cast_mul, mul_assoc, zpow_natCast]
    norm_num
  rw [toFloat_eq_iff h, hexact, hvalue]
  refine nearestBits_of_close hnormal hm ?_
  rw [mul_assoc, ← zpow_add₀ (by norm_num), add_neg_cancel, zpow_zero, mul_one, sub_self, abs_zero]
  positivity

/-- A float that a small fraction rounds to has a unit far below the sixth place. -/
theorem unit_le_of_nearestBits (h : Normal m q) (hr : 0 < r) (hlt : r < 10 ^ (-4 : Int))
    (heq : nearestBits r = (q - leastExponent).toNat * 2 ^ 52 + m) : q ≤ -62 := by
  by_contra hq
  have hfull : (2 : ℚ) ^ 52 ≤ m := by exact_mod_cast h.full (by rw [leastExponent]; omega)
  have herror := (abs_le.1 (abs_sub_le_of_nearestBits h hr heq)).1
  have hscaled : (2 : ℚ) ^ 51 ≤ r * 2 ^ (-q) := by linarith
  have hlarge : (10 : ℚ) ^ (-4 : Int) < r := by
    calc
      (10 : ℚ) ^ (-4 : Int) < 2 ^ 51 * 2 ^ (-61 : Int) := by norm_num
      _ ≤ r * 2 ^ (-q) * 2 ^ q := by
        gcongr
        · norm_num
        · omega
      _ = r := by rw [mul_assoc, ← zpow_add₀ (by norm_num), neg_add_cancel, zpow_zero, mul_one]
  exact absurd hlarge hlt.not_gt

/-- With a unit that small, only one decimal with six places can round to a float. -/
theorem roundRat_of_toFloat (h : decode x = .finite false m q) (hm : 0 < m) (hq : q ≤ -62)
    (heq : toFloat false k (-6) = x) : roundRat (m * 2 ^ q * 10 ^ 6) = k := by
  obtain ⟨hnormal, -, -⟩ := decode_eq_finite h
  have hbits := (toFloat_eq_iff h).1 heq
  have hk : 0 < k := by
    refine Nat.pos_of_ne_zero fun hzero => ?_
    rw [hzero, Nat.cast_zero, zero_mul, nearestBits, if_pos rfl] at hbits
    omega
  have herror := abs_sub_le_of_nearestBits hnormal (by positivity) hbits
  have hunit : (2 : ℚ) ^ q * 10 ^ 6 < 1 := by
    calc
      (2 : ℚ) ^ q * 10 ^ 6 ≤ 2 ^ (-62 : Int) * 10 ^ 6 := by
        gcongr
        norm_num
      _ < 1 := by norm_num
  refine roundRat_of_close ?_ (by positivity)
  have hdiff : (m * 2 ^ q * 10 ^ 6 : ℚ) - k = -((k * 10 ^ (-6 : Int) * 2 ^ (-q) - m) * (2 ^ q * 10 ^ 6)) := by
    have hcancel : (2 : ℚ) ^ (-q) * 2 ^ q = 1 := by
      rw [← zpow_add₀ (by norm_num), neg_add_cancel, zpow_zero]
    linear_combination (k : ℚ) * hcancel
  rw [hdiff, abs_neg, abs_mul, abs_of_pos (by positivity : (0 : ℚ) < 2 ^ q * 10 ^ 6)]
  calc
    _ ≤ 1 / 2 * ((2 : ℚ) ^ q * 10 ^ 6) := by gcongr
    _ < 1 / 2 := by linarith

/-- A float is written without an exponent between the fourth place and the sixteenth digit. -/
theorem exponent_layoutParts {digits : Nat} (hd : 0 < digits) (e : Int) :
    (layoutParts digits e).exponent = none ↔
      10 ^ (-4 : Int) ≤ (digits * 10 ^ e : ℚ) ∧ (digits * 10 ^ e : ℚ) < 10 ^ (16 : Int) := by
  obtain ⟨hlow, hhigh⟩ := decimal_bounds hd e
  have hten : (1 : ℚ) < 10 := by norm_num
  simp only [layoutParts, if_neg hd.ne']
  generalize (Nat.toDigits 10 digits).length = length at hlow hhigh ⊢
  by_cases hfar : (decide ((length : Int) - 1 + e < -4) || decide (16 ≤ (length : Int) - 1 + e)) = true
  · rw [if_pos hfar]
    simp only [reduceCtorEq, false_iff, not_and, not_lt]
    intro hle
    have hpow := (zpow_lt_zpow_iff_right₀ hten).1 (hle.trans_lt hhigh)
    simp only [Bool.or_eq_true, decide_eq_true_eq] at hfar
    exact le_trans (zpow_le_zpow_right₀ hten.le (by omega)) hlow
  · rw [if_neg hfar]
    simp only [Bool.or_eq_true, decide_eq_true_eq, not_or] at hfar
    have hbelow : 10 ^ (-4 : Int) ≤ (10 : ℚ) ^ ((length : Int) + e - 1) :=
      zpow_le_zpow_right₀ hten.le (by omega)
    have habove : (10 : ℚ) ^ ((length : Int) + e) ≤ 10 ^ (16 : Int) :=
      zpow_le_zpow_right₀ hten.le (by omega)
    split <;> exact iff_of_true rfl ⟨hbelow.trans hlow, hhigh.trans_le habove⟩

end Decimal

/-! ## Literals -/

namespace Lexer

/-- A text is a single number token. -/
def IsNumberToken (table : KeywordTable) (s : String) : Prop :=
  (scan (rules table) s).tokens = [⟨.number, s, ⟨0, s.length⟩⟩] ∧
    (scan (rules table) s).ending = .ok (.endOfInput s.length)

variable {table : KeywordTable} {s : String}

theorem isNumberToken_of_isNumeral (hp : table.Proper) (h : IsNumeral s.toList) : IsNumberToken table s := by
  have hmatch : firstMatch (rules table) (.ofSource s) = some (some .number, s.toList.length) := by
    have hfirst : firstMatch (rules table) ⟨none, 0, s.toList ++ []⟩ = _ := firstMatch_number hp h rfl
    rwa [List.append_nil] at hfirst
  have hpos : 0 < s.toList.length := by
    obtain ⟨c, whole, -, htext | ⟨d, fraction, -, htext⟩⟩ := h <;> simp [htext]
  have hscan := scan_of_scans (Scans.token hpos hmatch (.stop _)) (by simp [Cursor.advance, Cursor.ofSource])
  rw [IsNumberToken, hscan, ← String.length_toList]
  simp [Cursor.token, Cursor.advance, Cursor.ofSource]

theorem isNumeral_of_isNumberToken (h : IsNumberToken table s) : IsNumeral s.toList := by
  obtain ⟨c, hscans, -⟩ := scans_of_scan h.2 rfl
  rw [h.1] at hscans
  exact hscans.isNumeral _ (List.mem_singleton_self _) rfl

end Lexer

open Decimal Lexer

section
variable {x : Float} {m : Nat} {q : Int}

theorem numeral_float (x : Float) : Printer.numeral (.scalar (.number (.float x))) =
    .ok (if 'e' ∈ (Decimal.text x).toList then fixed 6 x else Decimal.text x) := by
  simp [Printer.numeral]

theorem numeral_of_infinite (h : decode x = .infinite false) :
    Printer.numeral (.scalar (.number (.float x))) = .ok "inf" := by
  have htext : Decimal.text x = "inf" := by
    rw [Decimal.text, h]
    rfl
  rw [numeral_float, htext]
  rfl

theorem mem_exponent_iff (h : decode x = .finite false m q) : 'e' ∈ (Decimal.text x).toList ↔
    (layoutParts (shortest m q).1 (shortest m q).2).exponent ≠ none := by
  have hlegible := (layoutParts_proper (shortest m q).1 (shortest m q).2).1.legible
  rw [text_toList h]
  cases hexponent : (layoutParts (shortest m q).1 (shortest m q).2).exponent with
  | none =>
    have hmem := not_mem_of_isNumeral (hlegible.isNumeral hexponent) (c := 'e') (by decide) (by decide)
    exact iff_of_false hmem (not_not_intro rfl)
  | some exponent => simp [Parts.text, Parts.exponentText, hexponent]

/-- A finite float is printed as a numeral, which reads as the float if its digits reach the fourth place, or
if it is the float nearest to a decimal with six places. -/
theorem reads_back_iff (h : decode x = .finite false m q) :
    ∃ printed, Printer.numeral (.scalar (.number (.float x))) = .ok printed ∧ IsNumeral printed.toList ∧
      (Number.read printed = .ok (.float x) ↔
        10 ^ (-4 : Int) ≤ ((shortest m q).1 * 10 ^ (shortest m q).2 : ℚ) ∨
          ∃ k, toFloat false k (-6) = x) := by
  refine ⟨_, numeral_float x, ?_⟩
  have hmem := mem_exponent_iff h
  obtain ⟨hnormal, -, -⟩ := decode_eq_finite h
  have hm : 0 < (shortest m q).1 → 0 < m := by
    refine fun hd => Nat.pos_of_ne_zero fun hzero => ?_
    rw [shortest, if_pos hzero] at hd
    exact Nat.lt_irrefl 0 hd
  have hshortest := toFloat_shortest h
  obtain ⟨hproper, hdecimal⟩ := layoutParts_proper (shortest m q).1 (shortest m q).2
  have hvalue := layoutParts_value (shortest m q).1 (shortest m q).2
  have htext := text_toList h
  have hexponent := fun hd : 0 < (shortest m q).1 => exponent_layoutParts hd (shortest m q).2
  generalize (shortest m q).1 = digits at *
  generalize (shortest m q).2 = e at *
  cases hnone : (layoutParts digits e).exponent with
  | none =>
    have hfraction : (layoutParts digits e).fraction ≠ [] := by
      simpa [Parts.isDecimal, hnone] using hdecimal
    have hread : Number.read (Decimal.text x) = .ok (.float x) := by
      rw [hproper.legible.read hfraction htext, toFloat_eq, hvalue, ← toFloat_eq, hshortest]
    rw [if_neg (hmem.not.2 (not_not_intro hnone))]
    refine ⟨?_, iff_of_true hread ?_⟩
    · exact htext ▸ hproper.legible.isNumeral hnone
    · rcases Nat.eq_zero_or_pos digits with rfl | hd
      · exact .inr ⟨0, hshortest⟩
      · exact .inl ((hexponent hd).1 hnone).1
  | some exponent =>
    have hd : 0 < digits := by
      refine Nat.pos_of_ne_zero fun hzero => ?_
      rw [hzero, layoutParts_zero] at hnone
      cases hnone
    have hfar := mt (hexponent hd).2 (by simp [hnone])
    have hbits := (toFloat_eq_iff h).1 hshortest
    have hpos : (0 : ℚ) < digits * 10 ^ e := by positivity
    rw [if_pos (hmem.2 (by simp [hnone]))]
    refine ⟨?_, ?_⟩
    · exact fixed_toList h ▸ (unitParts_legible 6 _).isNumeral rfl
    · rw [read_fixed (by decide) h, Except.ok.injEq, Number.float.injEq]
      by_cases hle : 10 ^ (-4 : Int) ≤ (digits * 10 ^ e : ℚ)
      · have hlarge := le_of_not_gt fun hlt => hfar ⟨hle, hlt⟩
        exact iff_of_true (toFloat_of_whole h (whole_of_nearestBits hnormal hlarge hbits)) (.inl hle)
      · have hunit := unit_le_of_nearestBits hnormal hpos (not_le.1 hle) hbits
        refine ⟨fun heq => .inr ⟨_, heq⟩, ?_⟩
        rintro (habove | ⟨k, hk⟩)
        · exact absurd habove hle
        · rw [Nat.cast_ofNat, roundRat_of_toFloat h (hm hd) hunit hk]
          exact hk

end

theorem read_literal {whole fraction : List Char} (hwhole : whole ≠ []) (hfraction : fraction ≠ [])
    (hdigits : (whole ++ fraction).all Text.isDigit = true) :
    Number.read (String.ofList (whole ++ '.' :: fraction)) =
      .ok (.float (toFloat false (value (whole ++ fraction)) (-fraction.length))) := by
  rw [List.all_append, Bool.and_eq_true, List.all_eq_true, List.all_eq_true] at hdigits
  have hparts : Parts.Legible ⟨whole, fraction, none⟩ :=
    ⟨hwhole, hdigits.1, hdigits.2, by rintro _ _ ⟨⟩⟩
  rw [hparts.read hfraction, Parts.place, Int.zero_sub]
  simp [Parts.text, Parts.fractionText, Parts.exponentText, hfraction]

/-- A decimal literal is read as a float. If it is infinite, it is printed as a text that is no number.
Otherwise the printed text is one number token, and it is read as the same float exactly if the shortest
decimal of the float is not below the fourth place, or the float is the nearest to some decimal with six
places. -/
theorem printed_literal {table : KeywordTable} (hp : table.Proper) {whole fraction : List Char}
    (hwhole : whole ≠ []) (hfraction : fraction ≠ [])
    (hdigits : (whole ++ fraction).all Text.isDigit = true) :
    ∃ x, Number.read (String.ofList (whole ++ '.' :: fraction)) = .ok (.float x) ∧
      x = toFloat false (value (whole ++ fraction)) (-fraction.length) ∧
      ((decode x = .infinite false ∧ Printer.numeral (.scalar (.number (.float x))) = .ok "inf" ∧
          ¬ IsNumberToken table "inf") ∨
        ∃ m q printed, decode x = .finite false m q ∧
          Printer.numeral (.scalar (.number (.float x))) = .ok printed ∧ IsNumberToken table printed ∧
          (Number.read printed = .ok (.float x) ↔
            10 ^ (-4 : Int) ≤ ((shortest m q).1 * 10 ^ (shortest m q).2 : ℚ) ∨
              ∃ k, toFloat false k (-6) = x)) := by
  refine ⟨_, read_literal hwhole hfraction hdigits, rfl, ?_⟩
  rcases decode_toFloat false (value (whole ++ fraction)) (-fraction.length) with
    hinfinite | ⟨m, q, hfinite⟩
  · refine .inl ⟨hinfinite, numeral_of_infinite hinfinite, fun htoken => ?_⟩
    exact absurd (by decide : 'i' ∈ "inf".toList)
      (not_mem_of_isNumeral (isNumeral_of_isNumberToken htoken) (by decide) (by decide))
  · obtain ⟨printed, hprinted, hnumeral, hiff⟩ := reads_back_iff hfinite
    exact .inr ⟨m, q, printed, hfinite, hprinted, isNumberToken_of_isNumeral hp hnumeral, hiff⟩

/-- Half is the float nearest to a decimal with six places. -/
theorem printed_literal_half :
    ∃ x printed, Number.read "0.5" = .ok (.float x) ∧
      Printer.numeral (.scalar (.number (.float x))) = .ok printed ∧ IsNumberToken .default printed ∧
      Number.read printed = .ok (.float x) := by
  obtain ⟨_, hread, rfl, h⟩ := printed_literal KeywordTable.default_proper
    (by decide : ['0'] ≠ []) (by decide : ['5'] ≠ []) (by decide)
  rcases h with ⟨hinfinite, -⟩ | ⟨m, q, printed, -, hprinted, htoken, hiff⟩
  · exact absurd hinfinite (by decide +kernel)
  · exact ⟨_, printed, hread, hprinted, htoken, hiff.2 (.inr ⟨500000, by decide +kernel⟩)⟩

/-- A one in the seventh place is printed as zero. -/
theorem numeral_of_seventh_place :
    ∃ x y, Number.read "0.0000001" = .ok (.float x) ∧
      Printer.numeral (.scalar (.number (.float x))) = .ok "0.000000" ∧
      Number.read "0.000000" = .ok (.float y) ∧ x ≠ y := by
  have hzero : ['0'] ≠ [] := by decide
  refine ⟨_, _, read_literal hzero (by decide : "0000001".toList ≠ []) (by decide), ?_,
    read_literal hzero (by decide : "000000".toList ≠ []) (by decide), by decide +kernel⟩
  rw [numeral_float]
  decide +kernel

end Scriptlet
