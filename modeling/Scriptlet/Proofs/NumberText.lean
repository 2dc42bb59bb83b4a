import Scriptlet.Proofs.FloatRounding
import Scriptlet.Proofs.Numerals

/-!
The text of a float reads back as the float. Among the decimals with seventeen digits there is one that
rounds to the float, so the search for the fewest digits ends with digits that do (`nearestBits_shortest`).
Laying them out keeps their value: the text consists of parts that are read on their own (`Parts`), and
zeros at either end do not count (`layoutParts_value`).

Main statement: `exists_parts`.
-/

namespace Scriptlet.Decimal

open Binary

/-! ## Decimals as fractions -/

theorem asFraction_spec (digits : Nat) (e : Int) :
    0 < (asFraction digits e).2 ∧
      ((asFraction digits e).1 / (asFraction digits e).2 : ℚ) = digits * 10 ^ e := by
  simp only [asFraction, Nat.pow_eq]
  split
  · rename_i he
    obtain ⟨k, rfl⟩ := Int.eq_ofNat_of_zero_le he
    refine ⟨Nat.one_pos, ?_⟩
    push_cast
    rw [Int.toNat_natCast, zpow_natCast, div_one]
  · rename_i he
    obtain ⟨k, hk⟩ := Int.eq_ofNat_of_zero_le (show 0 ≤ -e by omega)
    obtain rfl : e = -k := by omega
    refine ⟨Nat.pow_pos (by decide), ?_⟩
    push_cast
    rw [neg_neg, Int.toNat_natCast, zpow_neg, zpow_natCast, div_eq_mul_inv]

theorem roundBits_asFraction (digits : Nat) (e : Int) :
    roundBits (asFraction digits e).1 (asFraction digits e).2 = nearestBits (digits * 10 ^ e) := by
  obtain ⟨hpos, hvalue⟩ := asFraction_spec digits e
  rw [roundBits_eq hpos, hvalue]

variable {bits den num digits : Nat} {e : Int} {r : ℚ}

theorem readsBack_iff :
    readsBack bits digits e = true ↔ nearestBits (digits * 10 ^ e) = bits := by
  rw [← roundBits_asFraction]
  exact decide_eq_true_iff

theorem pow_le_of_length {n : Nat} (hn : 0 < n) : 10 ^ ((Nat.toDigits 10 n).length - 1) ≤ n := by
  by_cases h : (Nat.toDigits 10 n).length ≤ 1
  · rw [Nat.sub_eq_zero_of_le h]
    exact hn
  · refine Nat.le_of_not_lt fun hlt => ?_
    have := (Nat.length_toDigits_le_iff (by decide) (by omega)).2 hlt
    omega

theorem lt_pow_length (n : Nat) : n < 10 ^ (Nat.toDigits 10 n).length :=
  (Nat.length_toDigits_le_iff (by decide) (List.length_pos_of_ne_nil Nat.toDigits_ne_nil)).1 (Nat.le_refl _)

/-- The power of ten is not above the fraction. -/
theorem zpow_floorLog10_le (hn : 0 < num) (hd : 0 < den) :
    (10 : ℚ) ^ floorLog10 num den ≤ num / den := by
  have hd' : (0 : ℚ) < den := by exact_mod_cast hd
  have hn' : (0 : ℚ) < num := by exact_mod_cast hn
  have hinv : ∀ k : Nat, den ≤ num * 10 ^ k → (10 : ℚ) ^ (-(k : Int)) ≤ num / den := by
    intro k hk
    have hk' : (den : ℚ) ≤ num * 10 ^ k := by exact_mod_cast hk
    rw [zpow_neg, zpow_natCast, inv_eq_one_div, div_le_div_iff₀ (by positivity) hd', one_mul]
    exact hk'
  simp only [floorLog10, Nat.pow_eq]
  split
  · rename_i hle
    have hlen : 0 < (Nat.toDigits 10 (num / den)).length := List.length_pos_of_ne_nil Nat.toDigits_ne_nil
    have hpow := pow_le_of_length (Nat.div_pos hle hd)
    rw [Nat.le_div_iff_mul_le hd] at hpow
    rw [le_div_iff₀ hd', show ((Nat.toDigits 10 (num / den)).length : Int) - 1 =
      (((Nat.toDigits 10 (num / den)).length - 1 : Nat) : Int) by omega, zpow_natCast]
    exact_mod_cast hpow
  · rename_i hle
    have hlen : 0 < (Nat.toDigits 10 (den / num)).length := List.length_pos_of_ne_nil Nat.toDigits_ne_nil
    split
    · rename_i hshort
      rw [show 1 - ((Nat.toDigits 10 (den / num)).length : Int) =
        -(((Nat.toDigits 10 (den / num)).length - 1 : Nat) : Int) by omega]
      exact hinv _ hshort
    · refine hinv _ ?_
      have hlt := lt_pow_length (den / num)
      rw [Nat.div_lt_iff_lt_mul hn] at hlt
      rw [Nat.mul_comm]
      exact hlt.le

/-! ## The fewest digits -/

/-- A fraction in units of a power of ten. -/
theorem units_spec (num : Nat) (hd : 0 < den) (e : Int) :
    ∃ n d, (if 0 ≤ e then (num, den * 10 ^ e.toNat) else (num * 10 ^ (-e).toNat, den)) = (n, d) ∧
      0 < d ∧ (n / d : ℚ) = num / den * 10 ^ (-e) := by
  split
  · rename_i he
    obtain ⟨k, rfl⟩ := Int.eq_ofNat_of_zero_le he
    refine ⟨_, _, rfl, Nat.mul_pos hd (Nat.pow_pos (by decide)), ?_⟩
    push_cast
    rw [Int.toNat_natCast, zpow_neg, zpow_natCast, div_mul_eq_div_div, div_eq_mul_inv (_ / _)]
  · rename_i he
    obtain ⟨k, hk⟩ := Int.eq_ofNat_of_zero_le (show 0 ≤ -e by omega)
    obtain rfl : e = -k := by omega
    refine ⟨_, _, rfl, hd, ?_⟩
    push_cast
    rw [neg_neg, Int.toNat_natCast, zpow_natCast]
    ring

theorem nearestBits_of_nearest? (h : nearest? bits num den e = some digits) :
    nearestBits (digits * 10 ^ e) = bits := by
  simp only [nearest?, Nat.pow_eq] at h
  generalize (if 0 ≤ e then (num, den * 10 ^ e.toNat) else (num * 10 ^ (-e).toNat, den)) = units at h
  generalize (if roundDiv units.1 units.2 = _ then _ else _) = other at h
  split at h
  · rename_i hbest
    cases h
    exact readsBack_iff.1 hbest
  · split at h
    · rename_i hother
      cases h
      exact readsBack_iff.1 hother
    · cases h

/-- The nearest decimal is found if it reads back. -/
theorem nearest?_ne_none (hd : 0 < den) (h : nearestBits (roundRat (num / den * 10 ^ (-e)) * 10 ^ e) = bits) :
    nearest? bits num den e ≠ none := by
  obtain ⟨n, d, heq, hpos, hvalue⟩ := units_spec num hd e
  have hback : readsBack bits (roundDiv n d) e = true := by
    rw [readsBack_iff, roundDiv_eq hpos, hvalue]
    exact h
  simp [nearest?, heq, hback]

theorem search_reads_back {top : Int} (hlast : nearest? bits num den (top - 16) ≠ none) :
    ∀ left, nearestBits ((search bits num den top (left + 1)).1 *
      10 ^ (search bits num den top (left + 1)).2) = bits := by
  intro left
  induction left with
  | zero =>
    rw [search]
    cases h : nearest? bits num den (top - 16 + (0 : Nat)) with
    | none => simp [hlast] at h
    | some digits => exact nearestBits_of_nearest? h
  | succ left ih =>
    rw [search]
    cases h : nearest? bits num den (top - 16 + (left + 1 : Nat)) with
    | none => exact ih
    | some digits => exact nearestBits_of_nearest? h

/-- Dropping zeros keeps the value. -/
theorem trim_spec (left digits : Nat) (e : Int) :
    ((trim left digits e).1 * 10 ^ (trim left digits e).2 : ℚ) = digits * 10 ^ e := by
  induction left generalizing digits e with
  | zero => rfl
  | succ left ih =>
    rw [trim]
    split
    · rename_i hzero
      have hmod : digits % 10 = 0 := by simpa using (Bool.and_eq_true_iff.1 hzero).1
      obtain ⟨k, rfl⟩ := Nat.dvd_of_mod_eq_zero hmod
      rw [ih, Nat.mul_div_cancel_left k (by decide), zpow_add₀ (by norm_num)]
      push_cast
      ring
    · rfl

/-- The digits that are found for a float read back as its bits. -/
theorem nearestBits_shortest {m : Nat} {q : Int} (h : Normal m q) (hm : 0 < m) :
    nearestBits ((shortest m q).1 * 10 ^ (shortest m q).2) =
      (q - leastExponent).toNat * 2 ^ 52 + m := by
  obtain ⟨hden, hvalue⟩ := scale_spec m Nat.one_pos q
  have hm' : (0 : ℚ) < m := by exact_mod_cast hm
  have htwo : (2 : ℚ) ^ q * 2 ^ (-q) = 1 := by
    rw [← zpow_add₀ (by norm_num), add_neg_cancel, zpow_zero]
  rw [Nat.cast_one, div_one] at hvalue
  simp only [shortest, if_neg hm.ne', fraction]
  generalize hnum : (scale m 1 q).1 = num at *
  generalize hdenom : (scale m 1 q).2 = den at *
  have hden' : (0 : ℚ) < den := by exact_mod_cast hden
  have hnum' : 0 < num := by
    refine Nat.pos_of_ne_zero fun h0 => ?_
    rw [h0, Nat.cast_zero, zero_div] at hvalue
    exact absurd hvalue.symm (mul_pos hm' (zpow_pos (by norm_num) _)).ne'
  have hbits : roundBits num den = (q - leastExponent).toNat * 2 ^ 52 + m := by
    rw [roundBits_eq hden, hvalue]
    refine nearestBits_of_close h hm ?_
    rw [mul_assoc, htwo, mul_one, sub_self, abs_zero]
    positivity
  rw [trim_spec, hbits]
  refine search_reads_back (nearest?_ne_none hden ?_) 16
  -- Seventeen digits are off by half a unit of the last of them.
  set top := floorLog10 num den
  have htop : (10 : ℚ) ^ top ≤ m * 2 ^ q := hvalue ▸ zpow_floorLog10_le hnum' hden
  rw [hvalue]
  set r : ℚ := m * 2 ^ q * 10 ^ (-(top - 16)) with hr
  have hrpos : 0 ≤ r := by positivity
  have hround := abs_roundRat_sub_le hrpos
  have hunit : m * 2 ^ q = r * 10 ^ (top - 16) := by
    rw [hr, mul_assoc, ← zpow_add₀ (by norm_num), neg_add_cancel, zpow_zero, mul_one]
  refine nearestBits_of_close h hm ?_
  have hdiff : (roundRat r : ℚ) * 10 ^ (top - 16) * 2 ^ (-q) - m =
      ((roundRat r : ℚ) - r) * (10 ^ (top - 16) * 2 ^ (-q)) := by
    have hback : (m : ℚ) = r * 10 ^ (top - 16) * 2 ^ (-q) := by
      rw [← hunit, mul_assoc, htwo, mul_one]
    rw [sub_mul, ← mul_assoc, ← mul_assoc, ← hback]
  have hlast : (10 : ℚ) ^ (top - 16) * 2 ^ (-q) ≤ m / 10 ^ 16 := by
    calc
      (10 : ℚ) ^ (top - 16) * 2 ^ (-q) = 10 ^ top / 10 ^ 16 * 2 ^ (-q) := by
        rw [zpow_sub₀ (by norm_num)]
        norm_cast
      _ ≤ m * 2 ^ q / 10 ^ 16 * 2 ^ (-q) := by gcongr
      _ = m * (2 ^ q * 2 ^ (-q)) / 10 ^ 16 := by ring
      _ = m / 10 ^ 16 := by rw [htwo, mul_one]
  have hscaled : (0 : ℚ) ≤ 10 ^ (top - 16) * 2 ^ (-q) := by positivity
  rw [hdiff, abs_mul, abs_of_nonneg hscaled]
  calc
    |(roundRat r : ℚ) - r| * (10 ^ (top - 16) * 2 ^ (-q)) ≤ 1 / 2 * (m / 10 ^ 16) :=
      mul_le_mul hround hlast hscaled (by norm_num)
    _ = m / (2 * 10 ^ 16) := by ring

/-! ## From digits to a float -/

theorem nearestBits_eq_zero (hr : 0 < r) (h : r < 2 ^ (-1075 : Int)) : nearestBits r = 0 := by
  have hlog : Int.log 2 r < -1075 := (Int.lt_zpow_iff_log_lt (by decide) hr).1 (by exact_mod_cast h)
  have hmax : max (Int.log 2 r - 52) leastExponent = leastExponent :=
    max_eq_right (by rw [leastExponent]; omega)
  have hclose : |r * 2 ^ (-leastExponent) - (0 : Nat)| < 1 / 2 := by
    rw [Nat.cast_zero, sub_zero, abs_of_pos (by positivity), leastExponent, neg_neg]
    calc
      r * 2 ^ (1074 : Int) < 2 ^ (-1075 : Int) * 2 ^ (1074 : Int) := by gcongr
      _ = 1 / 2 := by
        rw [← zpow_add₀ (by norm_num)]
        norm_num
  rw [nearestBits_of_log hr hmax hclose]
  simp

theorem two_pow_le_ten_pow : (2 : ℚ) ^ 1075 ≤ 10 ^ 400 := by
  calc
    (2 : ℚ) ^ 1075 = (2 ^ 43) ^ 25 := by rw [← pow_mul]
    _ ≤ (10 ^ 16) ^ 25 := pow_le_pow_left₀ (by norm_num) (by norm_num) 25
    _ = 10 ^ 400 := by rw [← pow_mul]

/-- A decimal lies between the powers of ten that its first digit is at. -/
theorem decimal_bounds (hd : 0 < digits) (e : Int) :
    (10 : ℚ) ^ ((Nat.toDigits 10 digits).length + e - 1) ≤ digits * 10 ^ e ∧
      (digits * 10 ^ e : ℚ) < 10 ^ ((Nat.toDigits 10 digits).length + e) := by
  have hle := pow_le_of_length hd
  have hlt := lt_pow_length digits
  have hpos : 0 < (Nat.toDigits 10 digits).length := List.length_pos_of_ne_nil Nat.toDigits_ne_nil
  generalize (Nat.toDigits 10 digits).length = length at hle hlt hpos ⊢
  have hpow : ∀ n : Nat, (10 : ℚ) ^ ((n : Int) + e) = (10 ^ n : Nat) * 10 ^ e := by
    intro n
    rw [zpow_add₀ (by norm_num), zpow_natCast]
    push_cast
    rfl
  rw [show (length : Int) + e - 1 = ((length - 1 : Nat) : Int) + e by omega, hpow, hpow]
  constructor <;> gcongr

/-- A decimal is read as the float nearest to it, and as infinity if there is none. -/
theorem toFloat_eq (negative : Bool) (digits : Nat) (e : Int) :
    toFloat negative digits e = ofBits negative (min (nearestBits (digits * 10 ^ e)) infinityBits) := by
  rcases Nat.eq_zero_or_pos digits with rfl | hd
  · simp [toFloat, nearestBits]
  obtain ⟨hlow, hhigh⟩ := decimal_bounds hd e
  have hr : (0 : ℚ) < digits * 10 ^ e := by positivity
  simp only [toFloat, if_neg hd.ne']
  generalize ((Nat.toDigits 10 digits).length + e : Int) = size at hlow hhigh ⊢
  split
  · rename_i hbig
    rw [exponentBound] at hbig
    have hle : infinityBits ≤ nearestBits (digits * 10 ^ e) := by
      refine le_nearestBits (k := 1024) (by norm_num) (le_trans ?_ hlow)
      calc
        (2 : ℚ) ^ (1024 : Int) ≤ 2 ^ (1075 : Int) := zpow_le_zpow_right₀ (by norm_num) (by norm_num)
        _ ≤ 10 ^ (400 : Int) := by
          rw [zpow_ofNat, zpow_ofNat]
          exact two_pow_le_ten_pow
        _ ≤ 10 ^ (size - 1) := zpow_le_zpow_right₀ (by norm_num) (by omega)
    rw [min_eq_right hle]
    rfl
  · split
    · rename_i hsmall
      rw [exponentBound] at hsmall
      have hzero : nearestBits (digits * 10 ^ e) = 0 := by
        refine nearestBits_eq_zero hr (lt_of_lt_of_le hhigh ?_)
        calc
          (10 : ℚ) ^ size ≤ 10 ^ (-400 : Int) := zpow_le_zpow_right₀ (by norm_num) (by omega)
          _ ≤ 2 ^ (-1075 : Int) := by
            rw [zpow_neg, zpow_neg]
            exact inv_anti₀ (by positivity) two_pow_le_ten_pow
      rw [hzero, Nat.zero_min]
    · rw [ofRatio?, roundBits_asFraction]
      split
      · rename_i hlt
        rw [min_eq_left hlt.le, Option.getD_some]
      · rename_i hlt
        rw [min_eq_right (Nat.le_of_not_lt hlt)]
        rfl

theorem decode_toFloat (negative : Bool) (digits : Nat) (e : Int) :
    decode (toFloat negative digits e) = .infinite negative ∨
      ∃ m q, decode (toFloat negative digits e) = .finite negative m q := by
  rw [toFloat_eq]
  exact decode_ofBits (min_le_right _ _) negative

/-- Which decimals are read as a finite float. -/
theorem toFloat_eq_iff {x : Float} {negative : Bool} {m : Nat} {q : Int}
    (h : decode x = .finite negative m q) :
    toFloat negative digits e = x ↔
      nearestBits (digits * 10 ^ e) = (q - leastExponent).toNat * 2 ^ 52 + m := by
  obtain ⟨-, hlt, hx⟩ := decode_eq_finite h
  rw [toFloat_eq, hx]
  constructor
  · intro heq
    have hbits := congrArg (fun y => y.toBits.toNat) heq
    simp only [toNat_toBits_ofBits (min_le_right _ _), toNat_toBits_ofBits hlt.le] at hbits
    omega
  · intro heq
    rw [heq, min_eq_left hlt.le]

theorem toFloat_shortest {x : Float} {negative : Bool} {m : Nat} {q : Int}
    (h : decode x = .finite negative m q) :
    toFloat negative (shortest m q).1 (shortest m q).2 = x := by
  obtain ⟨hnormal, -, -⟩ := decode_eq_finite h
  rw [toFloat_eq_iff h]
  rcases Nat.eq_zero_or_pos m with rfl | hm
  · have hq : q = leastExponent := by
      by_contra hne
      have := hnormal.full hne
      omega
    simp [hq, shortest, nearestBits]
  · exact nearestBits_shortest hnormal hm

/-! ## Text -/

theorem value_append (a b : List Char) : value (a ++ b) = value a * 10 ^ b.length + value b := by
  have hfold : ∀ (cs : List Char) (m : Nat),
      cs.foldl (fun n c => 10 * n + (Text.digitValue? c).getD 0) m = m * 10 ^ cs.length + value cs := by
    intro cs
    induction cs with
    | nil => simp [value]
    | cons c cs ih =>
      intro m
      have hcons : value (c :: cs) = (Text.digitValue? c).getD 0 * 10 ^ cs.length + value cs := by
        rw [value, List.foldl_cons, ih, Nat.mul_zero, Nat.zero_add]
      rw [List.foldl_cons, ih, hcons, List.length_cons, pow_succ]
      ring
  rw [value, List.foldl_append, hfold]
  rfl

theorem value_replicate_zero (n : Nat) : value (List.replicate n '0') = 0 := by
  induction n with
  | zero => rfl
  | succ n ih =>
    rw [List.replicate_succ', value_append, ih]
    rfl

/-- A number other than zero has no zero in front. -/
theorem head_toDigits_ne_zero {n : Nat} (hn : 0 < n) {c : Char} {rest : List Char}
    (h : Nat.toDigits 10 n = c :: rest) : c ≠ '0' := by
  rintro rfl
  have hle := pow_le_of_length hn
  have hvalue := value_toDigits n
  rw [h, List.length_cons, Nat.add_sub_cancel] at hle
  rw [h, ← List.singleton_append, value_append] at hvalue
  have hlt := value_lt rest
  have hzero : value ['0'] = 0 := by decide
  rw [hzero] at hvalue
  omega

/-- The parts of the text of a float. -/
def layoutParts (digits : Nat) (e : Int) : Parts :=
  let text := Nat.toDigits 10 digits
  let top : Int := if digits = 0 then 0 else (text.length : Int) - 1 + e
  if top < -4 || 16 ≤ top then
    let exponent := Nat.toDigits 10 top.natAbs
    ⟨text.take 1, text.drop 1,
      some (top < 0, if exponent.length < 2 then '0' :: exponent else exponent)⟩
  else if top < 0 then ⟨['0'], List.replicate (-top - 1).toNat '0' ++ text, none⟩
  else
    let fraction := text.drop (top.toNat + 1)
    ⟨(text ++ List.replicate e.toNat '0').take (top.toNat + 1),
      if fraction.isEmpty then ['0'] else fraction, none⟩

theorem exponentText_toList (e : Int) :
    (exponentText e).toList = (if e < 0 then '-' else '+') ::
      if (Nat.toDigits 10 e.natAbs).length < 2 then '0' :: Nat.toDigits 10 e.natAbs
      else Nat.toDigits 10 e.natAbs := by
  have hlength : (digitsOf e.natAbs).length = (Nat.toDigits 10 e.natAbs).length := by
    rw [digitsOf, ← String.length_toList, String.toList_ofList]
  simp only [exponentText, String.toList_append, hlength]
  split <;> split <;> simp [digitsOf]

theorem layout_toList (digits : Nat) (e : Int) :
    (layout digits e).toList = (layoutParts digits e).text := by
  rw [layout, layoutParts]
  dsimp only
  generalize (if digits = 0 then 0 else ((Nat.toDigits 10 digits).length : Int) - 1 + e) = top
  by_cases hfar : (decide (top < -4) || decide (16 ≤ top)) = true
  · rw [if_pos hfar, if_pos hfar, Parts.text, Parts.fractionText, Parts.exponentText]
    simp only [String.toList_append, exponentText_toList, String.toList_ofList, List.append_assoc,
      decide_eq_true_eq]
    congr 2
    split <;> simp
  · rw [if_neg hfar, if_neg hfar]
    by_cases hsmall : top < 0
    · rw [if_pos hsmall, if_pos hsmall, Parts.text, Parts.fractionText, Parts.exponentText]
      simp [Nat.toDigits_ne_nil]
    · rw [if_neg hsmall, if_neg hsmall, Parts.text, Parts.fractionText, Parts.exponentText]
      simp only [String.toList_append, String.toList_ofList, List.append_assoc]
      congr 1
      split <;> simp_all

variable {c : Char}

theorem isDigit_toDigits {n : Nat} (h : c ∈ Nat.toDigits 10 n) : c.isDigit = true :=
  Nat.isDigit_of_mem_toDigits (by decide) (by decide) h

theorem layoutParts_zero (e : Int) : layoutParts 0 e = ⟨['0'], ['0'], none⟩ := by
  simp [layoutParts]

/-- The digits of a number, split by a point somewhere, with zeros where there are no digits. -/
theorem layoutParts_cases {digits : Nat} (hd : 0 < digits) (e : Int) {text : List Char}
    (htext : Nat.toDigits 10 digits = text) :
    (∃ top exponent, layoutParts digits e = ⟨text.take 1, text.drop 1, some (top < 0, exponent)⟩ ∧
      top = (text.length : Int) - 1 + e ∧ exponent ≠ [] ∧ (∀ c ∈ exponent, c.isDigit = true) ∧
      negateIf (top < 0) (value exponent) = top) ∨
    (∃ n, layoutParts digits e = ⟨['0'], List.replicate n '0' ++ text, none⟩ ∧
      (n : Int) = -text.length - e) ∨
    (∃ n : Nat, e = n ∧ layoutParts digits e = ⟨text ++ List.replicate n '0', ['0'], none⟩) ∨
    ∃ n, n < text.length ∧ (n : Int) = text.length + e ∧ 0 < n ∧
      layoutParts digits e = ⟨text.take n, text.drop n, none⟩ := by
  have hlen : 0 < text.length := htext ▸ List.length_pos_of_ne_nil Nat.toDigits_ne_nil
  simp only [layoutParts, htext, if_neg hd.ne']
  generalize htop : (text.length : Int) - 1 + e = top
  by_cases hfar : (decide (top < -4) || decide (16 ≤ top)) = true
  · rw [if_pos hfar]
    refine .inl ⟨top, _, rfl, rfl, ?_⟩
    have hvalue : value (Nat.toDigits 10 top.natAbs) = top.natAbs := value_toDigits _
    split
    · refine ⟨nofun, fun c hc => ?_, ?_⟩
      · rcases List.mem_cons.1 hc with rfl | hc
        · decide
        · exact isDigit_toDigits hc
      · rw [← List.singleton_append, value_append, hvalue, show value ['0'] = 0 by decide, Nat.zero_mul,
          Nat.zero_add, negateIf_natAbs]
    · exact ⟨Nat.toDigits_ne_nil, fun c => isDigit_toDigits, by rw [hvalue, negateIf_natAbs]⟩
  · rw [if_neg hfar]
    by_cases hsmall : top < 0
    · rw [if_pos hsmall]
      exact .inr (.inl ⟨_, rfl, by omega⟩)
    · rw [if_neg hsmall]
      refine .inr (.inr ?_)
      by_cases he : 0 ≤ e
      · left
        obtain ⟨n, rfl⟩ := Int.eq_ofNat_of_zero_le he
        have hdrop : text.drop (top.toNat + 1) = [] := List.drop_eq_nil_iff.2 (by omega)
        have htake : (text ++ List.replicate n '0').take (top.toNat + 1) = text ++ List.replicate n '0' :=
          List.take_of_length_le (by simp; omega)
        exact ⟨n, rfl, by rw [Int.toNat_natCast, htake, hdrop]; rfl⟩
      · right
        have hzero : e.toNat = 0 := by omega
        have hdrop : text.drop (top.toNat + 1) ≠ [] := fun h => by
          have := List.drop_eq_nil_iff.1 h
          omega
        refine ⟨top.toNat + 1, by omega, by omega, by omega, ?_⟩
        simp [hzero, hdrop]

theorem layoutParts_proper (digits : Nat) (e : Int) :
    (layoutParts digits e).Proper ∧ (layoutParts digits e).isDecimal = true := by
  rcases Nat.eq_zero_or_pos digits with rfl | hd
  · rw [layoutParts_zero]
    have hzero : ∀ c ∈ ['0'], c.isDigit = true := List.forall_mem_singleton.2 rfl
    exact ⟨⟨hzero, hzero, nofun, .inl rfl⟩, rfl⟩
  · obtain ⟨text, htext⟩ : ∃ text, Nat.toDigits 10 digits = text := ⟨_, rfl⟩
    have hdigits : ∀ c ∈ text, c.isDigit = true := fun c hc => isDigit_toDigits (htext ▸ hc)
    have hzeros : ∀ {n c}, c ∈ List.replicate n '0' → c.isDigit = true := by
      intro n c hc
      rw [(List.mem_replicate.1 hc).2]
      decide
    have hzero : ∀ c ∈ ['0'], c.isDigit = true := List.forall_mem_singleton.2 rfl
    obtain ⟨c, rest, hc⟩ : ∃ c rest, text = c :: rest :=
      List.exists_cons_of_ne_nil (htext ▸ Nat.toDigits_ne_nil)
    have hlead : c ≠ '0' := head_toDigits_ne_zero hd (htext.trans hc)
    rcases layoutParts_cases hd e htext with
      ⟨top, exponent, heq, -, hne, hexponent, -⟩ | ⟨n, heq, -⟩ | ⟨n, -, heq⟩ | ⟨n, hn, -, hpos, heq⟩
    all_goals rw [heq]
    · refine ⟨⟨fun c hc => hdigits c (List.mem_of_mem_take hc),
        fun c hc => hdigits c (List.mem_of_mem_drop hc), ?_, .inr ⟨c, [], by rw [hc]; rfl, hlead⟩⟩,
        by simp [Parts.isDecimal]⟩
      rintro _ _ ⟨⟩
      exact ⟨hne, hexponent⟩
    · refine ⟨⟨hzero, fun c hc => ?_, nofun, .inl rfl⟩, by simp [Parts.isDecimal, hc]⟩
      exact (List.mem_append.1 hc).elim hzeros (hdigits c)
    · refine ⟨⟨fun c hc => ?_, hzero, nofun, .inr ⟨c, _, by rw [hc]; rfl, hlead⟩⟩, rfl⟩
      exact (List.mem_append.1 hc).elim (hdigits c) hzeros
    · refine ⟨⟨fun c hc => hdigits c (List.mem_of_mem_take hc),
        fun c hc => hdigits c (List.mem_of_mem_drop hc), nofun,
        .inr ⟨c, rest.take (n - 1), ?_, hlead⟩⟩, ?_⟩
      · rw [hc]
        exact List.take_cons hpos
      · simp [Parts.isDecimal, hn]

/-- The parts stand for the decimal that was laid out. -/
theorem layoutParts_value (digits : Nat) (e : Int) :
    (value ((layoutParts digits e).whole ++ (layoutParts digits e).fraction) *
      10 ^ (layoutParts digits e).place : ℚ) = digits * 10 ^ e := by
  rcases Nat.eq_zero_or_pos digits with rfl | hd
  · rw [layoutParts_zero, show value (['0'] ++ ['0']) = 0 by decide]
    simp
  · obtain ⟨text, htext⟩ : ∃ text, Nat.toDigits 10 digits = text := ⟨_, rfl⟩
    have hvalue : value text = digits := htext ▸ value_toDigits digits
    have hlen : 0 < text.length := htext ▸ List.length_pos_of_ne_nil Nat.toDigits_ne_nil
    rcases layoutParts_cases hd e htext with
      ⟨top, exponent, heq, htop, -, -, hexp⟩ | ⟨n, heq, hn⟩ | ⟨n, rfl, heq⟩ | ⟨n, hlt, hn, -, heq⟩
    all_goals rw [heq, Parts.place]
    · simp only [List.take_append_drop, hvalue, hexp, List.length_drop]
      rw [show top - ((text.length - 1 : Nat) : Int) = e by omega]
    · have hzeros : value (['0'] ++ (List.replicate n '0' ++ text)) = digits := by
        rw [value_append, value_append, value_replicate_zero, hvalue, show value ['0'] = 0 by decide]
        simp
      simp only [hzeros, List.length_append, List.length_replicate]
      rw [show (0 : Int) - ((n + text.length : Nat) : Int) = e by omega]
    · have hzeros : value (text ++ List.replicate n '0' ++ ['0']) = digits * 10 ^ n * 10 := by
        rw [value_append, value_append, value_replicate_zero, hvalue, show value ['0'] = 0 by decide]
        simp
      simp only [hzeros, List.length_singleton]
      rw [zpow_natCast]
      push_cast
      rw [zpow_neg_one, mul_inv_cancel_right₀ (by norm_num)]
    · simp only [List.take_append_drop, hvalue, List.length_drop]
      rw [show (0 : Int) - ((text.length - n : Nat) : Int) = e by omega]

theorem text_toList {x : Float} {negative : Bool} {m : Nat} {q : Int} (h : decode x = .finite negative m q) :
    (Decimal.text x).toList =
      (if negative then ['-'] else []) ++ (layoutParts (shortest m q).1 (shortest m q).2).text := by
  rw [Decimal.text, h]
  dsimp only
  rw [String.toList_append, layout_toList]
  cases negative <;> rfl

/-- The text of a finite float consists of a sign and the parts of a decimal, and reads as the float. -/
theorem exists_parts {x : Float} {negative : Bool} {m : Nat} {q : Int}
    (h : decode x = .finite negative m q) :
    ∃ p : Parts, p.Proper ∧ p.isDecimal = true ∧
      (Decimal.text x).toList = (if negative then ['-'] else []) ++ p.text ∧
      Decimal.readFloat (Decimal.text x) = .ok x := by
  obtain ⟨hproper, hdecimal⟩ := layoutParts_proper (shortest m q).1 (shortest m q).2
  refine ⟨_, hproper, hdecimal, text_toList h, ?_⟩
  rw [← String.ofList_toList (s := Decimal.text x), text_toList h, hproper.legible.readFloat, toFloat_eq,
    layoutParts_value, ← toFloat_eq, toFloat_shortest h]

end Scriptlet.Decimal
