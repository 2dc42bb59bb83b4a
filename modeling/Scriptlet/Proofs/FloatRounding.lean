import Mathlib.Algebra.Order.Field.Power
import Mathlib.Algebra.Order.Floor.Semifield
import Mathlib.Data.Int.Log
import Mathlib.Data.Rat.Floor
import Mathlib.Tactic.Linarith
import Scriptlet.Number.Decimal

/-!
Floats and the fractions nearest to them. A float is given by its bits, and the bits of the float
nearest to a fraction depend on the value of the fraction only (`roundBits_eq`). A fraction that is as
close to a float as seventeen digits are to what they stand for rounds to that float
(`nearestBits_of_close`); the float itself is such a fraction.
-/

namespace Scriptlet.Binary

open Float.Model (Format)
open Float.Model.UnpackedFloat

/-! ## Patterns of bits -/

theorem toBitVec_ofBitVec (v : BitVec 1) : (Sign.ofBitVec v).toBitVec = v := by
  revert v
  decide

theorem toNat_unpackMantissa (b : BitVec Format.binary64.numBits) :
    (unpackMantissa b).toNat = b.toNat % 2 ^ 52 := by
  simp [unpackMantissa]

theorem toNat_unpackExponent (b : BitVec Format.binary64.numBits) :
    (unpackExponent b).toNat = b.toNat / 2 ^ 52 % 2 ^ 11 := by
  simp [unpackExponent, Nat.shiftRight_eq_div_pow]

theorem toNat_unpackSign (b : BitVec Format.binary64.numBits) :
    (unpackSign b).toNat = b.toNat / 2 ^ 63 % 2 := by
  change (b.extractLsb 63 63).toNat = _
  simp [Nat.shiftRight_eq_div_pow]

theorem toNat_packComponents (s : Sign) (e : BitVec 11) (m : BitVec 52) :
    (packComponents .binary64 s e m).toNat = (s.toBitVec.toNat * 2 ^ 11 + e.toNat) * 2 ^ 52 + m.toNat := by
  rw [packComponents, BitVec.toNat_append, BitVec.toNat_append, ← Nat.shiftLeft_add_eq_or_of_lt m.isLt,
    ← Nat.shiftLeft_add_eq_or_of_lt e.isLt, Nat.shiftLeft_eq, Nat.shiftLeft_eq]

variable {r : ℚ} {m den num : Nat} {x : Float} {q : Int} {negative : Bool}
  {b : BitVec Format.binary64.numBits}

/-- A pattern of bits is its sign, its exponent and its mantissa put together. -/
theorem packComponents_unpack {e : BitVec 11} {m : BitVec 52} (he : unpackExponent b = e)
    (hm : unpackMantissa b = m) :
    packComponents .binary64 (Sign.ofBitVec (unpackSign b)) e m = b := by
  have hb : b.toNat < 2 ^ 64 := b.isLt
  refine BitVec.eq_of_toNat_eq ?_
  rw [toNat_packComponents, toBitVec_ofBitVec, ← he, ← hm, toNat_unpackSign, toNat_unpackExponent,
    toNat_unpackMantissa]
  omega

/-- Unpacking and packing changes no pattern that a float can have. -/
theorem pack_unpack (hv : Format.binary64.Valid b) :
    pack .binary64 (unpack .binary64 b) = b := by
  have hm : (unpackMantissa b).toNat < 2 ^ 52 := (unpackMantissa b).isLt
  have he : (unpackExponent b).toNat < 2 ^ 11 := (unpackExponent b).isLt
  have hbias : Format.binary64.exponentBias = 1023 := by decide
  have hbits : Format.binary64.mantissaBits = 53 := by decide
  delta unpack
  dsimp only
  by_cases htop : unpackExponent b = -1#_
  · rw [if_pos htop]
    by_cases hzero : unpackMantissa b = 0#_
    · rw [if_pos hzero]
      exact packComponents_unpack htop hzero
    · rw [if_neg hzero]
      exact (hv.eq_packedNaN htop hzero).symm
  · have htop' : (unpackExponent b).toNat ≠ 2047 := fun h => htop (BitVec.eq_of_toNat_eq h)
    rw [if_neg htop]
    by_cases hlow : unpackExponent b = 0#_
    · have hlow' : (unpackExponent b).toNat = 0 := congrArg BitVec.toNat hlow
      rw [if_pos hlow]
      by_cases hzero : unpackMantissa b = 0#_
      · rw [dif_pos hzero]
        exact packComponents_unpack hlow hzero
      · rw [dif_neg hzero]
        have hlog : (unpackMantissa b).toNat.log2 < 52 :=
          (Nat.log2_lt fun h => hzero (BitVec.eq_of_toNat_eq h)).2 hm
        delta pack
        dsimp only
        simp only [hbias, hbits, hlow']
        rw [if_neg (by decide), if_neg (by omega)]
        exact packComponents_unpack hlow (by rw [BitVec.ofNat_toNat, BitVec.setWidth_eq])
    · rw [if_neg hlow]
      have hlow' : (unpackExponent b).toNat ≠ 0 := fun h => hlow (BitVec.eq_of_toNat_eq h)
      have hmantissa : (1#1 ++ unpackMantissa b).toNat = 2 ^ 52 + (unpackMantissa b).toNat := by
        rw [BitVec.toNat_append, ← Nat.shiftLeft_add_eq_or_of_lt (unpackMantissa b).isLt]
        rfl
      have hlog : (2 ^ 52 + (unpackMantissa b).toNat).log2 = 52 :=
        (Nat.log2_eq_iff (by omega)).2 ⟨by omega, by omega⟩
      have hexponent : ((unpackExponent b).toNat - ((1023 : Nat) + (52 : Nat)) + (1023 : Nat) +
          (52 : Nat) : Int).toNat = (unpackExponent b).toNat := by
        omega
      delta pack
      dsimp only
      simp only [hbias, hbits, hmantissa, hlog, hexponent]
      rw [if_neg (by omega), if_pos trivial]
      refine packComponents_unpack (by rw [BitVec.ofNat_toNat, BitVec.setWidth_eq]) (BitVec.eq_of_toNat_eq ?_)
      rw [BitVec.toNat_ofNat]
      exact (Nat.add_mod_left ..).trans (Nat.mod_eq_of_lt hm) |>.symm

/-! ## Rounding of fractions -/

/-- The whole number nearest to a fraction that is not negative; a tie goes to the even neighbour. -/
def roundRat (r : ℚ) : Nat :=
  if 2 * (r - ⌊r⌋₊) < 1 then ⌊r⌋₊
  else if 1 < 2 * (r - ⌊r⌋₊) then ⌊r⌋₊ + 1
  else if ⌊r⌋₊ % 2 = 0 then ⌊r⌋₊
  else ⌊r⌋₊ + 1

theorem roundDiv_eq (hd : 0 < den) : roundDiv num den = roundRat (num / den) := by
  have hfloor : ⌊(num / den : ℚ)⌋₊ = num / den := Nat.floor_div_eq_div num den
  have hd' : (0 : ℚ) < den := by exact_mod_cast hd
  have hrest : (num / den : ℚ) - (num / den : Nat) = (num % den : Nat) / den := by
    rw [eq_div_iff hd'.ne', sub_mul, div_mul_cancel₀ _ hd'.ne', sub_eq_iff_eq_add]
    exact_mod_cast (Nat.mod_add_div' num den).symm
  have hlt : 2 * ((num / den : ℚ) - (num / den : Nat)) < 1 ↔ 2 * (num % den) < den := by
    rw [hrest, ← mul_div_assoc, div_lt_one hd']
    exact_mod_cast Iff.rfl
  have hgt : 1 < 2 * ((num / den : ℚ) - (num / den : Nat)) ↔ den < 2 * (num % den) := by
    rw [hrest, ← mul_div_assoc, one_lt_div hd']
    exact_mod_cast Iff.rfl
  simp only [roundDiv, roundRat, hfloor, hlt, hgt]

/-- Rounding goes no further than half a unit. -/
theorem abs_roundRat_sub_le (hr : 0 ≤ r) : |(roundRat r : ℚ) - r| ≤ 1 / 2 := by
  have hle := Nat.floor_le hr
  have hlt := Nat.lt_floor_add_one r
  rw [abs_le, roundRat]
  split
  · constructor <;> linarith
  · split
    · push_cast
      constructor <;> linarith
    · split
      · constructor <;> linarith
      · push_cast
        constructor <;> linarith

theorem roundRat_le (hr : 0 ≤ r) (h : r ≤ m) : roundRat r ≤ m := by
  have hround := (abs_le.1 (abs_roundRat_sub_le hr)).2
  have hlt : (roundRat r : ℚ) < m + 1 := by linarith
  exact Nat.lt_succ_iff.1 (by exact_mod_cast hlt)

theorem le_roundRat (h : (m : ℚ) ≤ r) : m ≤ roundRat r := by
  have hround := (abs_le.1 (abs_roundRat_sub_le ((Nat.cast_nonneg m).trans h))).1
  have hlt : (m : ℚ) < roundRat r + 1 := by linarith
  exact Nat.lt_succ_iff.1 (by exact_mod_cast hlt)

/-- A whole number less than half a unit away is the nearest. -/
theorem roundRat_of_close (h : |r - m| < 1 / 2) (hr : 0 ≤ r) : roundRat r = m := by
  have hround := abs_roundRat_sub_le hr
  have hdiff : |(roundRat r : ℚ) - m| < 1 := by
    calc
      |(roundRat r : ℚ) - m| ≤ |(roundRat r : ℚ) - r| + |r - m| := abs_sub_le _ _ _
      _ < 1 := by linarith
  have hint : |(roundRat r : ℤ) - m| < 1 := by exact_mod_cast hdiff
  rw [Int.abs_lt_one_iff, sub_eq_zero] at hint
  exact_mod_cast hint

theorem scale_spec (num : Nat) (hd : 0 < den) (e : Int) :
    0 < (scale num den e).2 ∧
      ((scale num den e).1 / (scale num den e).2 : ℚ) = num / den * 2 ^ e := by
  simp only [scale, Nat.pow_eq]
  split
  · rename_i he
    refine ⟨hd, ?_⟩
    obtain ⟨k, rfl⟩ := Int.eq_ofNat_of_zero_le he
    push_cast
    rw [Int.toNat_natCast, zpow_natCast]
    ring
  · rename_i he
    refine ⟨Nat.mul_pos hd (Nat.two_pow_pos _), ?_⟩
    obtain ⟨k, hk⟩ := Int.eq_ofNat_of_zero_le (show 0 ≤ -e by omega)
    obtain rfl : e = -k := by omega
    push_cast
    rw [neg_neg, Int.toNat_natCast, zpow_neg, zpow_natCast, div_mul_eq_div_div, div_eq_mul_inv (_ / _)]

theorem log_eq (hr : 0 < r) {z : Int} (hle : (2 : ℚ) ^ z ≤ r) (hlt : r < 2 ^ (z + 1)) :
    Int.log 2 r = z := by
  have hge := (Int.zpow_le_iff_le_log (b := 2) (by decide) hr).1 hle
  have hle' := (Int.lt_zpow_iff_log_lt (b := 2) (by decide) hr).1 hlt
  omega

theorem floorLog2_eq (hn : 0 < num) (hd : 0 < den) :
    floorLog2 num den = Int.log 2 (num / den : ℚ) := by
  have hn' : (0 : ℚ) < num := by exact_mod_cast hn
  have hd' : (0 : ℚ) < den := by exact_mod_cast hd
  have hr : (0 : ℚ) < num / den := div_pos hn' hd'
  set guess : Int := (num.log2 : Int) - den.log2 with hguess
  obtain ⟨hpos, hscale⟩ := scale_spec num hd (-guess)
  -- Both numbers lie between two powers of two, so the guess is off by one at most.
  have hpow : ∀ {n : Nat}, 0 < n → (2 : ℚ) ^ (n.log2 : Int) ≤ n ∧ (n : ℚ) < 2 ^ ((n.log2 : Int) + 1) := by
    intro n h
    constructor
    · exact_mod_cast Nat.log2_self_le h.ne'
    · exact_mod_cast Nat.lt_log2_self
  obtain ⟨hn₁, hn₂⟩ := hpow hn
  obtain ⟨hd₁, hd₂⟩ := hpow hd
  have hlow : (2 : ℚ) ^ (guess - 1) < num / den := by
    rw [lt_div_iff₀ hd']
    calc
      (2 : ℚ) ^ (guess - 1) * den < 2 ^ (guess - 1) * 2 ^ ((den.log2 : Int) + 1) :=
        mul_lt_mul_of_pos_left hd₂ (zpow_pos (by norm_num) _)
      _ = 2 ^ (num.log2 : Int) := by
        rw [← zpow_add₀ (by norm_num)]
        congr 1
        omega
      _ ≤ num := hn₁
  have hhigh : (num / den : ℚ) < 2 ^ (guess + 1) := by
    rw [div_lt_iff₀ hd']
    calc
      (num : ℚ) < 2 ^ ((num.log2 : Int) + 1) := hn₂
      _ = 2 ^ (guess + 1) * 2 ^ (den.log2 : Int) := by
        rw [← zpow_add₀ (by norm_num)]
        congr 1
        omega
      _ ≤ 2 ^ (guess + 1) * den := mul_le_mul_of_nonneg_left hd₁ (zpow_pos (by norm_num) _).le
  have hpos' : (0 : ℚ) < (scale num den (-guess)).2 := by exact_mod_cast hpos
  have hiff : (scale num den (-guess)).2 ≤ (scale num den (-guess)).1 ↔ (2 : ℚ) ^ guess ≤ num / den := by
    rw [← Nat.cast_le (α := ℚ), ← one_le_div hpos', hscale, zpow_neg, ← div_eq_mul_inv,
      one_le_div (zpow_pos (by norm_num) _)]
  rw [floorLog2]
  simp only [← hguess]
  split
  · rename_i hle
    exact (log_eq hr (hiff.1 hle) hhigh).symm
  · rename_i hle
    have hlt := not_le.1 (mt hiff.2 hle)
    exact (log_eq hr hlow.le (by simpa using hlt)).symm

/-- The bits, without the sign, of the float nearest to a fraction that is not negative. -/
def nearestBits (r : ℚ) : Nat :=
  if r = 0 then 0
  else
    (max (Int.log 2 r - 52) leastExponent - leastExponent).toNat * 2 ^ 52 +
      roundRat (r * 2 ^ (-max (Int.log 2 r - 52) leastExponent))

theorem roundBits_eq (hd : 0 < den) : roundBits num den = nearestBits (num / den) := by
  have hd' : (den : ℚ) ≠ 0 := by exact_mod_cast hd.ne'
  rcases Nat.eq_zero_or_pos num with rfl | hn
  · simp [roundBits, nearestBits]
  · have hn' : (num / den : ℚ) ≠ 0 := div_ne_zero (by exact_mod_cast hn.ne') hd'
    obtain ⟨hpos, hscale⟩ := scale_spec num hd (-max (Int.log 2 (num / den : ℚ) - 52) leastExponent)
    simp only [roundBits, hn.ne', nearestBits, hn', ↓reduceIte, floorLog2_eq hn hd, roundDiv_eq hpos, hscale,
      Nat.pow_eq]

/-- The mantissa and the exponent of a finite float: the mantissa has 53 bits unless the exponent is the
least. -/
structure Normal (m : Nat) (q : Int) : Prop where
  least : leastExponent ≤ q
  lt : m < 2 ^ 53
  full : q ≠ leastExponent → 2 ^ 52 ≤ m

theorem nearestBits_of_log (hr : 0 < r) (hq : max (Int.log 2 r - 52) leastExponent = q)
    (h : |r * 2 ^ (-q) - m| < 1 / 2) :
    nearestBits r = (q - leastExponent).toNat * 2 ^ 52 + m := by
  have hscaled : 0 ≤ r * 2 ^ (-q) := (mul_pos hr (zpow_pos (by norm_num) _)).le
  rw [nearestBits, if_neg hr.ne', hq, roundRat_of_close h hscaled]

/-- In units of the last bit, a fraction has 53 bits at most, and all of them unless the unit is the least. -/
theorem scaled_bounds (hr : 0 < r) (hq : max (Int.log 2 r - 52) leastExponent = q) :
    r * 2 ^ (-q) < 2 ^ 53 ∧ (leastExponent ≤ Int.log 2 r - 52 → 2 ^ 52 ≤ r * 2 ^ (-q)) := by
  have hpos : (0 : ℚ) < 2 ^ q := by positivity
  rw [zpow_neg, ← div_eq_mul_inv, div_lt_iff₀ hpos, le_div_iff₀ hpos]
  constructor
  · calc
      r < 2 ^ (Int.log 2 r + 1) := by exact_mod_cast Int.lt_zpow_succ_log_self (b := 2) (by decide) r
      _ ≤ 2 ^ (53 + q) := zpow_le_zpow_right₀ (by norm_num) (by omega)
      _ = 2 ^ 53 * 2 ^ q := by rw [zpow_add₀ (by norm_num)]; norm_num
  · intro hleast
    calc
      (2 : ℚ) ^ 52 * 2 ^ q = 2 ^ (52 + q) := by rw [zpow_add₀ (by norm_num)]; norm_num
      _ = 2 ^ Int.log 2 r := by rw [show 52 + q = Int.log 2 r by omega]
      _ ≤ r := by exact_mod_cast Int.zpow_log_le_self (b := 2) (by decide) hr

theorem le_nearestBits {k : Int} (hk : -1022 ≤ k) (h : (2 : ℚ) ^ k ≤ r) :
    (k + 1023).toNat * 2 ^ 52 ≤ nearestBits r := by
  have hr : 0 < r := lt_of_lt_of_le (by positivity) h
  have hlog : k ≤ Int.log 2 r := (Int.zpow_le_iff_le_log (by decide) hr).1 (by exact_mod_cast h)
  have hleast : leastExponent ≤ Int.log 2 r - 52 := by rw [leastExponent]; omega
  have hround : 2 ^ 52 ≤ roundRat (r * 2 ^ (-(Int.log 2 r - 52))) :=
    le_roundRat (by exact_mod_cast (scaled_bounds hr (max_eq_left hleast)).2 hleast)
  rw [nearestBits, if_neg hr.ne', max_eq_left hleast, leastExponent]
  omega

/-- A fraction is not further from the float that it rounds to than half a unit. -/
theorem abs_sub_le_of_nearestBits (h : Normal m q) (hr : 0 < r)
    (heq : nearestBits r = (q - leastExponent).toNat * 2 ^ 52 + m) : |r * 2 ^ (-q) - m| ≤ 1 / 2 := by
  obtain ⟨p, hp⟩ : ∃ p, max (Int.log 2 r - 52) leastExponent = p := ⟨_, rfl⟩
  obtain ⟨hhigh, hlow⟩ := scaled_bounds hr hp
  have hscaled : 0 ≤ r * 2 ^ (-p) := by positivity
  have hround := abs_roundRat_sub_le hscaled
  have hle : roundRat (r * 2 ^ (-p)) ≤ 2 ^ 53 := roundRat_le hscaled (by exact_mod_cast hhigh.le)
  have hge : p ≠ leastExponent → 2 ^ 52 ≤ roundRat (r * 2 ^ (-p)) := fun hne =>
    le_roundRat (by exact_mod_cast hlow (by omega))
  have hlt := h.lt
  have hleast := h.least
  have hfull := h.full
  rw [nearestBits, if_neg hr.ne', hp] at heq
  obtain rfl | ⟨rfl, hm⟩ : p = q ∨ q = p + 1 ∧ roundRat (r * 2 ^ (-p)) = 2 * m := by omega
  · obtain rfl : roundRat (r * 2 ^ (-p)) = m := by omega
    rwa [abs_sub_comm]
  · -- Rounded up to a power of two, the fraction has a unit that is half as large.
    rw [hm, abs_sub_comm] at hround
    have hhalf : r * 2 ^ (-(p + 1)) - m = (r * 2 ^ (-p) - (2 * m : Nat)) / 2 := by
      rw [neg_add, zpow_add₀ (by norm_num)]
      push_cast
      ring
    rw [hhalf, abs_div, abs_two]
    linarith

/-- What is close enough to a float rounds to it: as close as seventeen digits are to what they stand
for. -/
theorem nearestBits_of_close (h : Normal m q) (hm : 0 < m) (hr : |r * 2 ^ (-q) - m| ≤ m / (2 * 10 ^ 16)) :
    nearestBits r = (q - leastExponent).toNat * 2 ^ 52 + m := by
  have hm' : (1 : ℚ) ≤ m := by exact_mod_cast hm
  have hlt : (m : ℚ) + 1 ≤ 2 ^ 53 := by exact_mod_cast h.lt
  have hclose : |r * 2 ^ (-q) - m| < 1 / 2 := by
    refine lt_of_le_of_lt hr ?_
    rw [div_lt_iff₀ (by norm_num)]
    linarith
  obtain ⟨hlow, hhigh⟩ := abs_lt.1 hclose
  set s : ℚ := r * 2 ^ (-q) with hs
  have hrs : r = s * 2 ^ q := by
    rw [hs, mul_assoc, ← zpow_add₀ (by norm_num), neg_add_cancel, zpow_zero, mul_one]
  have hrpos : 0 < r := by
    rw [hrs]
    exact mul_pos (by linarith) (zpow_pos (by norm_num) _)
  have hbelow : ∀ k : Nat, (2 : ℚ) ^ k ≤ s ↔ (2 : ℚ) ^ (k + q) ≤ r := by
    intro k
    rw [hrs, zpow_add₀ (by norm_num), zpow_natCast, mul_le_mul_iff_left₀ (zpow_pos (by norm_num) _)]
  have hlog : ∀ k : Nat, (2 : ℚ) ^ k ≤ s ↔ k + q ≤ Int.log 2 r := fun k => by
    rw [hbelow, ← Int.zpow_le_iff_le_log (b := 2) (by decide) hrpos]
    rfl
  have htop : Int.log 2 r < 53 + q := by
    have hnot := mt (hlog 53).2 (by norm_num; linarith)
    push_cast at hnot
    omega
  by_cases hleast : q = leastExponent
  · -- Below the normal floats the unit is the same everywhere.
    exact nearestBits_of_log hrpos (by omega) hclose
  · have hfull : (2 : ℚ) ^ 52 ≤ m := by exact_mod_cast h.full hleast
    have hq := h.least
    by_cases hs52 : (2 : ℚ) ^ 52 ≤ s
    · have hge := (hlog 52).1 hs52
      push_cast at hge
      exact nearestBits_of_log hrpos (by omega) hclose
    · -- Just below a power of two the unit is half as large.
      have hm52 : m = 2 ^ 52 := by
        have hle : (m : ℚ) < 2 ^ 52 + 1 := by linarith [not_le.1 hs52]
        have hle' : m < 2 ^ 52 + 1 := by exact_mod_cast hle
        have := h.full hleast
        omega
      have hge := (hlog 51).1 (by linarith [show (2 : ℚ) ^ 51 + 1 ≤ 2 ^ 52 by norm_num])
      have hnot := mt (hlog 52).2 hs52
      push_cast at hge hnot
      have hdouble : |r * 2 ^ (-(q - 1)) - (2 ^ 53 : Nat)| < 1 / 2 := by
        have htwice : r * 2 ^ (-(q - 1)) - (2 ^ 53 : Nat) = 2 * (s - m) := by
          rw [hs, hm52, show -(q - 1) = -q + 1 by ring, zpow_add₀ (by norm_num)]
          push_cast
          ring
        rw [htwice, abs_mul, abs_two]
        have hm53 : (m : ℚ) = 2 ^ 52 := by exact_mod_cast hm52
        rw [hm53] at hr ⊢
        calc
          2 * |s - 2 ^ 52| ≤ 2 * (2 ^ 52 / (2 * 10 ^ 16)) := by linarith
          _ < 1 / 2 := by norm_num
      rw [nearestBits_of_log hrpos (q := q - 1) (by omega) hdouble, hm52]
      omega

/-! ## Floats and their bits -/

theorem toBits_ofBits {a : UInt64} (hv : Format.binary64.Valid a.toBitVec) :
    (Float.ofBits a).toBits = a := by
  rw [← UInt64.toBitVec_inj]
  exact pack_unpack hv

theorem eq_of_toBits_eq {y : Float} (h : x.toBits = y.toBits) : x = y := by
  obtain ⟨a, ha⟩ := x
  obtain ⟨b, hb⟩ := y
  obtain rfl : a = b := h
  rfl

/-- A float is what its bits stand for. -/
theorem ofBits_toBits (x : Float) : Float.ofBits x.toBits = x :=
  eq_of_toBits_eq (toBits_ofBits x.toModel.valid)

/-- The float with a sign and given bits, if these are the bits of a float without its sign. -/
theorem eq_ofBits {bits : Nat} (h : x.toBits.toNat = bits + if negative then 2 ^ 63 else 0) :
    x = ofBits negative bits := by
  rw [ofBits, Nat.pow_eq, ← h, UInt64.ofNat_toNat, ofBits_toBits]

theorem decode_eq_finite (h : decode x = .finite negative m q) :
    Normal m q ∧ (q - leastExponent).toNat * 2 ^ 52 + m < infinityBits ∧
      x = ofBits negative ((q - leastExponent).toNat * 2 ^ 52 + m) := by
  have hbits : x.toBits.toNat < 2 ^ 64 := x.toBits.toNat_lt
  simp only [decode, Nat.pow_eq] at h
  split at h
  · split at h <;> cases h
  · rename_i hfield
    split at h
    · rename_i hzero
      cases h
      refine ⟨⟨Int.le_refl _, by omega, fun hne => absurd rfl hne⟩, by simp [infinityBits]; omega,
        eq_ofBits ?_⟩
      simp only [decide_eq_true_eq, sub_self]
      split <;> omega
    · rename_i hzero
      cases h
      have hq : leastExponent + ((x.toBits.toNat / 2 ^ 52 % 2 ^ 11 : Nat) : Int) - 1 - leastExponent =
        ((x.toBits.toNat / 2 ^ 52 % 2 ^ 11 - 1 : Nat) : Int) := by omega
      refine ⟨⟨by omega, by omega, fun _ => by omega⟩, ?_, eq_ofBits ?_⟩
      · rw [hq, Int.toNat_natCast, infinityBits, Nat.pow_eq]
        omega
      · rw [hq, Int.toNat_natCast]
        simp only [decide_eq_true_eq]
        split <;> omega

theorem decode_eq_infinite (h : decode x = .infinite negative) :
    x = infinity negative := by
  have hbits : x.toBits.toNat < 2 ^ 64 := x.toBits.toNat_lt
  simp only [decode, Nat.pow_eq] at h
  split at h
  · split at h
    · cases h
      refine eq_ofBits ?_
      simp only [decide_eq_true_eq, infinityBits, Nat.pow_eq]
      split <;> omega
    · cases h
  · split at h <;> cases h

/-- With all bits of the exponent set, nothing is left for the mantissa. -/
theorem mantissa_eq_zero {b : Nat} (hb : b ≤ infinityBits) (negative : Bool) :
    (b + if negative then 2 ^ 63 else 0) / 2 ^ 52 % 2 ^ 11 = 2047 →
      (b + if negative then 2 ^ 63 else 0) % 2 ^ 52 = 0 := by
  rw [infinityBits, Nat.pow_eq] at hb
  split <;> omega

theorem toNat_toBits_ofBits {b : Nat} (hb : b ≤ infinityBits) (negative : Bool) :
    (ofBits negative b).toBits.toNat = b + if negative then 2 ^ 63 else 0 := by
  have hmantissa := mantissa_eq_zero hb negative
  have hnat : (UInt64.ofNat (b + if negative then 2 ^ 63 else 0)).toNat =
      b + if negative then 2 ^ 63 else 0 := by
    rw [infinityBits, Nat.pow_eq] at hb
    refine UInt64.toNat_ofNat_of_lt' ?_
    rw [UInt64.size]
    split <;> omega
  rw [ofBits, Nat.pow_eq]
  generalize UInt64.ofNat (b + if negative then 2 ^ 63 else 0) = a at hnat ⊢
  rw [← hnat] at hmantissa
  have hvalid : Format.binary64.Valid a.toBitVec := by
    refine ⟨fun htop hne => absurd (BitVec.eq_of_toNat_eq ?_) hne⟩
    have hfield := congrArg BitVec.toNat htop
    rw [toNat_unpackExponent] at hfield
    rw [toNat_unpackMantissa]
    exact hmantissa hfield
  rw [toBits_ofBits hvalid, hnat]

/-- Bits up to those of infinity are no undefined number. -/
theorem decode_ofBits {b : Nat} (hb : b ≤ infinityBits) (negative : Bool) :
    decode (ofBits negative b) = .infinite negative ∨
      ∃ m q, decode (ofBits negative b) = .finite negative m q := by
  have hmantissa := mantissa_eq_zero hb negative
  have hsign : decide ((b + if negative then 2 ^ 63 else 0) / 2 ^ 63 % 2 = 1) = negative := by
    rw [infinityBits, Nat.pow_eq] at hb
    cases negative
    · exact decide_eq_false (by rw [if_neg Bool.false_ne_true]; omega)
    · exact decide_eq_true (by rw [if_pos rfl]; omega)
  simp only [decode, Nat.pow_eq, toNat_toBits_ofBits hb, hsign]
  generalize (b + if negative then 2 ^ 63 else 0) = bits at hmantissa ⊢
  split
  · rename_i hfield
    rw [if_pos (hmantissa hfield)]
    exact .inl rfl
  · right
    split <;> exact ⟨_, _, rfl⟩

end Scriptlet.Binary
