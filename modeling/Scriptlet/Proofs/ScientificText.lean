import Mathlib.Data.List.DropRight
import Scriptlet.Proofs.NumberText

/-!
The scientific text of a huge whole number. The two corrections lead from any estimate to the decimal
exponent (`exponentFrom_eq_iff`). With it the number has seventeen digits in front of the ones that are cut
off, and the zeros at the end of these make no difference to their value.
-/

namespace Scriptlet.Scientific

open Decimal

/-! ## The exponent -/

theorem pow_lower_le {n : Nat} (hn : 0 < n) (estimate : Nat) : 10 ^ lower n estimate ≤ n := by
  induction estimate with
  | zero => exact hn
  | succ e ih =>
    simp only [lower, Nat.pow_eq]
    split
    · exact ih
    · exact Nat.le_of_not_lt ‹_›

theorem raise_spec {n e : Nat} (h : 10 ^ e ≤ n) : 10 ^ raise n e ≤ n ∧ n < 10 ^ (raise n e + 1) := by
  induction e using raise.induct n with
  | case1 e hle ih =>
    rw [raise, if_pos hle]
    exact ih hle
  | case2 e hle =>
    rw [raise, if_neg hle]
    exact ⟨h, Nat.lt_of_not_le hle⟩

/-- Whatever the estimate, the exponent is the only one that is right. -/
theorem exponentFrom_eq_iff {n : Nat} (hn : 0 < n) (estimate e : Nat) :
    exponentFrom estimate n = e ↔ 10 ^ e ≤ n ∧ n < 10 ^ (e + 1) := by
  obtain ⟨hle, hlt⟩ := raise_spec (pow_lower_le hn estimate)
  constructor
  · rintro rfl
    exact ⟨hle, hlt⟩
  · rintro ⟨hle', hlt'⟩
    have hbelow := (Nat.pow_lt_pow_iff_right (by decide)).1 (Nat.lt_of_le_of_lt hle hlt')
    have habove := (Nat.pow_lt_pow_iff_right (by decide)).1 (Nat.lt_of_le_of_lt hle' hlt)
    change exponentFrom estimate n < _ at hbelow
    change _ < exponentFrom estimate n + 1 at habove
    omega

/-! ## The mantissa -/

/-- Digits with a point behind the first: this one is not zero, nor is the last one behind the point. -/
structure Mantissa (lead : Char) (fraction : List Char) : Prop where
  digits : ∀ c ∈ lead :: fraction, c.isDigit = true
  lead_ne : lead ≠ '0'
  length_le : fraction.length ≤ 16
  last_ne : fraction.getLast? ≠ some '0'

def mantissaText (lead : Char) (fraction : List Char) : String :=
  String.ofList [lead] ++ if fraction.isEmpty then "" else "." ++ String.ofList fraction

/-- Only zeros are dropped. -/
theorem eq_dropZeros_append (digits : List Char) :
    ∃ k, digits = dropZeros digits ++ List.replicate k '0' := by
  refine ⟨(digits.rtakeWhile (· = '0')).length, ?_⟩
  have hzeros : ∀ c ∈ digits.rtakeWhile (· = '0'), c = '0' := by
    intro c hc
    simpa using List.mem_rtakeWhile_imp hc
  rw [← List.eq_replicate_of_mem hzeros]
  exact List.rdropWhile_append_rtakeWhile.symm

theorem getLast?_dropZeros (digits : List Char) : (dropZeros digits).getLast? ≠ some '0' := by
  intro hlast
  have hne : dropZeros digits ≠ [] := by
    intro hnil
    rw [hnil] at hlast
    cases hlast
  rw [List.getLast?_eq_some_getLast hne, Option.some.injEq] at hlast
  exact List.rdropWhile_last_not (· = '0') digits hne (decide_eq_true hlast)

/-- Seventeen digits with the zeros at their end left out. -/
theorem exists_mantissa {q : Nat} (hle : 10 ^ 16 ≤ q) (hlt : q < 10 ^ 17) :
    ∃ lead fraction, Mantissa lead fraction ∧ (Nat.toDigits 10 q).take 1 = [lead] ∧
      dropZeros ((Nat.toDigits 10 q).drop 1) = fraction ∧
      value (lead :: fraction) * 10 ^ (16 - fraction.length) = q := by
  have hlength : (Nat.toDigits 10 q).length = 17 := by
    have hle' := (Nat.length_toDigits_le_iff (by decide) (by decide)).2 hlt
    have hlt' := mt (Nat.length_toDigits_le_iff (b := 10) (by decide) (by decide)).1 (Nat.not_lt.2 hle)
    omega
  have hdigits := fun c => isDigit_toDigits (n := q) (c := c)
  have hvalue := value_toDigits q
  cases htext : Nat.toDigits 10 q with
  | nil => exact absurd htext Nat.toDigits_ne_nil
  | cons lead rest =>
    rw [htext, List.length_cons] at hlength
    rw [htext] at hdigits hvalue
    obtain ⟨k, hk⟩ := eq_dropZeros_append rest
    have hlen := congrArg List.length hk
    rw [List.length_append, List.length_replicate] at hlen
    refine ⟨lead, dropZeros rest, ⟨fun c hc => hdigits c ?_, ?_, by omega, getLast?_dropZeros rest⟩, rfl, rfl,
      ?_⟩
    · rw [hk, ← List.cons_append]
      exact List.mem_append_left _ hc
    · exact head_toDigits_ne_zero (by omega) htext
    · rw [hk, ← List.cons_append, value_append, value_replicate_zero, List.length_replicate] at hvalue
      rw [show 16 - (dropZeros rest).length = k by omega]
      exact hvalue

/-- The text of a whole number that is not small: its sign, a mantissa and the decimal exponent, from
whatever estimate it is found. The mantissa has the leading digits of the number, and those that are cut off
are less than one unit of the seventeenth. Huge numbers are shown like this. -/
theorem textFrom_truncates (estimate : Nat) (v : Int) (h : 10 ^ 16 ≤ v.natAbs) :
    ∃ e lead fraction, (∀ k, 10 ^ k ≤ v.natAbs ∧ v.natAbs < 10 ^ (k + 1) ↔ k = e) ∧
      exponentFrom estimate v.natAbs = e ∧ Mantissa lead fraction ∧
      textFrom estimate v =
        (if v < 0 then "-" else "") ++ mantissaText lead fraction ++ "e+" ++ digitsOf e ∧
      value (lead :: fraction) * 10 ^ (e - fraction.length) ≤ v.natAbs ∧
      v.natAbs < value (lead :: fraction) * 10 ^ (e - fraction.length) + 10 ^ (e - 16) ∧
      (Number.isHuge v = true → (Number.int v).text = textFrom estimate v) := by
  have hpos : 0 < v.natAbs := Nat.lt_of_lt_of_le (by decide) h
  have hexponent := exponentFrom_eq_iff hpos
  generalize he : exponentFrom estimate v.natAbs = e
  obtain ⟨hle, hlt⟩ := (hexponent estimate e).1 he
  have hlarge : 16 ≤ e := by
    have := (Nat.pow_lt_pow_iff_right (by decide)).1 (Nat.lt_of_le_of_lt h hlt)
    omega
  have hunit : 0 < 10 ^ (e - 16) := Nat.pow_pos (by decide)
  obtain ⟨lead, fraction, hmantissa, hlead, hfraction, hvalue⟩ :=
    exists_mantissa (q := v.natAbs / 10 ^ (e - 16))
      (by rwa [Nat.le_div_iff_mul_le hunit, ← Nat.pow_add, Nat.add_sub_cancel' hlarge])
      (by rwa [Nat.div_lt_iff_lt_mul hunit, ← Nat.pow_add, show 17 + (e - 16) = e + 1 by omega])
  have htext : ∀ estimate, textFrom estimate v =
      (if v < 0 then "-" else "") ++ mantissaText lead fraction ++ "e+" ++ digitsOf e := by
    intro estimate
    have hsame : exponentFrom estimate v.natAbs = e := (hexponent estimate e).2 ⟨hle, hlt⟩
    simp only [textFrom, hsame, Nat.pow_eq, hlead, hfraction, mantissaText, String.append_assoc]
  have hD : value (lead :: fraction) * 10 ^ (e - fraction.length) =
      v.natAbs / 10 ^ (e - 16) * 10 ^ (e - 16) := by
    have := hmantissa.length_le
    rw [← hvalue, Nat.mul_assoc, ← Nat.pow_add,
      show 16 - fraction.length + (e - 16) = e - fraction.length by omega]
  refine ⟨e, lead, fraction, fun k => ?_, rfl, hmantissa, htext estimate, ?_, ?_, fun hhuge => ?_⟩
  · rw [← hexponent estimate k, he, eq_comm]
  · rw [hD]
    exact Nat.div_mul_le_self _ _
  · rw [hD]
    exact Nat.lt_div_mul_add hunit
  · rw [Number.text, if_pos hhuge, Scientific.text, htext, htext]

/-- An estimate that is too high, for a number whose digits after the second are cut off. -/
theorem textFrom_truncates_above_power :
    ∃ lead fraction, Mantissa lead fraction ∧
      textFrom 40 (-1200000000000000000056) =
        "-" ++ mantissaText lead fraction ++ "e+" ++ digitsOf 21 := by
  obtain ⟨e, lead, fraction, hiff, -, hmantissa, htext, -⟩ :=
    textFrom_truncates 40 (-1200000000000000000056) (by decide)
  obtain rfl := (hiff 21).1 (by decide)
  exact ⟨lead, fraction, hmantissa, htext⟩

end Scriptlet.Scientific
