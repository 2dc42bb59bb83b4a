import Scriptlet.Proofs.Lexemes

/-!
Numerals and the numbers that they read as. A numeral in a source has no sign; without a point it reads as
the value of its digits, unless there are more than `digitLimit`, and with a point as the float nearest to
that value at its place (`read_of_isNumeral`). The decimal digits of a number that is not huge are a numeral
that reads as the number.
-/

namespace Scriptlet

namespace Decimal

open Text Lexer

/-! ## Digits -/

variable {c : Char} {rest cs : List Char}

theorem digitValue?_le {d : Nat} (h : digitValue? c = some d) : d < 10 := by
  rw [digitValue?] at h
  split at h
  · split at h
    · rename_i hc
      simp only [Bool.and_eq_true, decide_eq_true_eq, Char.le_def, UInt32.le_iff_toNat_le] at hc
      cases h
      change 48 ≤ c.toNat ∧ c.toNat ≤ 57 at hc
      omega
    · cases h
  · obtain ⟨z, hz, rfl⟩ := Option.map_eq_some_iff.1 h
    have hrange := List.find?_some hz
    simp only [Bool.and_eq_true, decide_eq_true_eq] at hrange
    omega

theorem value_lt (cs : List Char) : value cs < 10 ^ cs.length := by
  -- What is read behind a number `m` stays below its successor, moved by the same places.
  have hfold : ∀ m, cs.foldl (fun n c => 10 * n + (digitValue? c).getD 0) m <
      (m + 1) * 10 ^ cs.length := by
    induction cs with
    | nil => simp
    | cons c cs ih =>
      intro m
      have hdigit : (digitValue? c).getD 0 < 10 := by
        cases hc : digitValue? c with
        | none => decide
        | some d => exact digitValue?_le hc
      calc
        _ < (10 * m + (digitValue? c).getD 0 + 1) * 10 ^ cs.length := ih _
        _ ≤ ((m + 1) * 10) * 10 ^ cs.length := Nat.mul_le_mul_right _ (by omega)
        _ = (m + 1) * 10 ^ (c :: cs).length := by
          rw [Nat.mul_assoc, ← Nat.pow_succ', List.length_cons]
  simpa [value] using hfold 0

/-- The digits that numbers are written with are among those that are read, with the same value. -/
theorem digitValue?_of_isDigit (h : c.isDigit = true) :
    digitValue? c = some (c.toNat - '0'.toNat) := by
  simp only [Char.isDigit, Bool.and_eq_true, decide_eq_true_eq, ge_iff_le,
    UInt32.le_iff_toNat_le] at h
  change 48 ≤ c.toNat ∧ c.toNat ≤ 57 at h
  have hrange : '0' ≤ c ∧ c ≤ '9' := by
    simp only [Char.le_def, UInt32.le_iff_toNat_le]
    exact h
  rw [digitValue?, if_pos (by omega)]
  simp [hrange]

theorem isDigit_of_char (h : c.isDigit = true) : isDigit c = true := by
  rw [isDigit, digitValue?_of_isDigit h]
  rfl

theorem isDigit_of_mem_toDigits {n : Nat} (h : c ∈ Nat.toDigits 10 n) :
    isDigit c = true :=
  isDigit_of_char (Nat.isDigit_of_mem_toDigits (by decide) (by decide) h)

theorem value_toDigits (n : Nat) : value (Nat.toDigits 10 n) = n := by
  have hfold : ∀ (cs : List Char) (m : Nat), (∀ c ∈ cs, c.isDigit = true) →
      cs.foldl (fun n c => 10 * n + (digitValue? c).getD 0) m = Nat.ofDigitChars 10 cs m := by
    intro cs
    induction cs with
    | nil => exact fun _ _ => rfl
    | cons c cs ih =>
      intro m hcs
      have hc := digitValue?_of_isDigit (hcs c List.mem_cons_self)
      rw [List.foldl_cons, hc, ih _ fun d hd => hcs d (List.mem_cons_of_mem _ hd)]
      rfl
  rw [value, hfold _ _ fun c hc => Nat.isDigit_of_mem_toDigits (by decide) (by decide) hc]
  exact Nat.ofDigitChars_ten_toDigits

/-! ## Reading -/

theorem isAsciiBlank_of_isDigit (h : isDigit c = true) : isAsciiBlank c = false := by
  refine Bool.eq_false_iff.2 fun hb => ?_
  simp only [isAsciiBlank, Bool.or_eq_true, Bool.and_eq_true, decide_eq_true_eq] at hb
  rcases hb with rfl | hb
  · exact absurd h (by decide)
  · rcases isDigit_toNat h with hc | hc <;> omega

theorem dropUnderscores_of_none (h : '_' ∉ cs) (before : Option Char) :
    dropUnderscores before cs = some cs := by
  induction cs generalizing before with
  | nil => rfl
  | cons c cs ih =>
    rw [List.mem_cons, not_or] at h
    rw [dropUnderscores, if_neg (Ne.symm h.1), ih h.2]
    rfl

/-- Digits, signs, points and the letter of an exponent are neither blanks nor underscores. -/
theorem dropUnderscores_body (h : ∀ c ∈ cs, isDigit c = true ∨ c ∈ ['.', 'e', '+', '-']) :
    dropUnderscores none (body (String.ofList cs)) = some cs := by
  have hblank : ∀ c ∈ cs, isAsciiBlank c = false ∧ isBlank c = false := by
    intro c hc
    rcases h c hc with hd | hmark
    · exact ⟨isAsciiBlank_of_isDigit hd, isBlank_of_isDigit hd⟩
    · simp only [List.mem_cons, List.not_mem_nil, or_false] at hmark
      rcases hmark with rfl | rfl | rfl | rfl <;> exact ⟨by decide, by decide⟩
  have hkeep : ∀ {blank : Char → Bool} {list : List Char}, (∀ c ∈ list, blank c = false) →
      list.dropWhile blank = list := by
    intro blank list hlist
    cases list with
    | nil => rfl
    | cons c rest => simp [hlist c List.mem_cons_self]
  have htrim : ∀ {blank : Char → Bool}, (∀ c ∈ cs, blank c = false) → trimBlanks blank cs = cs := by
    intro blank hcs
    rw [trimBlanks, hkeep hcs, hkeep fun c hc => hcs c (List.mem_reverse.1 hc), List.reverse_reverse]
  rw [body, String.toList_ofList, htrim]
  · exact dropUnderscores_of_none (fun hmem => absurd (h _ hmem) (by decide)) none
  · intro c hc
    split
    · exact (hblank c hc).1
    · exact (hblank c hc).2

theorem chars_signed (h : ∀ c ∈ cs, isDigit c = true ∨ c ∈ ['.', 'e', '+', '-']) (negative : Bool) :
    ∀ c ∈ (if negative then ['-'] else []) ++ cs, isDigit c = true ∨ c ∈ ['.', 'e', '+', '-'] := by
  cases negative with
  | false => exact h
  | true => exact List.forall_mem_cons.2 ⟨.inr (by decide), h⟩

/-- A sign in front of something that starts with a digit. -/
theorem splitSign_append (hc : isDigit c = true) (negative : Bool) :
    splitSign ((if negative then ['-'] else []) ++ c :: rest) = (negative, c :: rest) := by
  have hminus : c ≠ '-' := ne_of_isDigit hc (by decide)
  have hplus : c ≠ '+' := ne_of_isDigit hc (by decide)
  cases negative with
  | false => simp [splitSign, hminus, hplus]
  | true => rfl

theorem negateIf_natAbs (n : Int) : negateIf (decide (n < 0)) n.natAbs = n := by
  rw [negateIf]
  split
  · rename_i hneg
    rw [decide_eq_true_eq] at hneg
    omega
  · rename_i hneg
    rw [decide_eq_true_eq] at hneg
    omega

/-- Digits, with a sign or without, are read as their value, unless there are too many. -/
theorem readInt_signed (hc : isDigit c = true) (hrest : ∀ d ∈ rest, isDigit d = true) (negative : Bool) :
    readInt (String.ofList ((if negative then ['-'] else []) ++ c :: rest)) =
      if digitLimit < (c :: rest).length then .error .tooManyDigits
      else .ok (negateIf negative (value (c :: rest))) := by
  have hdigits : ∀ d ∈ c :: rest, isDigit d = true := List.forall_mem_cons.2 ⟨hc, hrest⟩
  have hall : (c :: rest).all isDigit = true := List.all_eq_true.2 hdigits
  rw [readInt, dropUnderscores_body (chars_signed (fun d hd => .inl (hdigits d hd)) negative)]
  simp only [splitSign_append hc, hall, List.isEmpty_cons, Bool.not_true, Bool.or_self,
    Bool.false_eq_true, ↓reduceIte]

/-- The digits of a number that is not huge, with a sign or without, are read as the number. -/
theorem readInt_toDigits {n : Nat} (h : n < 10 ^ digitLimit) (negative : Bool) :
    readInt (String.ofList ((if negative then ['-'] else []) ++ Nat.toDigits 10 n)) =
      .ok (negateIf negative n) := by
  have hlength : ¬ digitLimit < (Nat.toDigits 10 n).length :=
    Nat.not_lt.2 ((Nat.length_toDigits_le_iff (by decide) (by decide)).2 h)
  have hdigits := fun c => isDigit_of_mem_toDigits (c := c) (n := n)
  have hvalue := value_toDigits n
  obtain ⟨c, rest, heq⟩ := List.exists_cons_of_ne_nil (Nat.toDigits_ne_nil (b := 10) (n := n))
  rw [heq] at hlength hdigits hvalue ⊢
  obtain ⟨hc, hrest⟩ := List.forall_mem_cons.1 hdigits
  rw [readInt_signed hc hrest, if_neg hlength, hvalue]

theorem readInt_digitsOf {n : Nat} (h : n < 10 ^ digitLimit) : readInt (digitsOf n) = .ok n :=
  readInt_toDigits h false

theorem number_digitsOf (n : Nat) :
    number none (digitsOf n).toList = some (digitsOf n).toList.length := by
  have htake : (Nat.toDigits 10 n ++ []).takeWhile isDigit = Nat.toDigits 10 n :=
    takeWhile_append_stop (fun _ => isDigit_of_mem_toDigits) rfl
  rw [List.append_nil] at htake
  have hpos : (Nat.toDigits 10 n).length ≠ 0 := by
    simp [Nat.toDigits_ne_nil]
  rw [digitsOf, String.toList_ofList, number, htake, List.drop_length]
  simp only [hpos, ↓reduceIte]

/-! ## Decimals -/

/-- A decimal in parts: the digits in front of the point and behind it, and an exponent with its
sign. -/
structure Parts where
  whole : List Char
  fraction : List Char
  exponent : Option (Bool × List Char)

namespace Parts

def fractionText (p : Parts) : List Char :=
  if p.fraction.isEmpty then [] else '.' :: p.fraction

def exponentText (p : Parts) : List Char :=
  match p.exponent with
  | none => []
  | some (negative, digits) => 'e' :: (if negative then '-' else '+') :: digits

def text (p : Parts) : List Char :=
  p.whole ++ (p.fractionText ++ p.exponentText)

/-- The decimal place of the last digit. -/
def place (p : Parts) : Int :=
  (match p.exponent with
  | none => 0
  | some (negative, digits) => negateIf negative (value digits)) - p.fraction.length

/-- Whether there is more than a whole number. -/
def isDecimal (p : Parts) : Bool :=
  !p.fraction.isEmpty || p.exponent.isSome

/-- The parts consist of digits, there are digits where they have to be, and none too many in front. -/
structure Proper (p : Parts) : Prop where
  whole_digits : ∀ c ∈ p.whole, c.isDigit = true
  fraction_digits : ∀ c ∈ p.fraction, c.isDigit = true
  exponent_digits : ∀ {negative digits}, p.exponent = some (negative, digits) →
    digits ≠ [] ∧ ∀ c ∈ digits, c.isDigit = true
  lead : p.whole = ['0'] ∨ ∃ c rest, p.whole = c :: rest ∧ c ≠ '0'

/-- The parts consist of digits of any script, with one in front. -/
structure Legible (p : Parts) : Prop where
  whole_ne : p.whole ≠ []
  whole_digits : ∀ c ∈ p.whole, Text.isDigit c = true
  fraction_digits : ∀ c ∈ p.fraction, Text.isDigit c = true
  exponent_digits : ∀ {negative digits}, p.exponent = some (negative, digits) →
    digits ≠ [] ∧ ∀ c ∈ digits, Text.isDigit c = true

end Parts

theorem toLower_ne_of_isDigit {c d : Char} (hc : isDigit c = true) (hd : isDigit d = false) :
    c.toLower ≠ d := by
  have hupper : ∀ k < 26, isDigit (Char.ofNat (65 + k)) = false := by decide
  rintro rfl
  by_cases hrange : c.val ≥ 'A'.val ∧ c.val ≤ 'Z'.val
  · have hlow : 65 ≤ c.toNat := hrange.1
    have hhigh : c.toNat ≤ 90 := hrange.2
    have hletter := hupper (c.toNat - 65) (by omega)
    rw [show 65 + (c.toNat - 65) = c.toNat by omega, Char.ofNat_toNat, hc] at hletter
    cases hletter
  · have hsame : c.toLower = c := dif_neg hrange
    rw [hsame, hc] at hd
    cases hd

/-- A text that starts with a digit is not the name of a number. -/
theorem map_toLower_ne_of_isDigit {c d : Char} {rest ds : List Char} {name : String}
    (hc : isDigit c = true) (hname : name.toList = d :: ds) (hd : isDigit d = false) :
    String.ofList ((c :: rest).map Char.toLower) ≠ name := by
  rintro rfl
  rw [String.toList_ofList, List.map_cons] at hname
  exact toLower_ne_of_isDigit hc hd (List.cons.inj hname).1

variable {p : Parts}

theorem Parts.Proper.whole_eq_cons (h : p.Proper) :
    ∃ c rest, p.whole = c :: rest ∧ c.isDigit = true := by
  obtain ⟨c, rest, heq⟩ : ∃ c rest, p.whole = c :: rest := by
    rcases h.lead with h | ⟨c, rest, h, -⟩
    · exact ⟨_, _, h⟩
    · exact ⟨c, rest, h⟩
  exact ⟨c, rest, heq, h.whole_digits c (heq ▸ List.mem_cons_self)⟩

theorem Parts.Proper.legible (h : p.Proper) : p.Legible where
  whole_ne := by
    obtain ⟨c, rest, heq, -⟩ := h.whole_eq_cons
    simp [heq]
  whole_digits c hc := isDigit_of_char (h.whole_digits c hc)
  fraction_digits c hc := isDigit_of_char (h.fraction_digits c hc)
  exponent_digits heq := (h.exponent_digits heq).imp id fun hdigits c hc => isDigit_of_char (hdigits c hc)

/-- Characters of the text of a float: digits, a sign, a point and the letter of an exponent. -/
theorem Parts.Legible.chars (h : p.Legible) (hc : c ∈ p.text) :
    isDigit c = true ∨ c ∈ ['.', 'e', '+', '-'] := by
  rw [text, fractionText, exponentText] at hc
  rcases List.mem_append.1 hc with hc | hc
  · exact .inl (h.whole_digits c hc)
  rcases List.mem_append.1 hc with hc | hc
  · split at hc
    · cases hc
    · rcases List.mem_cons.1 hc with rfl | hc
      · exact .inr (by decide)
      · exact .inl (h.fraction_digits c hc)
  · split at hc
    · cases hc
    · rename_i negative digits heq
      simp only [List.mem_cons] at hc
      rcases hc with rfl | rfl | hc
      · exact .inr (by decide)
      · exact .inr (by split <;> decide)
      · exact .inl ((h.exponent_digits heq).2 c hc)

theorem Parts.Legible.readExponent (h : p.Legible) :
    Decimal.readExponent p.exponentText = some (p.place + p.fraction.length) := by
  rw [exponentText, place, Int.sub_add_cancel]
  cases heq : p.exponent with
  | none => rfl
  | some s =>
    obtain ⟨negative, digits⟩ := s
    obtain ⟨hne, hdigits⟩ := h.exponent_digits heq
    have hall : digits.all isDigit = true := List.all_eq_true.2 hdigits
    cases negative <;> simp [Decimal.readExponent, splitSign, hne, hall]

theorem Parts.Legible.readMagnitude (h : p.Legible) (negative : Bool) :
    Decimal.readMagnitude negative p.text =
      some (toFloat negative (value (p.whole ++ p.fraction)) p.place) := by
  obtain ⟨c, rest, hwhole⟩ := List.exists_cons_of_ne_nil h.whole_ne
  have hname (name : String) {d : Char} {ds : List Char} (heq : name.toList = d :: ds)
      (hd : isDigit d = false) : String.ofList (p.text.map Char.toLower) ≠ name := by
    rw [text, hwhole]
    exact map_toLower_ne_of_isDigit (h.whole_digits c (by simp [hwhole])) heq hd
  have hexponent : p.exponentText.head?.any isDigit = false := by
    rw [exponentText]
    split
    · rfl
    · exact (by decide : isDigit 'e' = false)
  have hfraction : splitFraction (p.fractionText ++ p.exponentText) = (p.fraction, p.exponentText) := by
    rw [fractionText]
    split
    · rename_i hempty
      rw [List.isEmpty_iff.1 hempty, List.nil_append, exponentText]
      split <;> rfl
    · rw [List.cons_append, splitFraction, takeWhile_append_stop h.fraction_digits hexponent,
        dropWhile_append_stop h.fraction_digits hexponent]
  have hpoint : (p.fractionText ++ p.exponentText).head?.any isDigit = false := by
    rw [fractionText]
    split
    · exact hexponent
    · exact (by decide : isDigit '.' = false)
  simp only [Decimal.readMagnitude, hname "inf" rfl (by decide), hname "infinity" rfl (by decide),
    hname "nan" rfl (by decide), decide_false, Bool.or_self, Bool.false_eq_true, ↓reduceIte]
  simp only [text, takeWhile_append_stop h.whole_digits hpoint, dropWhile_append_stop h.whole_digits hpoint,
    hfraction, h.readExponent]
  simp [hwhole]

theorem Parts.Legible.readFloat (h : p.Legible) (negative : Bool) :
    Decimal.readFloat (String.ofList ((if negative then ['-'] else []) ++ p.text)) =
      .ok (toFloat negative (value (p.whole ++ p.fraction)) p.place) := by
  obtain ⟨c, rest, hwhole⟩ := List.exists_cons_of_ne_nil h.whole_ne
  have hsign : splitSign ((if negative then ['-'] else []) ++ p.text) = (negative, p.text) := by
    rw [text, hwhole]
    exact splitSign_append (h.whole_digits c (by simp [hwhole])) negative
  rw [Decimal.readFloat, dropUnderscores_body (chars_signed (fun _ => h.chars) negative)]
  simp only [hsign, h.readMagnitude]

/-! ## Numerals -/

/-- A numeral without a point is a whole number, if it has not too many digits; one with a point is a
float. -/
theorem read_of_isNumeral (h : IsNumeral cs) :
    ('.' ∉ cs ∧ Number.read (String.ofList cs) =
      if digitLimit < cs.length then .error .tooManyDigits else .ok (.int (value cs))) ∨
    ∃ whole fraction, cs = whole ++ '.' :: fraction ∧ Number.read (String.ofList cs) =
      .ok (.float (toFloat false (value (whole ++ fraction)) (-fraction.length))) := by
  obtain ⟨c, whole, hwhole, rfl | ⟨d, fraction, hfraction, rfl⟩⟩ := h
  · left
    have hpoint : '.' ∉ c :: whole := fun hmem => absurd (hwhole _ hmem) (by decide)
    obtain ⟨hc, hrest⟩ := List.forall_mem_cons.1 hwhole
    refine ⟨hpoint, ?_⟩
    rw [Number.read, String.toList_ofList, if_neg hpoint]
    have hread := readInt_signed hc hrest false
    simp only [Bool.false_eq_true, ↓reduceIte, List.nil_append] at hread
    rw [hread]
    split <;> rfl
  · right
    refine ⟨c :: whole, d :: fraction, rfl, ?_⟩
    have hparts : Parts.Legible ⟨c :: whole, d :: fraction, none⟩ :=
      ⟨List.cons_ne_nil _ _, hwhole, hfraction, nofun⟩
    have hread := hparts.readFloat false
    simp only [Parts.text, Parts.fractionText, Parts.exponentText, Parts.place, List.isEmpty_cons,
      List.append_nil, Bool.false_eq_true, ↓reduceIte, List.nil_append, Int.zero_sub] at hread
    rw [Number.read, if_pos (by simp), hread]
    rfl

/-- What a numeral reads as. -/
theorem number_of_isNumeral {n : Number} (h : IsNumeral cs) (hread : Number.read (String.ofList cs) = .ok n) :
    (∃ k : Nat, n = .int k ∧ k < 10 ^ digitLimit) ∨ ∃ digits e, n = .float (toFloat false digits e) := by
  rcases read_of_isNumeral h with ⟨-, heq⟩ | ⟨whole, fraction, -, heq⟩
  · left
    rw [heq] at hread
    split at hread
    · cases hread
    · rename_i hlimit
      cases hread
      have hpow : 10 ^ cs.length ≤ 10 ^ digitLimit :=
        Nat.pow_le_pow_right (by decide) (Nat.le_of_not_lt hlimit)
      exact ⟨_, rfl, Nat.lt_of_lt_of_le (value_lt cs) hpow⟩
  · right
    cases heq.symm.trans hread
    exact ⟨_, _, rfl⟩

end Decimal

open Lexer

theorem Lexer.Scans.isNumeral {table : KeywordTable} {c c' : Lexer.Cursor} {tokens : List Token}
    (h : Scans (rules table) c tokens c') :
    ∀ t ∈ tokens, t.type = .number → IsNumeral t.text.toList := by
  intro t ht htype
  obtain ⟨front, d, type, n, -, hm, rfl⟩ := h.exists_match ht
  obtain ⟨r, hr, hrule, hmatch⟩ := exists_rule_of_firstMatch hm
  rw [(rule_of_type hr).2.2.2 (hrule.trans (congrArg some htype))] at hmatch
  simpa [Cursor.token] using isNumeral_of_number hmatch

end Scriptlet
