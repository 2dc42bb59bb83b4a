import Scriptlet.Json.Reader
import Scriptlet.Json.Writer
import Scriptlet.Proofs.NumberText

/-!
Files hold what was written to them. A datum without a number that is none, without foreign things
and with distinct member names is read back from its text as it was: each part of the text is read
in front of a delimiter, a comma or a line break, whatever comes behind that.
-/

namespace Scriptlet

/-- Scalars that a file can hold: whole numbers that are not huge and floats that are numbers. -/
def Scalar.Storable : Scalar → Prop
  | .null | .bool _ | .text _ => True
  | .number (.int n) => n.natAbs < 10 ^ Decimal.digitLimit
  | .number (.float x) => Binary.decode x ≠ .nan

namespace Json

open Decimal (Parts)

variable {half : Except ReadError Char}

/-! ## Texts in quotation marks -/

theorem hexUnit_hex {k : Nat} (hk : k < 0x20) (rest : List Char) :
    hexUnit ((Text.hex 4 k).toList ++ rest) = some (k, rest) := by
  have hdigits : ∀ k < 0x20, (Text.hex 4 k).toList =
      ['0', '0', (Text.hex 4 k).toList.getD 2 '0', (Text.hex 4 k).toList.getD 3 '0'] ∧
      hexValue? ((Text.hex 4 k).toList.getD 2 '0') = some (k / 16) ∧
      hexValue? ((Text.hex 4 k).toList.getD 3 '0') = some (k % 16) := by decide
  obtain ⟨htext, hhigh, hlow⟩ := hdigits k hk
  rw [htext]
  simp only [List.cons_append, List.nil_append, hexUnit, hhigh, hlow]
  simp [show hexValue? '0' = some 0 by decide]
  omega

/-- One character of a text, escaped or not, is read as the character. -/
theorem textBody_bind (c : Char) (n : Nat) (cs : List Char) :
    (do
      let (cs, remaining) ← textBody half n cs
      return (c :: cs, remaining) : Except ReadError (List Char × List Char)) =
      (textBody half n cs).map fun p => (c :: p.1, p.2) := by
  cases textBody half n cs <;> rfl

theorem textBody_escape (c : Char) (n : Nat) (cs : List Char) :
    textBody half (n + 1) (escape c ++ cs) = (textBody half n cs).map fun p => (c :: p.1, p.2) := by
  have hbind := fun d => @textBody_bind half d n cs
  unfold escape
  split
  · next h => subst h; exact hbind _
  split
  · next h => subst h; exact hbind _
  split
  · next h => subst h; exact hbind _
  split
  · next h => subst h; exact hbind _
  split
  · next h => subst h; exact hbind _
  split
  · next h => subst h; exact hbind _
  split
  · next h => subst h; exact hbind _
  split
  · next h =>
    have hcode : unicodeEscape ((Text.hex 4 c.toNat).toList ++ cs) = some (c.toNat, cs) := by
      simp [unicodeEscape, hexUnit_hex h]
      omega
    have hchar : escaped half c.toNat = .ok c := by
      rw [escaped, isHalf, if_neg (by simp; omega), Char.ofNat_toNat]
    simp only [List.cons_append, List.nil_append, textBody, hcode, hchar]
    exact hbind c
  · next hquote hback _ _ _ _ _ hcontrol =>
    rw [List.singleton_append, textBody]
    · rw [if_neg (by simp [hback]; omega)]
      exact hbind c
    · exact fun h => hquote h
    · exact fun d h => absurd h hback
    · exact fun d rest h => absurd h hback

theorem textBody_flatMap (cs rest : List Char) {n : Nat} (hn : cs.length < n) :
    textBody half n (cs.flatMap escape ++ '"' :: rest) = .ok (cs, rest) := by
  induction cs generalizing n with
  | nil =>
    obtain ⟨n, rfl⟩ : ∃ k, n = k + 1 := ⟨n - 1, by omega⟩
    rfl
  | cons c cs ih =>
    obtain ⟨n, rfl⟩ : ∃ k, n = k + 1 := ⟨n - 1, by omega⟩
    rw [List.flatMap_cons, List.append_assoc, textBody_escape, ih (by simpa using hn)]
    rfl

theorem length_lt_textLiteral (s : String) : s.toList.length < (textLiteral s).toList.length := by
  have hescape : ∀ c, 1 ≤ (escape c).length := by
    intro c
    unfold escape
    repeat' split
    all_goals simp
  have hflat : ∀ cs : List Char, cs.length ≤ (cs.flatMap escape).length := by
    intro cs
    induction cs with
    | nil => exact Nat.le_refl 0
    | cons c cs ih =>
      have := hescape c
      rw [List.flatMap_cons, List.length_append, List.length_cons]
      omega
  have := hflat s.toList
  rw [textLiteral, String.toList_ofList, List.length_append, List.length_cons]
  omega

theorem exists_textLiteral_eq (s : String) : ∃ cs, (textLiteral s).toList = '"' :: cs := by
  rw [textLiteral, String.toList_ofList]
  exact ⟨_, rfl⟩

theorem readText_textLiteral (s : String) (rest : List Char) {n : Nat} (hn : s.toList.length < n) :
    readText half n ((textLiteral s).toList ++ rest) = .ok (s, rest) := by
  rw [textLiteral, String.toList_ofList, List.cons_append, List.cons_append, List.append_assoc,
    List.singleton_append, readText, textBody_flatMap _ _ hn]
  simp [bind, Except.bind, pure, Except.pure]

/-! ## Numbers -/

/-- A datum ends here: a comma or a line break follows, or nothing. -/
def Delimited (rest : List Char) : Prop :=
  ∀ c ∈ rest.head?, c = ',' ∨ c = '\n'

theorem Delimited.any_eq_false {rest : List Char} (h : Delimited rest) {p : Char → Bool}
    (hcomma : p ',' = false) (hline : p '\n' = false) : rest.head?.any p = false := by
  cases hc : rest.head? with
  | none => rfl
  | some c =>
    rcases h c hc with rfl | rfl
    · exact hcomma
    · exact hline

section
variable {p : Parts} (h : p.Proper) {rest : List Char}
include h

theorem exponentPart_parts (hrest : Delimited rest) :
    exponentPart (p.exponentText ++ rest) = (p.exponentText, rest) := by
  rw [Parts.exponentText]
  cases hexp : p.exponent with
  | none =>
    cases rest with
    | nil => rfl
    | cons c rest =>
      have hc := hrest.any_eq_false (p := fun c => c = 'e' || c = 'E') rfl rfl
      rw [List.head?_cons, Option.any_some] at hc
      simp [exponentPart, hc]
  | some s =>
    obtain ⟨negative, digits⟩ := s
    obtain ⟨hne, hdigits⟩ := h.exponent_digits hexp
    have hstop := hrest.any_eq_false (p := isAsciiDigit) rfl rfl
    have htake := Lexer.takeWhile_append_stop (p := isAsciiDigit) hdigits hstop
    have hdrop := Lexer.dropWhile_append_stop (p := isAsciiDigit) hdigits hstop
    cases negative <;> simp [exponentPart, htake, hdrop, hne]

theorem fractionPart_parts (hrest : Delimited rest) :
    fractionPart (p.fractionText ++ (p.exponentText ++ rest)) =
      (p.fractionText, p.exponentText ++ rest) := by
  have hstop : (p.exponentText ++ rest).head?.any isAsciiDigit = false := by
    rw [Parts.exponentText]
    split
    · exact hrest.any_eq_false rfl rfl
    · rfl
  have hpoint : (p.exponentText ++ rest).head?.any (· = '.') = false := by
    rw [Parts.exponentText]
    split
    · exact hrest.any_eq_false rfl rfl
    · rfl
  rw [Parts.fractionText]
  by_cases hempty : p.fraction = []
  · simp only [hempty, List.isEmpty_nil, ↓reduceIte, List.nil_append]
    generalize p.exponentText ++ rest = cs at hpoint
    cases cs with
    | nil => rfl
    | cons c cs =>
      rw [fractionPart]
      rintro _ ⟨⟩
      cases hpoint
  · have htake := Lexer.takeWhile_append_stop (p := isAsciiDigit) h.fraction_digits hstop
    have hdrop := Lexer.dropWhile_append_stop (p := isAsciiDigit) h.fraction_digits hstop
    simp [fractionPart, hempty, htake, hdrop]

theorem wholePart_parts (hrest : rest.head?.any isAsciiDigit = false) :
    wholePart (p.whole ++ rest) = some (p.whole, rest) := by
  rcases h.lead with hzero | ⟨c, digits, hwhole, hc⟩
  · rw [hzero]
    rfl
  · have htake := Lexer.takeWhile_append_stop (p := isAsciiDigit) h.whole_digits hrest
    have hdrop := Lexer.dropWhile_append_stop (p := isAsciiDigit) h.whole_digits hrest
    rw [wholePart]
    · rw [htake, hdrop, hwhole]
      rfl
    · intro cs heq
      rw [hwhole] at heq
      exact hc (List.cons.inj heq).1

/-- The text of a number is split into its parts, up to what follows. -/
theorem readNumber_parts (hrest : Delimited rest) (sign : List Char) :
    readNumber sign (p.text ++ rest) =
      (numberOf (sign ++ p.whole) (sign ++ p.text) p.isDecimal).map (·, rest) := by
  have hstop : (p.fractionText ++ (p.exponentText ++ rest)).head?.any isAsciiDigit = false := by
    rw [Parts.fractionText, Parts.exponentText]
    split
    · split
      · exact hrest.any_eq_false rfl rfl
      · rfl
    · rfl
  have hdecimal : (!p.fractionText.isEmpty || !p.exponentText.isEmpty) = p.isDecimal := by
    rw [Parts.fractionText, Parts.exponentText, Parts.isDecimal]
    cases p.exponent <;> cases p.fraction <;> rfl
  simp only [Parts.text, List.append_assoc, readNumber, wholePart_parts h hstop,
    fractionPart_parts h hrest, exponentPart_parts h hrest, hdecimal]
  cases numberOf (sign ++ p.whole) (sign ++ (p.whole ++ (p.fractionText ++ p.exponentText))) p.isDecimal <;>
    rfl

end

variable {p : Parts} {rest cs : List Char} {negative : Bool} {c : Char} {s : Scalar}
  {members : List (String × Json)}

/-- What starts with a digit, or with a minus and a digit, is none of the words. -/
theorem readWord_eq_none (hc : c.isDigit = true) :
    readWord ((if negative then ['-'] else []) ++ c :: rest) = none := by
  have hne : ∀ d : Char, d.isDigit = false → c ≠ d := by
    rintro d hd rfl
    rw [hc] at hd
    cases hd
  cases negative <;>
    simp [readWord, words, (hne 'n' rfl).symm, (hne 't' rfl).symm, (hne 'f' rfl).symm,
      (hne 'N' rfl).symm, (hne 'I' rfl).symm, (hne '-' rfl).symm]

/-- A number in front of a delimiter is read by its parts. -/
theorem readScalar_parts (h : p.Proper) (hrest : Delimited rest) (negative : Bool) :
    readScalar ((if negative then ['-'] else []) ++ p.text ++ rest) =
      (numberOf ((if negative then ['-'] else []) ++ p.whole) ((if negative then ['-'] else []) ++ p.text)
        p.isDecimal).map fun s => (.scalar s, rest) := by
  obtain ⟨c, digits, hwhole, hc⟩ := h.whole_eq_cons
  have htext : p.text ++ rest = c :: (digits ++ (p.fractionText ++ p.exponentText) ++ rest) := by
    rw [Parts.text, hwhole]
    rfl
  have hminus : c ≠ '-' := by
    rintro rfl
    exact absurd hc (by decide)
  have hword : readWord ((if negative then ['-'] else []) ++ (p.text ++ rest)) = none := by
    rw [htext]
    exact readWord_eq_none hc
  rw [List.append_assoc, readScalar, hword]
  have hbind : ∀ r : Except ReadError Scalar,
      ((r.map (·, rest)) >>= fun q => pure (Json.scalar q.1, q.2)) =
        r.map fun s => (Json.scalar s, rest) := by
    intro r
    cases r <;> rfl
  cases negative with
  | false =>
    have hread := readNumber_parts h hrest []
    simp only [List.nil_append, Bool.false_eq_true, ↓reduceIte] at hread ⊢
    split
    · rename_i heq
      rw [htext] at heq
      exact absurd (List.cons.inj heq).1 hminus
    · rw [hread]
      exact hbind _
  | true =>
    simp only [↓reduceIte, List.singleton_append, readNumber_parts h hrest]
    exact hbind _

/-! ## Scalars -/

theorem readValue_eq_readScalar {c : Char} {cs : List Char} (hquote : c ≠ '"') (hlist : c ≠ '[')
    (hobject : c ≠ '\x7b') (n room : Nat) :
    readValue half n (room + 1) (c :: cs) = readScalar (c :: cs) := by
  rw [readValue]
  · exact fun _ h => hquote (List.cons.inj h).1
  · exact fun _ h => hlist (List.cons.inj h).1
  · exact fun _ h => hobject (List.cons.inj h).1

/-- The text of a datum starts with a character that is no blank and no closing bracket. -/
def Opens (cs : List Char) : Prop :=
  ∃ c rest, cs = c :: rest ∧ isSpace c = false ∧ c ≠ ']' ∧ c ≠ '\x7d'

theorem Opens.append (h : Opens cs) (rest : List Char) : Opens (cs ++ rest) := by
  obtain ⟨c, cs, rfl, hc⟩ := h
  exact ⟨c, cs ++ rest, rfl, hc⟩

/-- A number starts with a digit or a minus. -/
theorem head_parts (h : p.Proper) (negative : Bool) :
    ∃ c cs, (if negative then ['-'] else []) ++ p.text = c :: cs ∧ (c.isDigit = true ∨ c = '-') := by
  obtain ⟨c, digits, hwhole, hc⟩ := h.whole_eq_cons
  cases negative with
  | false => exact ⟨c, _, by rw [Parts.text, hwhole]; rfl, .inl hc⟩
  | true => exact ⟨'-', _, rfl, .inr rfl⟩

theorem ne_of_digit_or_minus {d : Char} (hc : c.isDigit = true ∨ c = '-') (hd : d.isDigit = false)
    (hminus : d ≠ '-') : c ≠ d := by
  rintro rfl
  rcases hc with hc | hc
  · rw [hd] at hc
    cases hc
  · exact hminus hc

theorem opens_parts (h : p.Proper) (negative : Bool) :
    Opens ((if negative then ['-'] else []) ++ p.text) := by
  obtain ⟨c, cs, htext, hc⟩ := head_parts h negative
  have hne : ∀ d : Char, d.isDigit = false → d ≠ '-' → c ≠ d := fun d => ne_of_digit_or_minus hc
  refine ⟨c, cs, htext, ?_, hne _ rfl (by decide), hne _ rfl (by decide)⟩
  simp [isSpace, hne ' ' rfl (by decide), hne '\t' rfl (by decide), hne '\n' rfl (by decide),
    hne '\r' rfl (by decide)]

/-- A number in front of a delimiter is read as what its text stands for. -/
theorem readValue_parts (h : p.Proper) (hrest : Delimited rest)
    (hs : numberOf ((if negative then ['-'] else []) ++ p.whole)
      ((if negative then ['-'] else []) ++ p.text) p.isDecimal = .ok s)
    (n room : Nat) :
    readValue half n (room + 1) ((if negative then ['-'] else []) ++ p.text ++ rest) =
      .ok (.scalar s, rest) := by
  have hscalar := readScalar_parts h hrest negative
  obtain ⟨c, cs, htext, hc⟩ := head_parts h negative
  have hne : ∀ d : Char, d.isDigit = false → d ≠ '-' → c ≠ d := fun d => ne_of_digit_or_minus hc
  rw [hs, htext, List.cons_append] at hscalar
  rw [htext, List.cons_append, readValue_eq_readScalar (hne _ rfl (by decide)) (hne _ rfl (by decide))
    (hne _ rfl (by decide)), hscalar]
  rfl

/-- The text of a whole number in parts. -/
theorem exists_int_parts (k : Int) :
    Parts.Proper ⟨Nat.toDigits 10 k.natAbs, [], none⟩ ∧ (Number.intText k).toList =
      (if decide (k < 0) then ['-'] else []) ++ Parts.text ⟨Nat.toDigits 10 k.natAbs, [], none⟩ := by
  constructor
  · refine ⟨fun c hc => Decimal.isDigit_toDigits hc, nofun, nofun, ?_⟩
    rcases Nat.eq_zero_or_pos k.natAbs with hzero | hpos
    · left
      rw [hzero]
      rfl
    · right
      obtain ⟨c, digits, heq⟩ := List.exists_cons_of_ne_nil (Nat.toDigits_ne_nil (n := k.natAbs) (b := 10))
      exact ⟨c, digits, heq, Decimal.head_toDigits_ne_zero hpos heq⟩
  · rw [Number.intText, String.toList_append, Decimal.digitsOf, String.toList_ofList]
    simp only [Parts.text, Parts.fractionText, Parts.exponentText, List.isEmpty_nil, ↓reduceIte,
      List.append_nil, decide_eq_true_eq]
    split <;> rfl

/-- A scalar is read back, and starts as data do. -/
theorem readValue_scalar (hs : s.Storable) {n : Nat} (hn : (scalarLiteral s).toList.length ≤ n) (room : Nat) :
    Opens (scalarLiteral s).toList ∧ ∀ rest, Delimited rest →
      readValue half n (room + 1) ((scalarLiteral s).toList ++ rest) = .ok (.scalar s, rest) := by
  cases s with
  | null => exact ⟨⟨'n', _, rfl, by decide⟩, fun rest _ => rfl⟩
  | bool b =>
    cases b with
    | false => exact ⟨⟨'f', _, rfl, by decide⟩, fun rest _ => rfl⟩
    | true => exact ⟨⟨'t', _, rfl, by decide⟩, fun rest _ => rfl⟩
  | text s =>
    have hread := fun rest =>
      @readText_textLiteral half s rest n (Nat.lt_of_lt_of_le (length_lt_textLiteral s) hn)
    obtain ⟨cs, htext⟩ := exists_textLiteral_eq s
    rw [htext] at hread
    rw [scalarLiteral, htext]
    refine ⟨⟨'"', cs, rfl, by decide⟩, fun rest _ => ?_⟩
    rw [List.cons_append, readValue, ← List.cons_append, hread]
    rfl
  | number k =>
    cases k with
    | int k =>
      obtain ⟨hproper, htext⟩ := exists_int_parts k
      rw [scalarLiteral, htext]
      refine ⟨opens_parts hproper _, fun rest hrest => readValue_parts hproper hrest ?_ n room⟩
      rw [numberOf]
      simp only [Parts.isDecimal, List.isEmpty_nil, Bool.not_true, Option.isSome_none, Bool.or_self,
        Bool.false_eq_true, ↓reduceIte, Decimal.readInt_toDigits hs, Decimal.negateIf_natAbs]
    | float x =>
      rw [scalarLiteral, floatLiteral]
      cases hdecode : Binary.decode x with
      | nan => exact absurd hdecode hs
      | infinite negative =>
        rw [Binary.decode_eq_infinite hdecode]
        cases negative with
        | false => exact ⟨⟨'I', _, rfl, by decide⟩, fun rest _ => rfl⟩
        | true => exact ⟨⟨'-', _, rfl, by decide⟩, fun rest _ => rfl⟩
      | finite negative m q =>
        obtain ⟨p, hproper, hdecimal, htext, hread⟩ := Decimal.exists_parts hdecode
        dsimp only
        rw [htext]
        refine ⟨opens_parts hproper _, fun rest hrest => readValue_parts hproper hrest ?_ n room⟩
        rw [numberOf, if_pos hdecimal, ← htext, String.ofList_toList, hread]

/-! ## Lists and objects -/

theorem newline_toList (level : Nat) :
    (newline level).toList = '\n' :: List.replicate (2 * level) ' ' := by
  simp [newline]

theorem Opens.skipSpaces_eq (h : Opens cs) : skipSpaces cs = cs := by
  obtain ⟨c, cs, rfl, hc, -, -⟩ := h
  exact List.dropWhile_cons_of_neg (by simp [hc])

/-- Line breaks with their indentation are blanks. -/
theorem skipSpaces_newline (level : Nat) (cs : List Char) :
    skipSpaces ((newline level).toList ++ cs) = skipSpaces cs := by
  refine List.dropWhile_append_of_pos fun c hc => ?_
  rw [newline_toList] at hc
  rcases List.mem_cons.1 hc with rfl | hc
  · decide
  · rw [List.eq_of_mem_replicate hc]
    decide

theorem delimited_newline (level : Nat) (cs : List Char) :
    Delimited ((newline level).toList ++ cs) := by
  rw [newline_toList]
  intro c hc
  obtain rfl : '\n' = c := by simpa using hc
  exact .inr rfl

theorem opens_intercalate (sep : String) {parts : List String} (hne : parts ≠ [])
    (h : ∀ part ∈ parts, Opens part.toList) : Opens (sep.intercalate parts).toList := by
  obtain ⟨first, parts, rfl⟩ := List.exists_cons_of_ne_nil hne
  have hfirst := h first (List.mem_cons_self ..)
  cases parts with
  | nil => rwa [String.intercalate_singleton]
  | cons second parts =>
    rw [String.intercalate_cons_cons, String.toList_append, String.toList_append, List.append_assoc]
    exact hfirst.append _

/-- What is written of some items on lines of their own is read back, if each item is read back in
front of a delimiter. -/
theorem readRun_intercalate {α : Type} {closing : Char} {item : Reader α} {text : α → String}
    (hspace : isSpace closing = false) (hcomma : closing ≠ ',') (level outer : Nat)
    (rest : List Char) {items : List α}
    (hitem : ∀ a ∈ items, Opens (text a).toList ∧ ∀ rest, Delimited rest →
      item ((text a).toList ++ rest) = .ok (a, rest))
    (hne : items ≠ []) {n : Nat} (hn : items.length ≤ n) :
    readRun closing item n ((("," ++ newline level).intercalate (items.map text)).toList ++
      ((newline outer).toList ++ closing :: rest)) = .ok (items, rest) := by
  induction items generalizing n with
  | nil => exact absurd rfl hne
  | cons first items ih =>
    obtain ⟨n, rfl⟩ : ∃ m, n = m + 1 := Nat.exists_eq_add_of_le' (Nat.le_trans (by simp) hn)
    obtain ⟨-, hfirst⟩ := hitem first (List.mem_cons_self ..)
    have hitems := fun a ha => hitem a (List.mem_cons_of_mem _ ha)
    by_cases hlast : items = []
    · have hclose : skipSpaces (closing :: rest) = closing :: rest :=
        List.dropWhile_cons_of_neg (by simp [hspace])
      rw [hlast, List.map_cons, List.map_nil, String.intercalate_singleton, readRun,
        hfirst _ (delimited_newline outer _)]
      simp only [bind, Except.bind, skipSpaces_newline, hclose, if_pos]
      rfl
    · have hparts : items.map text ≠ [] := by simpa using hlast
      have hrest := ih hitems hlast (Nat.le_of_succ_le_succ hn)
      have hopens := (opens_intercalate ("," ++ newline level) hparts (by
        intro part hpart
        obtain ⟨a, ha, rfl⟩ := List.mem_map.1 hpart
        exact (hitems a ha).1)).append ((newline outer).toList ++ closing :: rest)
      rw [List.map_cons, String.intercalate_cons_of_ne_nil hparts]
      simp only [String.toList_append, List.append_assoc]
      generalize (("," ++ newline level).intercalate (items.map text)).toList ++
        ((newline outer).toList ++ closing :: rest) = later at hrest hopens ⊢
      have hskip : skipSpaces (",".toList ++ ((newline level).toList ++ later)) =
          ',' :: ((newline level).toList ++ later) := List.dropWhile_cons_of_neg (by decide)
      rw [readRun, hfirst _ (by intro c hc; exact .inl (by simpa using hc.symm))]
      simp only [bind, Except.bind, hskip, if_neg hcomma.symm, if_pos, skipSpaces_newline,
        hopens.skipSpaces_eq, hrest]
      rfl

theorem length_le_intercalate (sep : String) {s : String} {parts : List String} (h : s ∈ parts) :
    s.toList.length ≤ (sep.intercalate parts).toList.length := by
  induction parts with
  | nil => cases h
  | cons first parts ih =>
    cases parts with
    | nil =>
      rw [String.intercalate_singleton, List.mem_singleton.1 h]
    | cons second parts =>
      rw [String.intercalate_cons_cons]
      simp only [String.toList_append, List.length_append]
      rcases List.mem_cons.1 h with rfl | h
      · omega
      · have := ih h
        omega

theorem length_parts_le_intercalate {sep : String} (hsep : 0 < sep.toList.length)
    (parts : List String) :
    parts.length ≤ (sep.intercalate parts).toList.length + 1 := by
  induction parts with
  | nil => simp
  | cons first parts ih =>
    cases parts with
    | nil => simp
    | cons second parts =>
      rw [String.intercalate_cons_cons]
      simp only [String.toList_append, List.length_append, List.length_cons] at ih ⊢
      omega

theorem writeItems_eq_map (level : Nat) (items : List Json) :
    writeItems level items = items.map (write level) := by
  induction items with
  | nil => rfl
  | cons item items ih => rw [writeItems, ih, List.map_cons]

/-- The text of one member. -/
def writeMember (level : Nat) (member : String × Json) : String :=
  textLiteral member.1 ++ ": " ++ write level member.2

theorem writeMembers_eq_map (level : Nat) (members : List (String × Json)) :
    writeMembers level members = members.map (writeMember level) := by
  induction members with
  | nil => rfl
  | cons member members ih => rw [writeMembers, ih, List.map_cons, writeMember]

theorem setMember_of_not_mem {name : String} (value : Json) (h : name ∉ members.map Prod.fst) :
    setMember name value members = members ++ [(name, value)] := by
  induction members with
  | nil => rfl
  | cons member members ih =>
    rw [List.map_cons, List.mem_cons, not_or] at h
    rw [setMember, if_neg (Ne.symm h.1), ih h.2, List.cons_append]

/-- Members with distinct names stay as they are. -/
theorem foldl_setMember {later kept : List (String × Json)}
    (hnodup : ((kept ++ later).map Prod.fst).Nodup) :
    later.foldl (fun kept (name, value) => setMember name value kept) kept = kept ++ later := by
  induction later generalizing kept with
  | nil => simp
  | cons member later ih =>
    obtain ⟨name, value⟩ := member
    have hnot : name ∉ kept.map Prod.fst := by
      rw [List.map_append, List.map_cons] at hnodup
      intro hmem
      exact (List.nodup_append.1 hnodup).2.2 _ hmem _ (List.mem_cons_self ..) rfl
    have hnext := @ih (kept ++ [(name, value)]) (by rwa [List.append_assoc, List.singleton_append])
    rw [List.append_assoc, List.singleton_append] at hnext
    simpa only [List.foldl_cons, setMember_of_not_mem value hnot] using hnext

theorem dedup_of_nodup (h : (members.map Prod.fst).Nodup) :
    dedup members = members :=
  @foldl_setMember members [] h

/-! ## Data that a file can hold -/

/-- A datum that a file can hold and that is nested less deeply than a number of levels. -/
inductive Storable : Nat → Json → Prop
  | scalar {room : Nat} {s : Scalar} (h : s.Storable) : Storable (room + 1) (.scalar s)
  | list {room : Nat} {items : List Json} (h : ∀ item ∈ items, Storable room item) :
    Storable (room + 1) (.list items)
  | object {room : Nat} {members : List (String × Json)} (hnames : (members.map Prod.fst).Nodup)
    (h : ∀ member ∈ members, Storable room member.2) : Storable (room + 1) (.object members)

/-- A member is read back if its value is. -/
theorem readMember_writeMember {room n level : Nat} {member : String × Json}
    (hn : (writeMember level member).toList.length ≤ n)
    (h : (write level member.2).toList.length ≤ n → Opens (write level member.2).toList ∧
      ∀ rest, Delimited rest →
        readValue half n room ((write level member.2).toList ++ rest) = .ok (member.2, rest)) :
    Opens (writeMember level member).toList ∧ ∀ rest, Delimited rest →
      readMember half n (readValue half n room) ((writeMember level member).toList ++ rest) =
        .ok (member, rest) := by
  have htext : (writeMember level member).toList = (textLiteral member.1).toList ++
      (':' :: (" ".toList ++ (write level member.2).toList)) := by
    simp [writeMember]
  have hname := length_lt_textLiteral member.1
  rw [htext] at hn ⊢
  simp only [List.length_append, List.length_cons] at hn
  obtain ⟨hopens, hvalue⟩ := h (by omega)
  constructor
  · obtain ⟨cs, hcs⟩ := exists_textLiteral_eq member.1
    rw [hcs]
    exact ⟨'"', _, rfl, by decide⟩
  · intro rest hrest
    have hcolon : skipSpaces (':' :: (" ".toList ++ ((write level member.2).toList ++ rest))) =
        ':' :: (" ".toList ++ ((write level member.2).toList ++ rest)) :=
      List.dropWhile_cons_of_neg (by decide)
    have hblank : skipSpaces (" ".toList ++ ((write level member.2).toList ++ rest)) =
        (write level member.2).toList ++ rest := by
      have hspace : ∀ c ∈ " ".toList, isSpace c = true := List.forall_mem_singleton.2 rfl
      rw [skipSpaces, List.dropWhile_append_of_pos hspace]
      exact (hopens.append rest).skipSpaces_eq
    rw [List.append_assoc, List.cons_append, List.append_assoc, readMember,
      readText_textLiteral _ _ (by omega)]
    simp only [bind, Except.bind, hcolon, hblank, hvalue rest hrest]
    rfl

section
variable {opening closing : String} {o c : Char} (hopening : opening.toList = [o])
  (hclosing : closing.toList = [c]) {level : Nat}
include hopening hclosing

theorem bracketed_nil_toList : (bracketed opening closing level []).toList = [o, c] := by
  rw [bracketed, if_pos List.isEmpty_nil, String.toList_append, hopening, hclosing]
  rfl

/-- What is written between brackets on lines of its own. -/
theorem bracketed_toList {parts : List String} (h : parts ≠ []) :
    (bracketed opening closing level parts).toList = o :: ((newline (level + 1)).toList ++
      ((("," ++ newline (level + 1)).intercalate parts).toList ++ ((newline level).toList ++ [c]))) := by
  rw [bracketed, if_neg (by simpa using h)]
  simp [hopening, hclosing]

/-- The parts between brackets are not longer than the whole, and not more than its characters. -/
theorem length_le_bracketed {n : Nat} {parts : List String} (hne : parts ≠ [])
    (h : (bracketed opening closing level parts).toList.length ≤ n) :
    parts.length ≤ n ∧ ∀ part ∈ parts, part.toList.length ≤ n := by
  rw [bracketed_toList hopening hclosing hne] at h
  simp only [List.length_cons, List.length_append] at h
  have hsep : 0 < ("," ++ newline (level + 1)).toList.length := by
    rw [String.toList_append, List.length_append, newline_toList, List.length_cons]
    omega
  have hcount := length_parts_le_intercalate hsep parts
  refine ⟨by omega, fun part hpart => ?_⟩
  have hpart := length_le_intercalate ("," ++ newline (level + 1)) hpart
  omega

/-- Between brackets stands a run of items, if each item is read back in front of a delimiter. -/
theorem exists_run_of_bracketed {α : Type} {item : Reader α} {text : α → String}
    (hspace : isSpace c = false) (hcomma : c ≠ ',') {n : Nat} (rest : List Char)
    {items : List α} (hne : items ≠ [])
    (hn : (bracketed opening closing level (items.map text)).toList.length ≤ n)
    (hitem : ∀ a ∈ items, (text a).toList.length ≤ n → Opens (text a).toList ∧
      ∀ rest, Delimited rest → item ((text a).toList ++ rest) = .ok (a, rest)) :
    ∃ cs, Opens cs ∧ (bracketed opening closing level (items.map text)).toList ++ rest =
      o :: ((newline (level + 1)).toList ++ cs) ∧ readRun c item n cs = .ok (items, rest) := by
  have hparts : items.map text ≠ [] := by simpa using hne
  obtain ⟨hcount, hlength⟩ := length_le_bracketed hopening hclosing hparts hn
  have hitem' := fun a ha => hitem a ha (hlength _ (List.mem_map_of_mem ha))
  have hopens := opens_intercalate ("," ++ newline (level + 1)) hparts (by
    intro part hpart
    obtain ⟨a, ha, rfl⟩ := List.mem_map.1 hpart
    exact (hitem' a ha).1)
  refine ⟨_, hopens.append _, ?_, readRun_intercalate hspace hcomma (level + 1) level rest hitem' hne
    (by simpa using hcount)⟩
  rw [bracketed_toList hopening hclosing hparts]
  simp

end

variable {j : Json} {cs : List Char} {room : Nat}

theorem readValue_list (h : Opens cs) (n room level : Nat) :
    readValue half n (room + 1) ('[' :: ((newline level).toList ++ cs)) =
      (readRun ']' (readValue half n room) n cs).map fun p => (.list p.1, p.2) := by
  rw [readValue, skipSpaces_newline, h.skipSpaces_eq]
  obtain ⟨c, cs, rfl, -, hclose, -⟩ := h
  split
  · next heq => exact absurd (List.cons.inj heq).1 hclose
  · cases readRun ']' (readValue half n room) n (c :: cs) <;> rfl

theorem readValue_object (h : Opens cs) (n room level : Nat) :
    readValue half n (room + 1) ('\x7b' :: ((newline level).toList ++ cs)) =
      (readRun '\x7d' (readMember half n (readValue half n room)) n cs).map fun p =>
        (.object (dedup p.1), p.2) := by
  rw [readValue, skipSpaces_newline, h.skipSpaces_eq]
  obtain ⟨c, cs, rfl, -, -, hclose⟩ := h
  split
  · next heq => exact absurd (List.cons.inj heq).1 hclose
  · cases readRun '\x7d' (readMember half n (readValue half n room)) n (c :: cs) <;> rfl

/-- Data are read back in front of whatever may follow them. -/
theorem readValue_write (h : Storable room j) {level n : Nat} (hn : (write level j).toList.length ≤ n) :
    Opens (write level j).toList ∧ ∀ rest, Delimited rest →
      readValue half n room ((write level j).toList ++ rest) = .ok (j, rest) := by
  induction h generalizing level with
  | @scalar room s h =>
    rw [write] at hn ⊢
    exact readValue_scalar h hn room
  | @list room items h ih =>
    have hopening : "[".toList = ['['] := rfl
    have hclosing : "]".toList = [']'] := rfl
    rw [write, writeItems_eq_map] at hn ⊢
    by_cases hne : items = []
    · rw [hne, List.map_nil, bracketed_nil_toList hopening hclosing]
      exact ⟨⟨'[', [']'], rfl, by decide⟩, fun rest _ => rfl⟩
    · constructor
      · exact ⟨'[', _, bracketed_toList hopening hclosing (by simpa using hne), by decide⟩
      · intro rest _
        obtain ⟨cs, hopens, htext, hrun⟩ := exists_run_of_bracketed hopening hclosing
          (by decide) (by decide) rest hne hn fun item hmem hle => ih item hmem hle
        rw [htext, readValue_list hopens, hrun]
        rfl
  | @object room members hnames h ih =>
    have hopening : "\x7b".toList = ['\x7b'] := rfl
    have hclosing : "\x7d".toList = ['\x7d'] := rfl
    rw [write, writeMembers_eq_map] at hn ⊢
    by_cases hne : members = []
    · rw [hne, List.map_nil, bracketed_nil_toList hopening hclosing]
      exact ⟨⟨'\x7b', ['\x7d'], rfl, by decide⟩, fun rest _ => rfl⟩
    · constructor
      · exact ⟨'\x7b', _, bracketed_toList hopening hclosing (by simpa using hne), by decide⟩
      · intro rest _
        obtain ⟨cs, hopens, htext, hrun⟩ := exists_run_of_bracketed hopening hclosing
          (by decide) (by decide) rest hne hn
          fun member hmem hle => readMember_writeMember hle fun hle => ih member hmem hle
        rw [htext, readValue_object hopens, hrun]
        exact congrArg (fun members => Except.ok (object members, rest)) (dedup_of_nodup hnames)

theorem readWhole_render (h : Storable nestingLimit j) : readWhole half j.render = .ok j := by
  have hlength : (write 0 j).toList.length ≤ j.render.toList.length + 1 := Nat.le_succ _
  obtain ⟨hopens, hread⟩ := readValue_write h hlength
  have hvalue := hread [] nofun
  rw [List.append_nil] at hvalue
  rw [readWhole]
  simp only [render] at hvalue ⊢
  rw [hopens.skipSpaces_eq, hvalue]
  rfl

/-- The text of a file is read back as what it holds. -/
theorem read_render (h : Storable nestingLimit j) : read j.render = .ok j := by
  rw [read, readWhole_render h]
  exact readWhole_render h

/-! ## Line ends -/

theorem return_not_mem_escape (c : Char) : '\r' ∉ escape c := by
  unfold escape
  split
  · decide
  split
  · decide
  split
  · decide
  split
  · decide
  split
  · decide
  split
  · decide
  split
  · decide
  split
  · next h =>
    have hcodes : ∀ k < 0x20, '\r' ∉ ['\\', 'u'] ++ (Text.hex 4 k).toList := by decide
    exact hcodes _ h
  · next hreturn _ _ _ _ => simpa using Ne.symm hreturn

theorem return_not_mem_textLiteral (s : String) : '\r' ∉ (textLiteral s).toList := by
  rw [textLiteral, String.toList_ofList]
  simp [return_not_mem_escape]

theorem return_not_mem_parts {p : Parts} (h : p.Proper) (negative : Bool) :
    '\r' ∉ (if negative then ['-'] else []) ++ p.text := by
  intro hmem
  rcases List.mem_append.1 hmem with hmem | hmem
  · cases negative <;> simp at hmem
  · rcases h.legible.chars hmem with hc | hc <;> exact absurd hc (by decide)

theorem return_not_mem_scalarLiteral {s : Scalar} (hs : s.Storable) :
    '\r' ∉ (scalarLiteral s).toList := by
  cases s with
  | null => decide
  | bool b => cases b <;> decide
  | text s => exact return_not_mem_textLiteral s
  | number k =>
    cases k with
    | int k =>
      obtain ⟨hproper, htext⟩ := exists_int_parts k
      rw [scalarLiteral, htext]
      exact return_not_mem_parts hproper _
    | float x =>
      rw [scalarLiteral, floatLiteral]
      cases hdecode : Binary.decode x with
      | nan => exact absurd hdecode hs
      | infinite negative =>
        dsimp only
        cases negative <;> decide
      | finite negative m q =>
        obtain ⟨p, hproper, -, htext, -⟩ := Decimal.exists_parts hdecode
        dsimp only
        rw [htext]
        exact return_not_mem_parts hproper _

theorem return_not_mem_newline (level : Nat) : '\r' ∉ (newline level).toList := by
  rw [newline_toList]
  simp

theorem return_not_mem_intercalate {sep : String} (hsep : '\r' ∉ sep.toList) {parts : List String}
    (h : ∀ part ∈ parts, '\r' ∉ part.toList) : '\r' ∉ (sep.intercalate parts).toList := by
  induction parts with
  | nil => simp
  | cons first parts ih =>
    have hfirst := h first (List.mem_cons_self ..)
    have hrest := ih fun part hpart => h part (List.mem_cons_of_mem _ hpart)
    cases parts with
    | nil => rwa [String.intercalate_singleton]
    | cons second parts =>
      rw [String.intercalate_cons_cons, String.toList_append, String.toList_append]
      simp only [List.mem_append, not_or]
      exact ⟨⟨hfirst, hsep⟩, hrest⟩

theorem return_not_mem_bracketed {opening closing : String} (hopening : '\r' ∉ opening.toList)
    (hclosing : '\r' ∉ closing.toList) (level : Nat) {parts : List String}
    (h : ∀ part ∈ parts, '\r' ∉ part.toList) :
    '\r' ∉ (bracketed opening closing level parts).toList := by
  have hsep : '\r' ∉ ("," ++ newline (level + 1)).toList := by
    rw [String.toList_append]
    simpa using return_not_mem_newline (level + 1)
  have hparts := return_not_mem_intercalate hsep h
  rw [bracketed]
  split
  · simp [hopening, hclosing]
  · simp only [String.toList_append, List.mem_append, not_or] at hparts ⊢
    exact ⟨⟨⟨⟨hopening, return_not_mem_newline _⟩, hparts⟩, return_not_mem_newline _⟩, hclosing⟩

/-- All line ends of a file are plain ones. -/
theorem return_not_mem_write (h : Storable room j) (level : Nat) :
    '\r' ∉ (write level j).toList := by
  induction h generalizing level with
  | scalar h =>
    rw [write]
    exact return_not_mem_scalarLiteral h
  | @list room items h ih =>
    rw [write, writeItems_eq_map]
    refine return_not_mem_bracketed (by decide) (by decide) level fun part hpart => ?_
    obtain ⟨item, hmem, rfl⟩ := List.mem_map.1 hpart
    exact ih item hmem (level + 1)
  | @object room members hnames h ih =>
    rw [write, writeMembers_eq_map]
    refine return_not_mem_bracketed (by decide) (by decide) level fun part hpart => ?_
    obtain ⟨member, hmem, rfl⟩ := List.mem_map.1 hpart
    have hvalue := ih member hmem (level + 1)
    rw [writeMember]
    simp [return_not_mem_textLiteral, hvalue]

end Json

end Scriptlet
