import Scriptlet.Proofs.LongestMatches

/-!
How a written text is cut into tokens, from its end to its beginning. `Reads` says that a text is
tokens up to its end and that these have a property, and there is one lemma for each thing that can be
put in front of such a text: a blank, a symbol, a keyword, a name, a numeral, a quoted text. Keywords
and names need to know their neighbours, so a text is `Ready` if it may stand behind anything, and it
`Stops` a word if it starts with one of the characters that follow words in written programs.
-/

namespace Scriptlet

namespace Lexer

open Text

/-! ## The ends of words -/

variable {c : Char} {cs : List Char} {p : Char → Bool}

/-- The characters that end words, numerals and operators in written programs. -/
def stoppers : List Char :=
  [' ', '\n', ')', ';', ',', '(']

/-- The text is empty or starts with one of these characters. -/
def Stops (cs : List Char) : Prop :=
  ∀ c ∈ cs.head?, c ∈ stoppers

theorem stops_cons (h : c ∈ stoppers) : Stops (c :: cs) := by
  simpa [Stops] using h

theorem Stops.head_of (h : Stops cs) (hp : stoppers.any p = false) : cs.head?.any p = false := by
  cases cs with
  | nil => rfl
  | cons c rest => exact Bool.eq_false_iff.2 (List.any_eq_false.1 hp c (h c rfl))

theorem Stops.not_word (h : Stops cs) : cs.head?.any isWord = false :=
  h.head_of (by decide)

/-! ## The first rule that matches -/

section
variable {table : KeywordTable} {before : Option Char} {cs text : List Char} {offset : Nat}

/-- What the rules that are not about keywords match. -/
def symbolMatch (before : Option Char) (cs : List Char) : Option (Option TokenType × Nat) :=
  symbolRules.findSome? fun r => (r.matcher before cs).map (r.type, ·)

variable {c quote : Char} {k : Keyword} {spelling : List Char}

theorem keywordRuleOf_eq_none (h : ∀ s ∈ table.spellings k, standsAt before cs s.toList = false) :
    (keywordRuleOf table k).matcher before cs = none := by
  refine Option.eq_none_iff_forall_ne_some.2 fun n hm => ?_
  obtain ⟨s, hs, hstands, -⟩ := spelling_of_keywordRuleOf hm
  rw [h s hs] at hstands
  cases hstands

theorem firstMatch_append (first second : List Rule) (c : Cursor) :
    firstMatch (first ++ second) c = (firstMatch first c).or (firstMatch second c) :=
  List.findSome?_append

/-- Where no keyword stands, the other rules decide. -/
theorem firstMatch_of_no_keyword
    (h : ∀ k, ∀ s ∈ table.spellings k, standsAt before cs s.toList = false) :
    firstMatch (rules table) ⟨before, offset, cs⟩ = symbolMatch before cs := by
  have hkeywords : firstMatch (Keyword.all.map (keywordRuleOf table)) ⟨before, offset, cs⟩ = none := by
    rw [firstMatch, List.findSome?_eq_none_iff, List.forall_mem_map]
    intro k _
    rw [keywordRuleOf_eq_none (h k)]
    rfl
  rw [rules, firstMatch_append, firstMatch_append, hkeywords, Option.or_none, ← firstMatch_append]
  rfl

/-- A keyword stands only where a name could start. -/
theorem standsAt_of_not_start (hs : IsName spelling) (hc : isNameStart c = false) :
    standsAt before (c :: cs) spelling = false := by
  refine Bool.eq_false_iff.2 fun h => ?_
  obtain ⟨d, rest, rfl, hd, -⟩ := hs
  obtain ⟨_, heq⟩ := (standsAt_eq_true h).1
  cases heq
  rw [hc] at hd
  cases hd

theorem firstMatch_of_not_start (hp : table.Proper) (hc : isNameStart c = false) :
    firstMatch (rules table) ⟨before, offset, c :: cs⟩ = symbolMatch before (c :: cs) :=
  firstMatch_of_no_keyword fun _ _ hs => standsAt_of_not_start (hp.isName hs) hc

/-- In front of a word the first rule that matches is that of its kind. -/
theorem firstMatch_keyword (hp : table.Proper) {s : String} (hs : s ∈ table.spellings k)
    (hb : before.any isWord = false) (hcs : cs.head?.any isWord = false) :
    firstMatch (rules table) ⟨before, offset, s.toList ++ cs⟩ =
      some (some (.keyword k), s.toList.length) := by
  have hstands := (standsAt_iff (hp.isName hs) (hp.isName hs) hb hcs).2 rfl
  have hm := keywordRuleOf_of_standsAt hp hs hstands
  refine firstMatch_of_rank hp (mem_rules.2 (.inr ⟨k, rfl⟩)) hm ?_ fun k' n hm' => ?_
  · exact Prod.Lex.toLex_le_toLex.2 (.inl Nat.two_pos)
  · rw [(keyword_unique hp hm' hm).1]

/-- In front of a name the rule of names is the first that matches, if it is no keyword or stands inside a
word. -/
theorem firstMatch_name (hp : table.Proper) (ht : IsName text)
    (hk : before.any isWord = false → ∀ k, String.ofList text ∉ table.spellings k)
    (hcs : cs.head?.any isWord = false) :
    firstMatch (rules table) ⟨before, offset, text ++ cs⟩ =
      some (some .identifier, text.length) := by
  have hm : identifier before (text ++ cs) = some text.length := identifier_append ht hcs
  have hr : ⟨some .identifier, identifier⟩ ∈ rules table :=
    mem_rules.2 (.inl (by simp [symbolRules, otherRules]))
  refine firstMatch_of_rank hp hr hm le_rfl fun k n hm' => ?_
  obtain ⟨s, hs, hstands, -⟩ := spelling_of_keywordRuleOf hm'
  have hb := (neighbours_of_standsAt (hp.isName hs) hstands).1
  have heq := (standsAt_iff (hp.isName hs) ht hb hcs).1 hstands
  exact absurd (by rwa [← heq, String.ofList_toList]) (hk hb k)

/-- Where no name starts, a rule for texts of any length is the first that matches. -/
theorem firstMatch_of_unbounded (hp : table.Proper) {r : Rule} {n : Nat} (hr : r ∈ symbolRules)
    (hrank : rank table r.type = toLex (0, ⊤)) (hc : isNameStart c = false)
    (hm : r.matcher before (c :: cs) = some n) :
    firstMatch (rules table) ⟨before, offset, c :: cs⟩ = some (r.type, n) := by
  refine firstMatch_of_rank hp (mem_rules.2 (.inl hr)) hm hrank.ge fun k n' hm' => ?_
  rw [keywordRuleOf_eq_none fun s hs => standsAt_of_not_start (hp.isName hs) hc] at hm'
  cases hm'

/-- A digit is none of the characters that the other rules ask for. -/
theorem ne_of_isDigit {d : Char} (hc : isDigit c = true) (hd : isDigit d = false) : c ≠ d := by
  rintro rfl
  rw [hc] at hd
  cases hd

/-- A character that would make a numeral longer. -/
def extendsNumeral (c : Char) : Bool :=
  isDigit c || c == '.'

/-- Digits, or digits with a point between them. -/
def IsNumeral (text : List Char) : Prop :=
  ∃ c whole, (∀ d ∈ c :: whole, isDigit d = true) ∧ (text = c :: whole ∨
    ∃ d fraction, (∀ x ∈ d :: fraction, isDigit x = true) ∧ text = c :: whole ++ '.' :: d :: fraction)

/-- What is matched as a numeral is one. -/
theorem isNumeral_of_number {n : Nat} (h : number before cs = some n) : IsNumeral (cs.take n) := by
  obtain ⟨c, whole, rest, hwhole, rfl, hn⟩ := number_eq_some h
  refine ⟨c, whole, fun d hd => List.mem_takeWhile_imp (hwhole ▸ hd), ?_⟩
  rcases hn with rfl | ⟨d, fraction, rest', rfl, hfraction, rfl⟩
  · exact .inl List.take_left
  · have hrest := (List.takeWhile_append_dropWhile (p := isDigit) (l := rest')).symm
    rw [hfraction] at hrest
    refine .inr ⟨d, fraction, fun x hx => List.mem_takeWhile_imp (hfraction ▸ hx), ?_⟩
    rw [hrest, Nat.add_assoc, List.take_length_add_append, Nat.add_comm 1, List.take_succ_cons,
      List.take_left]

/-- A numeral is a numeral in front of any text that does not go on with it. -/
theorem IsNumeral.number_append (h : IsNumeral text) (hcs : cs.head?.any extendsNumeral = false) :
    number before (text ++ cs) = some text.length := by
  obtain ⟨c, whole, hdigits, rfl | ⟨d, fraction, hfraction, rfl⟩⟩ := h
  all_goals
    have hstop : cs.head?.any isDigit = false := by
      cases cs with
      | nil => rfl
      | cons d rest => exact (Bool.or_eq_false_iff.1 hcs).1
  · have htake : (c :: whole ++ cs).takeWhile isDigit = c :: whole :=
      takeWhile_append_stop hdigits hstop
    rw [number, htake, List.drop_left]
    cases cs with
    | nil => rfl
    | cons d rest =>
      have hd : d ≠ '.' := by simpa using (Bool.or_eq_false_iff.1 hcs).2
      simp [hd]
  · have htake : (c :: whole ++ '.' :: d :: fraction ++ cs).takeWhile isDigit = c :: whole := by
      rw [List.append_assoc]
      exact takeWhile_append_stop hdigits (show isDigit '.' = false by decide)
    have htake' : (d :: fraction ++ cs).takeWhile isDigit = d :: fraction :=
      takeWhile_append_stop hfraction hstop
    rw [number, htake, List.append_assoc, List.drop_left]
    simp only [List.cons_append] at htake' ⊢
    simp only [htake']
    simp
    omega

theorem firstMatch_number (hp : table.Proper) (h : IsNumeral text)
    (hcs : cs.head?.any extendsNumeral = false) :
    firstMatch (rules table) ⟨before, offset, text ++ cs⟩ = some (some .number, text.length) := by
  have hmatch : number before (text ++ cs) = some text.length := h.number_append hcs
  obtain ⟨c, whole, hdigits, htext⟩ := h
  have hc : isDigit c = true := hdigits c List.mem_cons_self
  obtain ⟨tail, htail⟩ : ∃ tail, text ++ cs = c :: tail := by
    rcases htext with rfl | ⟨d, fraction, -, rfl⟩
    · exact ⟨_, List.cons_append⟩
    · exact ⟨_, by rw [List.cons_append, List.cons_append]⟩
  rw [htail] at hmatch ⊢
  have hr : ⟨some .number, number⟩ ∈ symbolRules := by simp [symbolRules, otherRules]
  exact firstMatch_of_unbounded hp hr rfl (isNameStart_of_isDigit hc) hmatch

/-- A quoted text is matched up to its second quotation mark. -/
theorem quotedBy_append {body : List Char} (hquote : quote ∉ body) (hline : '\n' ∉ body) :
    quotedBy quote before (quote :: (body ++ quote :: cs)) = some (body.length + 2) := by
  have htake : (body ++ quote :: cs).takeWhile (fun d => d != quote && d != '\n') = body := by
    refine takeWhile_append_stop (fun c hc => ?_) (by simp)
    have hq : c ≠ quote := fun heq => hquote (heq ▸ hc)
    have hl : c ≠ '\n' := fun heq => hline (heq ▸ hc)
    simp [hq, hl]
  simp [quotedBy, htake]

theorem firstMatch_quoted (hp : table.Proper) {body : List Char} (hq : quote = '"' ∨ quote = '\'')
    (hquote : quote ∉ body) (hline : '\n' ∉ body) :
    firstMatch (rules table) ⟨before, offset, quote :: (body ++ quote :: cs)⟩ =
      some (some .string, body.length + 2) := by
  have hr : ⟨some .string, quotedBy quote⟩ ∈ symbolRules := by
    rcases hq with rfl | rfl <;> simp [symbolRules, otherRules]
  have hmatch : quotedBy quote before (quote :: (body ++ quote :: cs)) = some (body.length + 2) :=
    quotedBy_append hquote hline
  exact firstMatch_of_unbounded hp hr rfl (by rcases hq with rfl | rfl <;> decide) hmatch

end

/-! ## Texts that are tokens up to their end -/

/-- Behind the given character, the text is tokens up to its end, and these have a property. -/
def Reads (table : KeywordTable) (before : Option Char) (cs : List Char)
    (P : List Token → Prop) : Prop :=
  ∀ offset, ∃ tokens c, Scans (rules table) ⟨before, offset, cs⟩ tokens c ∧ c.rest = [] ∧ P tokens

/-- The same behind any character. -/
def Ready (table : KeywordTable) (cs : List Char) (P : List Token → Prop) : Prop :=
  ∀ before, Reads table before cs P

section
variable {table : KeywordTable} {before : Option Char} {cs text : List Char} {type : TokenType}
  {P Q : List Token → Prop}

theorem Reads.mono (h : Reads table before cs P) (hPQ : ∀ v, P v → Q v) :
    Reads table before cs Q := by
  intro offset
  obtain ⟨tokens, c, hs, hend, hP⟩ := h offset
  exact ⟨tokens, c, hs, hend, hPQ tokens hP⟩

theorem Ready.mono (h : Ready table cs P) (hPQ : ∀ v, P v → Q v) : Ready table cs Q :=
  fun before => (h before).mono hPQ

theorem ready_nil (h : P []) : Ready table [] P :=
  fun _ _ => ⟨[], _, .stop _, rfl, h⟩

variable {offset : Nat} {c b : Char} {s : String}

theorem Cursor.advance_append (before : Option Char) (hne : text ≠ []) :
    (⟨before, offset, text ++ cs⟩ : Cursor).advance text.length =
      ⟨text.getLast?, offset + text.length, cs⟩ := by
  obtain ⟨c, hc⟩ := Option.isSome_iff_exists.1 (List.getLast?_isSome.2 hne)
  simp [Cursor.advance, hc]

/-- A token in front of a text, by the rule that matches it first. -/
theorem reads_token (hne : text ≠ [])
    (hm : ∀ offset, firstMatch (rules table) ⟨before, offset, text ++ cs⟩ =
      some (some type, text.length))
    (h : Reads table text.getLast? cs fun v =>
      ∀ t : Token, t.type = type → t.text = String.ofList text → P (t :: v)) :
    Reads table before (text ++ cs) P := by
  intro offset
  obtain ⟨tokens, c, hs, hend, hP⟩ := h (offset + text.length)
  rw [← Cursor.advance_append before hne] at hs
  refine ⟨_, c, .token (List.length_pos_iff.2 hne) (hm offset) hs, hend, hP _ rfl ?_⟩
  simp [Cursor.token]

/-- A symbol that is matched whatever comes behind it, given what is known of the text there. -/
theorem ready_symbol (hp : table.Proper) {rest : List Char} (hc : isNameStart c = false)
    (hm : ∀ before, symbolMatch before (c :: rest ++ cs) = some (some type, (c :: rest).length))
    (h : Reads table (c :: rest).getLast? cs fun v =>
      ∀ t : Token, t.type = type → t.text = String.ofList (c :: rest) → P (t :: v)) :
    Ready table (c :: rest ++ cs) P :=
  fun before => reads_token (by simp)
    (fun _ => (firstMatch_of_not_start hp hc).trans (hm before)) h

/-- One character that is a token whatever comes behind it. -/
theorem ready_mark (hp : table.Proper) (hc : isNameStart c = false)
    (hm : ∀ before, symbolMatch before (c :: cs) = some (some type, 1))
    (h : Reads table (some c) cs fun v => ∀ t : Token, t.type = type → P (t :: v)) :
    Ready table (c :: cs) P :=
  fun before => reads_token (List.cons_ne_nil c [])
    (fun _ => (firstMatch_of_not_start hp hc).trans (hm before)) (h.mono fun _ hv t ht _ => hv t ht)

theorem reads_keyword (hp : table.Proper) {k : Keyword} (hs : s ∈ table.spellings k)
    (hb : before.any isWord = false) (hcs : Stops cs)
    (h : Ready table cs fun v => ∀ t : Token, t.type = .keyword k → P (t :: v)) :
    Reads table before (s.toList ++ cs) P :=
  reads_token (hp.isName hs).ne_nil (fun _ => firstMatch_keyword hp hs hb hcs.not_word)
    ((h _).mono fun _ hv t ht _ => hv t ht)

theorem reads_name (hp : table.Proper) {name : String} (hname : IsName name.toList)
    (hk : ∀ k, name ∉ table.spellings k) (hcs : Stops cs)
    (h : Ready table cs fun v =>
      ∀ t : Token, t.type = .identifier → t.text = name → P (t :: v)) :
    Reads table before (name.toList ++ cs) P := by
  refine reads_token hname.ne_nil (fun _ => firstMatch_name hp hname (fun _ => ?_) hcs.not_word)
    ((h _).mono fun _ hv t ht htext => hv t ht ?_)
  · rwa [String.ofList_toList]
  · rwa [String.ofList_toList] at htext

theorem ready_number (hp : table.Proper) (hs : number none s.toList = some s.toList.length) (hcs : Stops cs)
    (h : Ready table cs fun v => ∀ t : Token, t.type = .number → t.text = s → P (t :: v)) :
    Ready table (s.toList ++ cs) P := by
  have hnumeral : IsNumeral s.toList := by simpa using isNumeral_of_number hs
  refine fun before => reads_token ?_
    (fun _ => firstMatch_number hp hnumeral (hcs.head_of (by decide)))
    ((h _).mono fun _ hv t ht htext => hv t ht ?_)
  · intro hnil
    simp [hnil, number] at hs
  · rwa [String.ofList_toList] at htext

theorem ready_quoted (hp : table.Proper) {quote : Char} {body : List Char}
    (hq : quote = '"' ∨ quote = '\'') (hquote : quote ∉ body) (hline : '\n' ∉ body)
    (h : Ready table cs fun v => ∀ t : Token, t.type = .string →
      t.text = String.ofList (quote :: (body ++ [quote])) → P (t :: v)) :
    Ready table (quote :: (body ++ quote :: cs)) P := by
  intro before
  have hm : ∀ offset, firstMatch (rules table)
      ⟨before, offset, quote :: (body ++ [quote]) ++ cs⟩ =
        some (some .string, (quote :: (body ++ [quote])).length) := by
    intro offset
    have hmatch : firstMatch (rules table) ⟨before, offset, quote :: (body ++ quote :: cs)⟩ = _ :=
      firstMatch_quoted hp hq hquote hline
    rw [List.cons_append, List.append_assoc]
    simpa using hmatch
  have hreads := reads_token (P := P) (by simp) hm (h _)
  rwa [List.cons_append, List.append_assoc] at hreads

theorem firstMatch_blank (hb : isBlank b = true) :
    firstMatch (rules table) ⟨before, offset, b :: cs⟩ =
      some (none, (cs.takeWhile isBlank).length + 1) := by
  simp [firstMatch, rules, droppedRules, run, hb]

/-- A blank in front of a text. Blanks are dropped as long runs, so one more only makes a run that the
text may start with longer. -/
theorem ready_blank (hb : isBlank b = true) (h : Reads table (some b) cs P) :
    Ready table (b :: cs) P := by
  intro before offset
  obtain ⟨tokens, c, hs, hend, hP⟩ := h (offset + 1)
  refine ⟨tokens, c, .drop (firstMatch_blank hb) ?_, hend, hP⟩
  cases cs with
  | nil => exact hs
  | cons d rest =>
    by_cases hd : isBlank d = true
    · cases hs with
      | stop => cases hend
      | token _ hm _ =>
        rw [firstMatch_blank hd] at hm
        cases hm
      | drop hm hs =>
        rw [firstMatch_blank hd] at hm
        cases hm
        have hlen : ((d :: rest).takeWhile isBlank).length =
            (rest.takeWhile isBlank).length + 1 := by
          simp [hd]
        have hadvance : (⟨before, offset, b :: d :: rest⟩ : Cursor).advance
            (((d :: rest).takeWhile isBlank).length + 1) =
              (⟨some b, offset + 1, d :: rest⟩ : Cursor).advance
                ((rest.takeWhile isBlank).length + 1) := by
          simp [Cursor.advance, hlen, List.getLast?_cons, Nat.add_comm, Nat.add_left_comm]
        rwa [hadvance]
    · have hlen : ((d :: rest).takeWhile isBlank).length = 0 := by simp [hd]
      rw [hlen]
      exact hs

/-- Spaces in front of a text. -/
theorem reads_spaces (n : Nat) (hb : before.any isWord = false)
    (h : ∀ before : Option Char, before.any isWord = false → Reads table before cs P) :
    Reads table before (List.replicate n ' ' ++ cs) P := by
  induction n generalizing before with
  | zero => exact h before hb
  | succ n ih => exact ready_blank (by decide) (ih (by decide)) before

/-- The text may be written in front of any text that stops words, and its tokens have a property. Its
first character is no blank, and does not make another operator of one that stands before it. -/
structure Writes (table : KeywordTable) (text : List Char) (Q : List Token → Prop) : Prop where
  opens : ∃ c rest, text = c :: rest ∧ isBlank c = false ∧ c ≠ '='
  reads {before : Option Char} {cs : List Char} {P : List Token → Prop} :
    before.any isWord = false → Stops cs → Ready table cs (fun v => ∀ u, Q u → P (u ++ v)) →
      Reads table before (text ++ cs) P

theorem Writes.mono (h : Writes table text P) (hPQ : ∀ u, P u → Q u) : Writes table text Q where
  opens := h.opens
  reads hb hcs hready := h.reads hb hcs (hready.mono fun _ hv u hu => hv u (hPQ u hu))

theorem Writes.opens_append (h : Writes table text Q) (more : List Char) :
    ∃ c rest, text ++ more = c :: rest ∧ isBlank c = false ∧ c ≠ '=' := by
  obtain ⟨c, rest, heq, hc⟩ := h.opens
  exact ⟨c, rest ++ more, by rw [heq]; rfl, hc⟩

end

/-! ## Keywords that are read as names

A keyword is only found where a word starts, and inside a word the rule of names comes first. The only
token that can leave the next one inside a word is a numeral.
-/

/-- The place has word characters on both sides. -/
def Cursor.Inside (c : Cursor) : Prop :=
  c.before.any isWord = true ∧ c.rest.head?.any isWord = true

theorem isWord_of_isBlank {c : Char} (h : isBlank c = true) : isWord c = false := by
  obtain ⟨r, hr, hlow, hhigh⟩ := isBlank_toNat h
  by_cases hc : c.toNat < 128
  · have hranges : ∀ r ∈ blankRanges, r.2 ≤ 32 ∨ 128 ≤ r.1 := by decide
    have hsmall : c.toNat ≤ 32 := by
      have := hranges r hr
      omega
    have hplain : ∀ n ≤ 32, isWord (Char.ofNat n) = false := by decide
    rw [← Char.ofNat_toNat c]
    exact hplain c.toNat hsmall
  · have hranges : ∀ r ∈ blankRanges, ∀ w ∈ wordRanges, r.2 < w.1 ∨ w.2 < r.1 := by decide +kernel
    rw [isWord, if_neg hc, Ranges.has, List.any_eq_false]
    intro w hw
    have := hranges r hr w hw
    simp only [Bool.and_eq_true, decide_eq_true_eq]
    omega

section
variable {table : KeywordTable} {c c' : Cursor} {n : Nat} {tokens : List Token}

theorem head?_dropWhile {p : Char → Bool} (cs : List Char) : (cs.dropWhile p).head?.any p = false := by
  induction cs with
  | nil => rfl
  | cons d rest ih =>
    rw [List.dropWhile_cons]
    split
    · exact ih
    · rename_i hd
      simpa using hd

variable {k : Keyword} {cs : List Char}

/-- A block comment is read up to its first end mark. -/
theorem exists_of_commentEnd (h : commentEnd cs = some n) :
    ∃ body, cs.take n = body ++ ['*', '/'] ∧ ¬ ['*', '/'] <:+: body := by
  fun_induction commentEnd cs generalizing n with
  | case1 => cases h
  | case2 rest =>
    cases h
    exact ⟨[], rfl, by simp⟩
  | case3 d rest hmark ih =>
    obtain ⟨m, hm, rfl⟩ := Option.map_eq_some_iff.1 h
    obtain ⟨body, hbody, hnone⟩ := ih hm
    refine ⟨d :: body, by rw [List.take_succ_cons, hbody, List.cons_append], fun hinfix => ?_⟩
    rcases List.infix_cons_iff.1 hinfix with hprefix | hinfix
    · -- The mark would stand right at the front, where the function has looked for it.
      obtain ⟨tail, heq⟩ := hprefix
      cases heq
      have hrest : rest = '/' :: (tail ++ ['*', '/'] ++ rest.drop m) := by
        conv => lhs; rw [← List.take_append_drop m rest, hbody]
        rfl
      exact hmark _ rfl hrest
    · exact hnone hinfix

/-- The first end mark ends a block comment. -/
theorem commentEnd_append {body : List Char} (hbody : ¬ ['*', '/'] <:+: body) :
    commentEnd (body ++ '*' :: '/' :: cs) = some (body.length + 2) := by
  induction body with
  | nil => rfl
  | cons c body ih =>
    have hrest : ¬ ['*', '/'] <:+: body := fun h => hbody (h.trans (List.suffix_cons c body).isInfix)
    have hnext : ∀ tail, c = '*' → body ++ '*' :: '/' :: cs ≠ '/' :: tail := by
      rintro tail rfl heq
      cases body with
      | nil => cases heq
      | cons d body =>
        cases heq
        exact hbody ⟨[], body, rfl⟩
    rw [List.cons_append, commentEnd.eq_3 _ _ hnext, ih hrest]
    rfl

/-- What is dropped does not end inside a word. -/
theorem not_inside_of_dropped (h : firstMatch (rules table) c = some (none, n)) :
    ¬ (c.advance n).Inside := by
  rintro ⟨hbefore, hafter⟩
  obtain ⟨r, hr, ht, hm⟩ := exists_rule_of_firstMatch h
  have hmem := (rule_of_type hr).1 ht
  simp only [droppedRules, List.mem_cons, List.not_mem_nil, or_false] at hmem
  rcases hmem with rfl | rfl | rfl
  · obtain ⟨hpos, rfl⟩ := run_eq_some (show run isBlank c.before c.rest = some n from hm)
    have htake : c.rest.take (c.rest.takeWhile isBlank).length = c.rest.takeWhile isBlank :=
      (List.prefix_iff_eq_take.1 (List.takeWhile_prefix _)).symm
    obtain ⟨d, hd⟩ := Option.isSome_iff_exists.1
      (List.getLast?_isSome.2 (List.length_pos_iff.1 hpos))
    simp only [Cursor.advance, htake, hd, Option.some_or, Option.any_some] at hbefore
    rw [isWord_of_isBlank (List.mem_takeWhile_imp (List.mem_of_getLast? hd))] at hbefore
    cases hbefore
  · change lineComment _ _ = _ at hm
    unfold lineComment at hm
    split at hm
    · rename_i rest heq
      cases hm
      rw [Cursor.advance, heq, Nat.add_comm, List.drop_succ_cons, List.drop_succ_cons,
        drop_length_takeWhile] at hafter
      cases hrest : rest.dropWhile (· != '\n') with
      | nil =>
        rw [hrest] at hafter
        cases hafter
      | cons d rest' =>
        have hd := head?_dropWhile (p := (· != '\n')) rest
        rw [hrest] at hafter hd
        obtain rfl : d = '\n' := by simpa using hd
        exact absurd (show isWord '\n' = true from hafter) (by decide)
    · cases hm
  · change blockComment _ _ = _ at hm
    unfold blockComment at hm
    split at hm
    · rename_i rest heq
      obtain ⟨m, hend, rfl⟩ := Option.map_eq_some_iff.1 hm
      obtain ⟨body, htake, -⟩ := exists_of_commentEnd hend
      rw [Cursor.advance, heq, List.take_succ_cons, List.take_succ_cons, htake, List.getLast?_cons,
        List.getLast?_cons, List.getLast?_append_cons] at hbefore
      exact absurd (show isWord '/' = true from hbefore) (by decide)
    · cases hm

/-- Symbols and quoted texts do not end in word characters. -/
theorem Shape.getLast? {text : List Char} {type : TokenType} (h : Shape table text type)
    (hk : ∀ k, type ≠ .keyword k) (hn : type ≠ .number) (hi : type ≠ .identifier) :
    text.getLast?.any isWord = false := by
  have hoperator : ∀ s ∈ type.operators, s.toList.getLast?.any isWord = false := by
    cases type with
    | keyword => nofun
    | _ => decide
  cases type with
  | keyword k => exact absurd rfl (hk k)
  | number => exact absurd rfl hn
  | identifier => exact absurd rfl hi
  | endOfInput => exact h.elim
  | semi | curlyStart | curlyEnd | parenStart | parenEnd | comma =>
    rw [show text = _ from h]
    decide
  | string =>
    obtain ⟨quote, body, hq, rfl, -⟩ := h
    rw [List.getLast?_cons, List.getLast?_append]
    rcases hq with rfl | rfl
    · exact (by decide : isWord '"' = false)
    · exact (by decide : isWord '\'' = false)
  | equality | simpleAssignment | complexAssignment | additive | multiplicative | relational
  | logicalAnd | logicalOr | logicalNot =>
    simpa using hoperator _ h

/-- The only rules that make keywords are those of keywords. -/
theorem keyword_of_firstMatch (h : firstMatch (rules table) c = some (some (.keyword k), n)) :
    ∃ s ∈ table.spellings k, standsAt c.before c.rest s.toList = true ∧ n = s.toList.length := by
  obtain ⟨r, hr, ht, hm⟩ := exists_rule_of_firstMatch h
  obtain rfl := (rule_of_type hr).2.1 k ht
  exact spelling_of_keywordRuleOf hm

/-- A token of the type of names is all of the word from its place on. -/
theorem identifier_of_firstMatch (h : firstMatch (rules table) c = some (some .identifier, n)) :
    IsName (c.rest.take n) ∧ (c.rest.drop n).head?.any isWord = false := by
  refine ⟨shape_of_firstMatch h, ?_⟩
  obtain ⟨r, hr, ht, hm⟩ := exists_rule_of_firstMatch h
  rw [(rule_of_type hr).2.2.1 ht] at hm
  obtain ⟨d, rest, heq, -, rfl⟩ := identifier_eq_some hm
  rw [heq, Nat.add_comm, List.drop_succ_cons, drop_length_takeWhile]
  exact head?_dropWhile rest

/-- Only numerals end inside a word. -/
theorem not_inside_of_token {type : TokenType} (hn : 0 < n)
    (h : firstMatch (rules table) c = some (some type, n)) (htype : type ≠ .number) :
    ¬ (c.advance n).Inside := by
  rintro ⟨hbefore, hafter⟩
  have hshort := (rules_progress table).short h
  obtain ⟨last, hlast⟩ : ∃ d, (c.rest.take n).getLast? = some d := by
    refine Option.isSome_iff_exists.1 (List.getLast?_isSome.2 fun hnil => ?_)
    rcases List.take_eq_nil_iff.1 hnil with rfl | hnil
    · omega
    · rw [hnil, List.length_nil] at hshort
      omega
  by_cases hk : ∃ k, type = .keyword k
  · obtain ⟨k, rfl⟩ := hk
    obtain ⟨s, hs, hstands, rfl⟩ := keyword_of_firstMatch h
    obtain ⟨hbegins, -, hboundary⟩ := standsAt_eq_true hstands
    have hword : (s.toList.getLast?.or c.before).any isWord = true := by
      rw [List.prefix_iff_eq_take.1 hbegins]
      exact hbefore
    have hnext : ((c.rest.drop s.toList.length).head?).any isWord = true := hafter
    rw [isBoundary, hword, hnext] at hboundary
    cases hboundary
  · by_cases hi : type = .identifier
    · subst hi
      have hnext := (identifier_of_firstMatch h).2
      rw [Cursor.advance_rest, hnext] at hafter
      cases hafter
    · have hword := (shape_of_firstMatch h).getLast? (fun k hk' => hk ⟨k, hk'⟩) htype hi
      rw [Cursor.advance, hlast] at hbefore
      rw [hlast, show Option.any isWord (some last) = true from hbefore] at hword
      cases hword

/-- If a name is spelled like a keyword, it stands inside a word. -/
theorem inside_of_identifier (hp : table.Proper) (h : firstMatch (rules table) c = some (some .identifier, n))
    (hk : String.ofList (c.rest.take n) ∈ table.spellings k) : c.Inside := by
  obtain ⟨hname, hnext⟩ := identifier_of_firstMatch h
  have hrest : (String.ofList (c.rest.take n)).toList ++ c.rest.drop n = c.rest := by
    rw [String.toList_ofList, List.take_append_drop]
  refine ⟨?_, ?_⟩
  · refine Bool.of_not_eq_false fun hb => ?_
    have hm : firstMatch (rules table) ⟨c.before, c.offset, _⟩ = some (some (.keyword k), _) :=
      firstMatch_keyword hp hk hb hnext
    rw [hrest] at hm
    exact nomatch hm.symm.trans h
  · obtain ⟨d, tail, heq, hd, -⟩ := hname
    rw [← List.take_append_drop n c.rest, heq]
    exact isWord_of_isNameStart hd

/-- A name that is spelled like a keyword is the first token and stands inside a word, or it comes
right behind a numeral. -/
theorem Scans.clash (hp : table.Proper) (h : Scans (rules table) c tokens c') {t : Token} {x y : List Token}
    (heq : tokens = x ++ t :: y) (ht : t.type = .identifier) (hk : t.text ∈ table.spellings k) :
    x = [] ∧ c.Inside ∨ ∃ a, x.getLast? = some a ∧ a.type = .number := by
  induction h generalizing x with
  | stop => simp at heq
  | drop hm _ ih =>
    rcases ih heq with ⟨-, hinside⟩ | hnumber
    · exact absurd hinside (not_inside_of_dropped hm)
    · exact .inr hnumber
  | @token c c' tokens type n hn hm _ ih =>
    cases x with
    | nil =>
      cases heq
      obtain rfl : type = .identifier := ht
      exact .inl ⟨rfl, inside_of_identifier hp hm hk⟩
    | cons a x =>
      injection heq with ha heq
      subst ha
      refine .inr ?_
      rcases ih heq with ⟨rfl, hinside⟩ | ⟨b, hb, htype⟩
      · refine ⟨_, rfl, Decidable.byContradiction fun htype => ?_⟩
        exact not_inside_of_token hn hm htype hinside
      · refine ⟨b, ?_, htype⟩
        rw [List.getLast?_cons, hb]
        rfl

end

end Lexer

end Scriptlet
