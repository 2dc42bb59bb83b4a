import Scriptlet.Proofs.TokenCover

/-!
What the pattern of a keyword matches. Patterns are given their meaning by a reader of their text and by
the places where a match may end, in the order in which they are tried (`Pattern.ends`): of several
alternatives the first one that lets the rest match is taken. For the pattern of any spellings that is the
longest spelling that stands at the place as a word, and the keyword's rule finds the same.
-/

namespace Scriptlet

open Text Lexer

inductive Pattern where
  | nothing
  | letter (c : Char)
  | boundary
  | both (first second : Pattern)
  | either (first second : Pattern)

namespace Pattern

/-- The places where a match that starts at a place may end, in the order in which they are tried. -/
def ends (source : List Char) : Pattern → Nat → List Nat
  | nothing, p => [p]
  | letter c, p => if source[p]? = some c then [p + 1] else []
  | boundary, p => if isBoundary (source.take p).getLast? source[p]? then [p] else []
  | both first second, p => (first.ends source p).flatMap (second.ends source)
  | either first second, p => first.ends source p ++ second.ends source p

/-- Where the match at a place ends. -/
def stop? (source : List Char) (pattern : Pattern) (p : Nat) : Option Nat :=
  (pattern.ends source p).head?

/-- A group that is being read: the alternatives in front of the last one, and the last one so far. -/
structure Group where
  done : Option Pattern
  last : Pattern

namespace Group

def start : Group := ⟨none, .nothing⟩

def add (g : Group) (pattern : Pattern) : Group := ⟨g.done, .both g.last pattern⟩

def close (g : Group) : Pattern := g.done.elim g.last (.either · g.last)

def addWord (g : Group) (word : List Char) : Group := word.foldl (fun g c => g.add (.letter c)) g

end Group

/-- Reads what is left of a pattern inside of the open groups, the innermost one first. A character with a
meaning of its own stands for itself only behind a backslash. -/
def readFrom : Group → List Group → List Char → Option Pattern
  | g, [], [] => some g.close
  | _, _ :: _, [] => none
  | g, outer, '\\' :: 'b' :: rest => readFrom (g.add .boundary) outer rest
  | g, outer, '\\' :: c :: rest =>
    if c ∈ Keyword.special then readFrom (g.add (.letter c)) outer rest else none
  | g, outer, '(' :: '?' :: ':' :: rest => readFrom .start (g :: outer) rest
  | g, o :: outer, ')' :: rest => readFrom (o.add g.close) outer rest
  | g, outer, '|' :: rest => readFrom ⟨some g.close, .nothing⟩ outer rest
  | g, outer, c :: rest =>
    if c ∈ Keyword.special then none else readFrom (g.add (.letter c)) outer rest

def read (text : String) : Option Pattern := readFrom .start [] text.toList

/-! ## Words in a pattern -/

/-- The end of a word that stands at a place. -/
def wordEnds (source : List Char) (p : Nat) (word : List Char) : List Nat :=
  if word.isPrefixOf (source.drop p) then [p + word.length] else []

section
variable {source : List Char} {g : Group} {outer : List Group} {rest : List Char}

theorem wordEnds_cons (c : Char) (word : List Char) (p : Nat) :
    wordEnds source p (c :: word) =
      (ends source (.letter c) p).flatMap fun q => wordEnds source q word := by
  rw [ends, wordEnds]
  by_cases hc : source[p]? = some c
  · obtain ⟨h, rfl⟩ := List.getElem?_eq_some_iff.1 hc
    rw [if_pos hc, List.drop_eq_getElem_cons h, List.isPrefixOf_cons_cons, beq_self_eq_true, Bool.true_and,
      List.flatMap_singleton, wordEnds, List.length_cons, Nat.add_right_comm]
    rfl
  · rw [if_neg hc, List.flatMap_nil, if_neg]
    intro hword
    obtain ⟨tail, htail⟩ := List.isPrefixOf_iff_prefix.1 hword
    refine hc ?_
    rw [← List.head?_drop, ← htail]
    rfl

/-- A word is matched behind what was read in front of it. -/
theorem ends_addWord (word : List Char) (p : Nat) :
    (g.addWord word).last.ends source p = (g.last.ends source p).flatMap fun q => wordEnds source q word := by
  induction word generalizing g with
  | nil => simp [Group.addWord, wordEnds]
  | cons c word ih =>
    have hstep : (g.addWord (c :: word)) = (g.add (.letter c)).addWord word := rfl
    rw [hstep, ih, Group.add, ends, List.flatMap_assoc]
    exact List.flatMap_congr fun q _ => (wordEnds_cons c word q).symm

theorem done_addWord (word : List Char) : (g.addWord word).done = g.done := by
  induction word generalizing g with
  | nil => rfl
  | cons c word ih => exact ih

/-- What is escaped is read as the word itself. -/
theorem readFrom_escape (word : String) :
    readFrom g outer ((Keyword.escape word).toList ++ rest) =
      readFrom (g.addWord word.toList) outer rest := by
  rw [Keyword.escape, String.toList_ofList]
  generalize word.toList = cs
  induction cs generalizing g with
  | nil => rfl
  | cons c cs ih =>
    rw [List.flatMap_cons]
    by_cases hc : c ∈ Keyword.special
    · have hb : c ≠ 'b' := by
        rintro rfl
        exact absurd hc (by decide)
      rw [if_pos hc, List.append_assoc, List.cons_append, List.cons_append, List.nil_append, readFrom,
        if_pos hc, ih]
      · rfl
      · exact hb
    · have hplain : c ≠ '\\' ∧ c ≠ '(' ∧ c ≠ ')' ∧ c ≠ '|' := by
        refine ⟨?_, ?_, ?_, ?_⟩ <;> rintro rfl <;> exact hc (by decide)
      rw [if_neg hc, List.append_assoc, List.cons_append, List.nil_append, readFrom, if_neg hc, ih]
      · rfl
      all_goals simp [hplain]

theorem readFrom_bar :
    readFrom g outer ('|' :: rest) = readFrom ⟨some g.close, .nothing⟩ outer rest := by
  cases outer <;> rw [readFrom]

/-- The alternatives of a group are tried in front of those that are read next. -/
theorem readFrom_words (words : List String) (hne : words ≠ []) (hg : g.last = .nothing) :
    ∃ g', readFrom g outer (("|".intercalate (words.map Keyword.escape)).toList ++ rest) =
        readFrom g' outer rest ∧
      ∀ source p, g'.close.ends source p =
        g.done.elim [] (ends source · p) ++ words.flatMap (wordEnds source p ·.toList) := by
  induction words generalizing g with
  | nil => exact absurd rfl hne
  | cons word words ih =>
    -- With the word, the group has one more alternative.
    have hclose : ∀ source p, (g.addWord word.toList).close.ends source p =
        g.done.elim [] (ends source · p) ++ wordEnds source p word.toList := by
      intro source p
      have hlast : (g.addWord word.toList).last.ends source p = _ := ends_addWord word.toList p
      rw [hg, ends, List.flatMap_singleton] at hlast
      rw [Group.close, done_addWord]
      cases g.done with
      | none => exact hlast
      | some done => exact congrArg (done.ends source p ++ ·) hlast
    cases words with
    | nil =>
      refine ⟨_, ?_, fun source p => by rw [hclose, List.flatMap_singleton]⟩
      rw [List.map_singleton, String.intercalate_singleton, readFrom_escape]
    | cons next words =>
      obtain ⟨g', hread, hends⟩ := ih (g := ⟨some (g.addWord word.toList).close, .nothing⟩)
        (List.cons_ne_nil _ _) rfl
      refine ⟨g', ?_, fun source p => ?_⟩
      · rw [List.map_cons, List.map_cons, String.intercalate_cons_cons, String.toList_append,
          String.toList_append, List.append_assoc, List.append_assoc, readFrom_escape, ← hread]
        exact readFrom_bar
      · simp only [hends, Option.elim_some, hclose, List.flatMap_cons, List.append_assoc]

end

/-! ## The longest spelling -/

/-- A spelling stands at a place as a word. -/
def Occurs (source : List Char) (p : Nat) (word : List Char) : Prop :=
  word <+: source.drop p ∧ isBoundary (source.take p).getLast? source[p]? = true ∧
    isBoundary (source.take (p + word.length)).getLast? source[p + word.length]? = true

section
variable {source : List Char} {p : Nat}

theorem standsAt_iff_occurs {word : List Char} :
    standsAt (Cursor.at source p).before (Cursor.at source p).rest word = true ↔ Occurs source p word := by
  rw [Cursor.at, standsAt, Bool.and_eq_true, Bool.and_eq_true, List.isPrefixOf_iff_prefix, and_assoc]
  refine and_congr_right fun hprefix => ?_
  rw [List.take_add, ← List.prefix_iff_eq_take.1 hprefix, List.getLast?_append, List.head?_drop,
    List.drop_drop, List.head?_drop]

/-- The second boundary is tried for one word after the other, and the first word that it holds for
decides. -/
theorem stop?_between {inner : Pattern} {words : List (List Char)}
    (hinner : ∀ q, inner.ends source q = words.flatMap (wordEnds source q)) :
    stop? source (.both (.both (.both .nothing .boundary) inner) .boundary) p =
      (words.find? (standsAt (Cursor.at source p).before (Cursor.at source p).rest)).map (p + ·.length) := by
  simp only [stop?, ends, List.flatMap_singleton]
  by_cases hinside : isBoundary (source.take p).getLast? source[p]? = true
  · rw [if_pos hinside, List.flatMap_singleton, hinner]
    clear hinner
    induction words with
    | nil => rfl
    | cons word words ih =>
      rw [List.flatMap_cons, List.flatMap_append, List.head?_append, ih, List.find?_cons]
      by_cases hword : Occurs source p word
      · rw [standsAt_iff_occurs.2 hword, wordEnds, if_pos (List.isPrefixOf_iff_prefix.2 hword.1),
          List.flatMap_singleton, if_pos hword.2.2]
        rfl
      · rw [Bool.eq_false_iff.2 (standsAt_iff_occurs.not.2 hword), wordEnds]
        split
        · rename_i hprefix
          rw [List.flatMap_singleton, if_neg]
          · rfl
          · exact fun hend => hword ⟨List.isPrefixOf_iff_prefix.1 hprefix, hinside, hend⟩
        · rfl
  · rw [if_neg hinside, List.find?_eq_none.2]
    · rfl
    · exact fun word _ hword => hinside (standsAt_iff_occurs.1 hword).2.1

theorem pairwise_insertByLength {s : String} {list : List String}
    (h : list.Pairwise fun s t => t.length ≤ s.length) :
    (Keyword.insertByLength s list).Pairwise fun s t => t.length ≤ s.length := by
  induction list with
  | nil => exact List.pairwise_singleton _ _
  | cons t list ih =>
    obtain ⟨ht, hlist⟩ := List.pairwise_cons.1 h
    rw [Keyword.insertByLength]
    split
    · rename_i hle
      refine List.pairwise_cons.2 ⟨fun u hu => ?_, ih hlist⟩
      rcases mem_insertByLength.1 hu with rfl | hu
      · exact hle
      · exact ht u hu
    · rename_i hlt
      refine List.pairwise_cons.2 ⟨fun u hu => ?_, h⟩
      rcases List.mem_cons.1 hu with rfl | hu
      · exact Nat.le_of_not_le hlt
      · exact Nat.le_trans (ht u hu) (Nat.le_of_not_le hlt)

theorem pairwise_longestFirst (list : List String) :
    (Keyword.longestFirst list).Pairwise fun s t => t.length ≤ s.length :=
  List.foldlRecOn list _ List.Pairwise.nil fun _ h _ _ => pairwise_insertByLength h

/-- Among the longest spellings first, the first one that occurs is the longest one. -/
theorem le_of_find?_longestFirst {spellings : List String} {s t : String} {q : String → Bool}
    (h : (Keyword.longestFirst spellings).find? q = some s) (ht : t ∈ spellings) (hq : q t = true) :
    t.length ≤ s.length := by
  obtain ⟨-, before, after, hsplit, hbefore⟩ := List.find?_eq_some_iff_append.1 h
  have hsorted := pairwise_longestFirst spellings
  rw [hsplit] at hsorted
  have hmem := mem_longestFirst.2 ht
  rw [hsplit] at hmem
  rcases List.mem_append.1 hmem with hmem | hmem
  · exact absurd hq (by simpa using hbefore t hmem)
  · rcases List.mem_cons.1 hmem with rfl | hmem
    · exact Nat.le_refl _
    · exact (List.pairwise_cons.1 (List.pairwise_append.1 hsorted).2.1).1 t hmem

theorem read_pattern {spellings : List String} (hne : spellings ≠ []) :
    ∃ inner, read (Keyword.pattern spellings) =
        some (.both (.both (.both .nothing .boundary) inner) .boundary) ∧
      ∀ source q, inner.ends source q =
        ((Keyword.longestFirst spellings).map String.toList).flatMap (wordEnds source q) := by
  have hsorted : Keyword.longestFirst spellings ≠ [] := by
    obtain ⟨s, hs⟩ := List.exists_mem_of_ne_nil _ hne
    exact List.ne_nil_of_mem (mem_longestFirst.2 hs)
  obtain ⟨g, hread, hends⟩ := @readFrom_words .start [Group.start.add .boundary]
    ")\\b".toList _ hsorted rfl
  refine ⟨g.close, ?_, fun source q => by rw [hends, List.flatMap_map]; rfl⟩
  rw [read, Keyword.pattern, String.toList_append, String.toList_append, List.append_assoc]
  exact hread

/-- The pattern of some spellings matches where one of them occurs, and it matches the longest one that
does; so does the rule of a keyword with these spellings. -/
theorem stop_longest (spellings : List String) (hne : spellings ≠ []) :
    ∃ pattern, read (Keyword.pattern spellings) = some pattern ∧ ∀ (source : List Char) (p : Nat),
      ((pattern.stop? source p).isSome ↔ ∃ s ∈ spellings, Occurs source p s.toList) ∧
      (∀ q, pattern.stop? source p = some q → ∃ s ∈ spellings, Occurs source p s.toList ∧
        slice source p q = s.toList ∧
        ∀ t ∈ spellings, Occurs source p t.toList → t.length ≤ s.length) ∧
      ∀ k, (keywordRule k ((Keyword.longestFirst spellings).map String.toList)).matcher
        (Cursor.at source p).before (Cursor.at source p).rest = (pattern.stop? source p).map (· - p) := by
  obtain ⟨inner, hread, hinner⟩ := read_pattern hne
  refine ⟨_, hread, fun source p => ⟨?_, fun q hq => ?_, fun k => ?_⟩⟩
  · rw [stop?_between (hinner source), Option.isSome_map, List.find?_isSome]
    simp only [List.mem_map, exists_exists_and_eq_and, standsAt_iff_occurs, mem_longestFirst]
  · rw [stop?_between (hinner source), List.find?_map] at hq
    obtain ⟨_, hmap, rfl⟩ := Option.map_eq_some_iff.1 hq
    obtain ⟨s, hfind, rfl⟩ := Option.map_eq_some_iff.1 hmap
    have hstands := List.find?_some hfind
    have hs := standsAt_iff_occurs.1 hstands
    refine ⟨s, mem_longestFirst.1 (List.mem_of_find?_eq_some hfind), hs, ?_, fun t ht hocc => ?_⟩
    · rw [slice_eq_take, ← List.prefix_iff_eq_take.1 hs.1]
    · exact le_of_find?_longestFirst hfind ht (standsAt_iff_occurs.2 hocc)
  · rw [stop?_between (hinner source), Option.map_map]
    refine congrArg (Option.map · _) (funext fun s => ?_)
    exact (Nat.add_sub_cancel_left p s.length).symm

/-- Of two spellings with one in front of the other, the longer one is matched where it ends as a word, and
the shorter one where only that does. -/
theorem stop_longest_dashed :
    ∃ pattern, read (Keyword.pattern ["if", "if-not"]) = some pattern ∧
      pattern.stop? "if-not x".toList 0 = some 6 ∧ pattern.stop? "if-nots".toList 0 = some 2 := by
  obtain ⟨pattern, hread, hmatch⟩ := stop_longest ["if", "if-not"] (by decide)
  refine ⟨pattern, hread, ?_, ?_⟩
  · simpa using ((hmatch "if-not x".toList 0).2.2 .kwIf).symm.trans (by decide : _ = some 6)
  · simpa using ((hmatch "if-nots".toList 0).2.2 .kwIf).symm.trans (by decide : _ = some 2)

end

end Pattern

end Scriptlet
