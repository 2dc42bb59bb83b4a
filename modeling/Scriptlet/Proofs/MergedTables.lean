import Mathlib.Data.List.Nodup
import Scriptlet.Keyword

/-!
Joining keyword tables. The result lists every spelling of the tables once, under the kind of its first
occurrence, and each kind has its spellings in the order of their first occurrences.

What a merge does with a list of spellings is decided by the first occurrences among them alone: for each
kind, by the list of those that belong to it. A merged table goes through the kinds one by one, so it lists
spellings in another order than its parts did, but it has the same list for each kind. So it can take the
place of its parts in any further merge, in front of other tables or behind them.
-/

namespace Scriptlet

theorem Keyword.ofName?_name (k : Keyword) : Keyword.ofName? k.name = some k := by
  cases k <;> decide

theorem Keyword.name_of_ofName? {name : String} {k : Keyword} (h : Keyword.ofName? name = some k) :
    k.name = name := by
  simpa using List.find?_some h

namespace KeywordTable

/-! ## Occurrences of spellings -/

/-- Whether all entries are for kinds of keywords. -/
def Known (table : KeywordTable) : Prop :=
  ∀ entry ∈ table.entries, ∃ k : Keyword, k.name = entry.1

/-- The spellings of an entry, each with its kind. -/
def entryOccurrences (entry : String × List String) : List (Keyword × String) :=
  (Keyword.ofName? entry.1).elim [] fun k => entry.2.map (k, ·)

/-- The spellings of tables, each with its kind, in the order in which they are written. -/
def occurrences (tables : List KeywordTable) : List (Keyword × String) :=
  (tables.flatMap (·.entries)).flatMap entryOccurrences

/-- The number of occurrences in front of the first one of a spelling. -/
def firstPlace (tables : List KeywordTable) (s : String) : Nat :=
  (occurrences tables).findIdx fun o => o.2 = s

/-- The kind of the first occurrence of a spelling. -/
def firstKind? (tables : List KeywordTable) (s : String) : Option Keyword :=
  ((occurrences tables).find? fun o => o.2 = s).map Prod.fst

/-- The first name of an entry that is not the name of a kind. -/
def unknown? (tables : List KeywordTable) : Option String :=
  ((tables.flatMap (·.entries)).find? fun entry => (Keyword.ofName? entry.1).isNone).map Prod.fst

/-- A table lists the spellings of other tables without loss and without duplicates. -/
structure Collects (table : KeywordTable) (tables : List KeywordTable) : Prop where
  /-- There is one entry for each kind. -/
  kinds : table.entries.map Prod.fst = Keyword.all.map Keyword.name
  /-- A spelling of the tables is listed once, and no other is listed. -/
  once (s : String) : (table.entries.flatMap Prod.snd).count s =
    if s ∈ (occurrences tables).map Prod.snd then 1 else 0
  /-- Its kind is that of its first occurrence. -/
  kind (k : Keyword) (s : String) : s ∈ table.spellings k ↔ firstKind? tables s = some k
  /-- Each kind has its spellings in the order of their first occurrences. -/
  order (k : Keyword) :
    (table.spellings k).Pairwise fun s t => firstPlace tables s < firstPlace tables t

theorem occurrences_append (xs ys : List KeywordTable) :
    occurrences (xs ++ ys) = occurrences xs ++ occurrences ys := by
  simp only [occurrences, List.flatMap_append]

theorem unknown?_append (xs ys : List KeywordTable) :
    unknown? (xs ++ ys) = (unknown? xs).or (unknown? ys) := by
  simp only [unknown?, List.flatMap_append, List.find?_append, Option.map_or]

theorem unknown?_eq_none_iff (tables : List KeywordTable) :
    unknown? tables = none ↔ ∀ t ∈ tables, t.Known := by
  have hentry (name : String) : (Keyword.ofName? name).isNone = false ↔ ∃ k : Keyword, k.name = name := by
    constructor
    · intro h
      obtain ⟨k, hk⟩ := Option.isSome_iff_exists.1 (Option.isNone_eq_false_iff.1 h)
      exact ⟨k, Keyword.name_of_ofName? hk⟩
    · rintro ⟨k, rfl⟩
      rw [Keyword.ofName?_name, Option.isNone_some]
  simp only [unknown?, Option.map_eq_none_iff, List.find?_eq_none, List.mem_flatMap, Bool.not_eq_true,
    hentry, Known]
  constructor
  · intro h t ht entry he
    exact h entry ⟨t, ht, he⟩
  · rintro h entry ⟨t, ht, he⟩
    exact h t ht entry he

/-! ## First occurrences -/

/-- Of the occurrences of each spelling only the first. -/
def firsts : List (Keyword × String) → List (Keyword × String)
  | [] => []
  | o :: rest => o :: (firsts rest).filter fun p => p.2 ≠ o.2

theorem mem_firsts {list : List (Keyword × String)} {o : Keyword × String} :
    o ∈ firsts list ↔ list.find? (fun p => p.2 = o.2) = some o := by
  induction list with
  | nil => simp [firsts]
  | cons p rest ih =>
    rw [firsts, List.mem_cons, List.mem_filter, ih, List.find?_cons]
    by_cases hp : p.2 = o.2
    · simp [hp, eq_comm]
    · have hne : o ≠ p := fun h => hp (congrArg Prod.snd h.symm)
      simp [hp, hne, Ne.symm hp]

variable {s : String} {m : Merge} {r : KeywordTable} {k : Keyword} {xs ys : List (Keyword × String)}

theorem mem_map_firsts {list : List (Keyword × String)} :
    s ∈ (firsts list).map Prod.snd ↔ s ∈ list.map Prod.snd := by
  induction list with
  | nil => rfl
  | cons p rest ih =>
    rw [firsts, List.map_cons, List.map_cons, List.mem_cons, List.mem_cons, ← ih]
    by_cases hs : s = p.2 <;> simp [hs]

theorem firsts_pairwise (list : List (Keyword × String)) :
    (firsts list).Pairwise fun o p => o.2 ≠ p.2 := by
  induction list with
  | nil => exact .nil
  | cons o rest ih =>
    refine List.pairwise_cons.2 ⟨fun p hp => ?_, ih.filter _⟩
    exact (of_decide_eq_true (List.mem_filter.1 hp).2).symm

theorem firsts_of_pairwise {list : List (Keyword × String)} (h : list.Pairwise fun o p => o.2 ≠ p.2) :
    firsts list = list := by
  induction list with
  | nil => rfl
  | cons o rest ih =>
    obtain ⟨ho, hrest⟩ := List.pairwise_cons.1 h
    rw [firsts, ih hrest, List.filter_eq_self.2 fun p hp => decide_eq_true (ho p hp).symm]

theorem firsts_ordered (list : List (Keyword × String)) : (firsts list).Pairwise fun o p =>
    list.findIdx (fun q => q.2 = o.2) < list.findIdx (fun q => q.2 = p.2) := by
  induction list with
  | nil => exact .nil
  | cons o rest ih =>
    -- a spelling other than the first has its place in the rest, one further on
    have hplace {p : Keyword × String} (hp : p ∈ (firsts rest).filter fun p => p.2 ≠ o.2) :
        (o :: rest).findIdx (fun q => q.2 = p.2) = rest.findIdx (fun q => q.2 = p.2) + 1 := by
      have hne : o.2 ≠ p.2 := (of_decide_eq_true (List.mem_filter.1 hp).2).symm
      simp [List.findIdx_cons, hne]
    refine List.pairwise_cons.2 ⟨fun p hp => ?_, ?_⟩
    · rw [hplace hp]
      simp [List.findIdx_cons]
    · refine (ih.filter _).imp_of_mem fun {p q} hp hq hpq => ?_
      rw [hplace hp, hplace hq]
      exact Nat.succ_lt_succ hpq

/-! ## Merging occurrences -/

/-- Adds spellings one after the other. -/
def Merge.addAll (m : Merge) (list : List (Keyword × String)) : Merge :=
  list.foldl (fun m o => m.add o.1 o.2) m

theorem Merge.addAll_append (m : Merge) (xs ys : List (Keyword × String)) :
    m.addAll (xs ++ ys) = (m.addAll xs).addAll ys :=
  List.foldl_append

theorem Merge.mem_seen_addAll {list : List (Keyword × String)} :
    s ∈ (m.addAll list).seen ↔ s ∈ m.seen ∨ s ∈ list.map Prod.snd := by
  induction list generalizing m with
  | nil => simp [addAll]
  | cons o rest ih =>
    rw [addAll, List.foldl_cons, ← addAll, ih, List.map_cons, List.mem_cons, add]
    split
    · rename_i ho
      constructor
      · tauto
      · rintro (h | rfl | h)
        exacts [.inl h, .inl ho, .inr h]
    · rw [List.mem_cons]
      tauto

/-- A kind gets those first occurrences of its spellings that are not taken. -/
theorem Merge.chosen_addAll (m : Merge) (list : List (Keyword × String)) (k : Keyword) :
    (m.addAll list).chosen k =
      m.chosen k ++ ((firsts list).filter fun o => o.1 = k ∧ o.2 ∉ m.seen).map Prod.snd := by
  induction list generalizing m with
  | nil => simp [addAll, firsts]
  | cons o rest ih =>
    rw [addAll, List.foldl_cons, ← addAll, ih, firsts, List.filter_cons, List.filter_filter, add]
    split
    · rename_i ho
      rw [if_neg (by simp [ho])]
      congr 2
      refine List.filter_congr fun p _ => ?_
      have hne (hp : p.2 ∉ m.seen) : p.2 ≠ o.2 := fun h => hp (h ▸ ho)
      by_cases hp : p.2 ∈ m.seen <;> simp [hp, hne]
    · rename_i ho
      have hfilter : ((firsts rest).filter fun p => p.1 = k ∧ p.2 ∉ o.2 :: m.seen) =
          (firsts rest).filter fun p => decide (p.1 = k ∧ p.2 ∉ m.seen) && decide (p.2 ≠ o.2) :=
        List.filter_congr fun p _ => by
          by_cases hp : p.2 = o.2 <;> simp [hp]
      rw [hfilter]
      by_cases hk : o.1 = k
      · simp [hk, ho]
      · simp [hk, Ne.symm hk]

/-- Entries are added up to the first one for no kind. -/
theorem Merge.foldlM_addEntry (m : Merge) (entries : List (String × List String)) :
    entries.foldlM addEntry m =
      (entries.find? fun entry => (Keyword.ofName? entry.1).isNone).elim
        (.ok (m.addAll (entries.flatMap entryOccurrences))) fun entry => .error entry.1 := by
  induction entries generalizing m with
  | nil => rfl
  | cons entry rest ih =>
    rw [List.foldlM_cons, List.find?_cons, List.flatMap_cons, addAll_append, addEntry, entryOccurrences]
    cases hk : Keyword.ofName? entry.1 with
    | none => rfl
    | some k =>
      have hadd : entry.2.foldl (fun m s => m.add k s) m = m.addAll (entry.2.map (k, ·)) := by
        rw [addAll, List.foldl_map]
      rw [Option.elim_some, ← hadd]
      exact ih _

theorem merge_eq (tables : List KeywordTable) :
    merge tables = (unknown? tables).elim
      (.ok (ofKinds (Merge.addAll {} (occurrences tables)).chosen)) .error := by
  rw [merge, Merge.foldlM_addEntry, unknown?, occurrences]
  cases (tables.flatMap (·.entries)).find? fun entry => (Keyword.ofName? entry.1).isNone <;> rfl

theorem merge_eq_ok_iff {tables : List KeywordTable} :
    merge tables = .ok r ↔
      unknown? tables = none ∧ ofKinds (Merge.addAll {} (occurrences tables)).chosen = r := by
  rw [merge_eq]
  cases unknown? tables <;> simp

/-! ## The merged table -/

theorem spellings_ofKinds (f : Keyword → List String) (k : Keyword) : (ofKinds f).spellings k = f k := by
  cases k <;> rfl

theorem entries_ofKinds (f : Keyword → List String) :
    (ofKinds f).entries.map Prod.fst = Keyword.all.map Keyword.name ∧
      (ofKinds f).entries.flatMap Prod.snd = Keyword.all.flatMap f := by
  simp [ofKinds, List.flatMap_map, Function.comp_def]

theorem unknown?_ofKinds (f : Keyword → List String) : unknown? [ofKinds f] = none := by
  rw [unknown?_eq_none_iff]
  intro t ht entry he
  rw [List.mem_singleton.1 ht] at he
  obtain ⟨k, -, rfl⟩ := List.mem_map.1 he
  exact ⟨k, rfl⟩

theorem occurrences_ofKinds (f : Keyword → List String) :
    occurrences [ofKinds f] = Keyword.all.flatMap fun k => (f k).map (k, ·) := by
  simp [occurrences, ofKinds, List.flatMap_map, entryOccurrences, Keyword.ofName?_name]

/-- What a merge gives to a kind. -/
theorem chosen_addAll_empty (list : List (Keyword × String)) (k : Keyword) :
    (Merge.addAll {} list).chosen k = ((firsts list).filter fun o => o.1 = k).map Prod.snd := by
  simp [Merge.chosen_addAll]

theorem mem_chosen {list : List (Keyword × String)} :
    s ∈ (Merge.addAll {} list).chosen k ↔ list.find? (fun o => o.2 = s) = some (k, s) := by
  rw [chosen_addAll_empty, List.mem_map]
  constructor
  · rintro ⟨⟨k', s'⟩, ho, rfl⟩
    rw [List.mem_filter, decide_eq_true_eq] at ho
    obtain ⟨ho, rfl⟩ := ho
    exact mem_firsts.1 ho
  · intro h
    refine ⟨(k, s), List.mem_filter.2 ⟨mem_firsts.2 h, by simp⟩, rfl⟩

theorem nodup_chosen (list : List (Keyword × String)) :
    (Keyword.all.flatMap (Merge.addAll {} list).chosen).Nodup := by
  refine List.nodup_flatMap.2 ⟨fun k _ => ?_, ?_⟩
  · rw [chosen_addAll_empty]
    exact List.pairwise_map.2 ((firsts_pairwise list).filter _)
  · refine (by decide : Keyword.all.Nodup).imp fun {k k'} hne s hs hs' => hne ?_
    have := (mem_chosen.1 hs).symm.trans (mem_chosen.1 hs')
    simpa using this

theorem firstKind?_eq_some_iff {tables : List KeywordTable} :
    firstKind? tables s = some k ↔ (occurrences tables).find? (fun o => o.2 = s) = some (k, s) := by
  rw [firstKind?, Option.map_eq_some_iff]
  constructor
  · rintro ⟨⟨k', s'⟩, ho, rfl⟩
    have hs : s' = s := by simpa using List.find?_some ho
    rw [ho, hs]
  · intro h
    exact ⟨(k, s), h, rfl⟩

theorem collects_ofKinds (tables : List KeywordTable) :
    (ofKinds (Merge.addAll {} (occurrences tables)).chosen).Collects tables where
  kinds := (entries_ofKinds _).1
  once s := by
    have hmem : s ∈ Keyword.all.flatMap (Merge.addAll {} (occurrences tables)).chosen ↔
        s ∈ (occurrences tables).map Prod.snd := by
      rw [← mem_map_firsts, List.mem_flatMap]
      constructor
      · rintro ⟨k, -, hs⟩
        exact List.mem_map.2 ⟨(k, s), mem_firsts.2 (mem_chosen.1 hs), rfl⟩
      · rintro hs
        obtain ⟨⟨k, s⟩, ho, rfl⟩ := List.mem_map.1 hs
        exact ⟨k, k.mem_all, mem_chosen.2 (mem_firsts.1 ho)⟩
    rw [(entries_ofKinds _).2, (nodup_chosen _).count]
    simp only [hmem]
  kind k s := by
    rw [spellings_ofKinds, mem_chosen, firstKind?_eq_some_iff]
  order k := by
    rw [spellings_ofKinds, chosen_addAll_empty]
    exact List.pairwise_map.2 ((firsts_ordered _).filter _)

/-! ## Merging merged tables -/

/-- The same first occurrences for each kind. -/
def SameFirsts (xs ys : List (Keyword × String)) : Prop :=
  ∀ k, ((firsts xs).filter fun o => o.1 = k) = (firsts ys).filter fun o => o.1 = k

theorem SameFirsts.mem_iff (h : SameFirsts xs ys) (s : String) :
    s ∈ xs.map Prod.snd ↔ s ∈ ys.map Prod.snd := by
  have hmem (list : List (Keyword × String)) : s ∈ list.map Prod.snd ↔
      ∃ k, s ∈ ((firsts list).filter fun o => o.1 = k).map Prod.snd := by
    rw [← mem_map_firsts]
    simp
  rw [hmem, hmem]
  exact exists_congr fun k => by rw [h k]

/-- Two merges in progress that go on alike: what is taken may be listed in different orders. -/
structure Merge.Alike (m m' : Merge) : Prop where
  chosen : m.chosen = m'.chosen
  seen (s : String) : s ∈ m.seen ↔ s ∈ m'.seen

theorem Merge.Alike.refl (m : Merge) : m.Alike m :=
  ⟨rfl, fun _ => Iff.rfl⟩

theorem Merge.Alike.addAll {m' : Merge} (h : m.Alike m') (hlists : SameFirsts xs ys) :
    (m.addAll xs).Alike (m'.addAll ys) where
  chosen := by
    funext k
    have hfilter (list : List (Keyword × String)) (m : Merge) :
        ((firsts list).filter fun o => o.1 = k ∧ o.2 ∉ m.seen) =
          ((firsts list).filter fun o => o.1 = k).filter fun o => o.2 ∉ m.seen := by
      rw [List.filter_filter]
      exact List.filter_congr fun o _ => by rw [Bool.decide_and, Bool.and_comm]
    rw [chosen_addAll, chosen_addAll, h.chosen, hfilter, hfilter, hlists k]
    simp only [h.seen]
  seen s := by
    rw [mem_seen_addAll, mem_seen_addAll, h.seen, hlists.mem_iff]

/-- A merged table has the first occurrences of its parts, kind by kind. -/
theorem sameFirsts_ofKinds (list : List (Keyword × String)) :
    SameFirsts (occurrences [ofKinds (Merge.addAll {} list).chosen]) list := by
  have hkind (k : Keyword) : ((Merge.addAll {} list).chosen k).map (k, ·) =
      (firsts list).filter fun o => o.1 = k := by
    rw [chosen_addAll_empty, List.map_map]
    refine (List.map_congr_left fun o ho => ?_).trans (List.map_id _)
    have hk : o.1 = k := of_decide_eq_true (List.mem_filter.1 ho).2
    rw [Function.comp_apply, ← hk]
    rfl
  have hdistinct : (occurrences [ofKinds (Merge.addAll {} list).chosen]).Pairwise
      fun o p => o.2 ≠ p.2 := by
    have hspellings : (occurrences [ofKinds (Merge.addAll {} list).chosen]).map Prod.snd =
        Keyword.all.flatMap (Merge.addAll {} list).chosen := by
      simp [occurrences_ofKinds, List.map_flatMap, Function.comp_def]
    exact List.pairwise_map.1 (hspellings ▸ nodup_chosen list)
  intro k
  have hone (x : List (Keyword × String)) : (Keyword.all.flatMap fun j => if j = k then x else []) = x := by
    cases k <;> simp [Keyword.all]
  rw [firsts_of_pairwise hdistinct, occurrences_ofKinds, List.filter_flatMap]
  refine Eq.trans (List.flatMap_congr fun j _ => ?_) (hone _)
  rw [hkind, List.filter_filter]
  split
  · rename_i hj
    simp [hj]
  · rename_i hj
    refine List.filter_eq_nil_iff.2 fun o _ ho => hj ?_
    simp only [Bool.and_eq_true, decide_eq_true_eq] at ho
    exact ho.2.symm.trans ho.1

/-- Tables may be merged before they are merged with others. -/
theorem merge_merged {ys : List KeywordTable} (h : merge ys = .ok r) (xs zs : List KeywordTable) :
    merge (xs ++ ([r] ++ zs)) = merge (xs ++ (ys ++ zs)) := by
  obtain ⟨hknown, rfl⟩ := merge_eq_ok_iff.1 h
  have halike : (Merge.addAll {} (occurrences
        (xs ++ ([ofKinds (Merge.addAll {} (occurrences ys)).chosen] ++ zs)))).Alike
      (Merge.addAll {} (occurrences (xs ++ (ys ++ zs)))) := by
    simp only [occurrences_append, Merge.addAll_append]
    exact ((Merge.Alike.refl _).addAll (sameFirsts_ofKinds _)).addAll fun _ => rfl
  rw [merge_eq, merge_eq, halike.chosen]
  simp only [unknown?_append, unknown?_ofKinds, hknown]

/-- Merging tables with themselves adds nothing. -/
theorem merge_append_self (tables : List KeywordTable) : merge (tables ++ tables) = merge tables := by
  have hchosen : (Merge.addAll {} (occurrences (tables ++ tables))).chosen =
      (Merge.addAll {} (occurrences tables)).chosen := by
    funext k
    rw [occurrences_append, Merge.addAll_append, Merge.chosen_addAll]
    refine List.append_right_eq_self.2 (List.map_eq_nil_iff.2 (List.filter_eq_nil_iff.2 fun o ho hnew => ?_))
    have hseen := Merge.mem_seen_addAll (m := {}).2 (.inr (mem_map_firsts.1 (List.mem_map_of_mem ho)))
    exact (of_decide_eq_true hnew).2 hseen
  rw [merge_eq, merge_eq, unknown?_append, Option.or_self, hchosen]

/-- Merging fails exactly if some entry is for no kind, and names the first such entry. Tables with
entries for kinds only are merged into one that lists each of their spellings once, under the kind of its first
occurrence, in the order of the first occurrences. Merging is associative, and merging a table with itself
is merging it alone. -/
theorem merge_collects (tables : List KeywordTable) (a b c : KeywordTable) :
    ((∃ name, merge tables = .error name) ↔ ∃ t ∈ tables, ¬t.Known) ∧
    (∀ name, merge tables = .error name ↔ unknown? tables = some name) ∧
    ((∀ t ∈ tables, t.Known) → ∃ r, merge tables = .ok r ∧ r.Collects tables) ∧
    (a.Known → b.Known → c.Known → ∃ ab bc abc, merge [a, b] = .ok ab ∧ merge [b, c] = .ok bc ∧
      merge [a, b, c] = .ok abc ∧ merge [ab, c] = .ok abc ∧ merge [a, bc] = .ok abc) ∧
    merge [a, a] = merge [a] := by
  have hok (list : List KeywordTable) (h : ∀ t ∈ list, t.Known) :
      merge list = .ok (ofKinds (Merge.addAll {} (occurrences list)).chosen) :=
    merge_eq_ok_iff.2 ⟨(unknown?_eq_none_iff list).2 h, rfl⟩
  have herror (name : String) : merge tables = .error name ↔ unknown? tables = some name := by
    rw [merge_eq]
    cases unknown? tables <;> simp
  refine ⟨?_, herror, fun h => ⟨_, hok tables h, collects_ofKinds tables⟩, fun ha hb hc => ?_, ?_⟩
  · simp only [herror, ← Option.isSome_iff_exists, Option.isSome_iff_ne_none, ne_eq,
      unknown?_eq_none_iff, not_forall, exists_prop]
  · have hab := hok [a, b] (by simp [ha, hb])
    have hbc := hok [b, c] (by simp [hb, hc])
    have habc := hok [a, b, c] (by simp [ha, hb, hc])
    exact ⟨_, _, _, hab, hbc, habc, (merge_merged hab [] [c]).trans habc,
      (merge_merged hbc [a] []).trans habc⟩
  · exact merge_append_self [a]

/-- Three tables that share spellings across kinds and list the kinds in different orders. -/
theorem merge_collects_shared_spellings :
    let a : KeywordTable := ⟨[("IF", ["when", "case"]), ("LET", ["var"])]⟩
    let b : KeywordTable := ⟨[("LET", ["case", "fix"]), ("IF", ["var", "given"])]⟩
    let c : KeywordTable := ⟨[("ELSE", ["given", "other"]), ("IF", ["fix", "should"])]⟩
    (∀ t ∈ [a, b, c], t.Known) ∧
    ∃ ab bc abc, abc.Collects [a, b, c] ∧ merge [a, b] = .ok ab ∧ merge [b, c] = .ok bc ∧
      merge [ab, c] = .ok abc ∧ merge [a, bc] = .ok abc ∧
      abc.spellings .kwLet = ["var", "fix"] ∧ abc.spellings .kwIf = ["when", "case", "given", "should"] ∧
      abc.spellings .kwElse = ["other"] := by
  intro a b c
  have hknown := (unknown?_eq_none_iff [a, b, c]).1 (by decide)
  obtain ⟨-, -, hcollects, hassoc, -⟩ := merge_collects [a, b, c] a b c
  obtain ⟨r, hr, hr'⟩ := hcollects hknown
  obtain ⟨ab, bc, abc, hab, hbc, habc, hleft, hright⟩ :=
    hassoc (hknown a (by simp)) (hknown b (by simp)) (hknown c (by simp))
  cases hr.symm.trans habc
  have hvalue : merge [a, b, c] = .ok ⟨[("LET", ["var", "fix"]), ("IF", ["when", "case", "given", "should"]),
      ("ELSE", ["other"]), ("WHILE", []), ("DO", []), ("FOR", []), ("TRUE", []), ("FALSE", []), ("NULL", []),
      ("DEF", []), ("RETURN", [])]⟩ := by
    decide
  cases hr.symm.trans hvalue
  exact ⟨hknown, ab, bc, _, hr', hab, hbc, hleft, hright, rfl, rfl, rfl⟩

/-- The table of the language is that of its two vocabularies. -/
example : merge [english, romanUrdu] = .ok default := by
  decide +kernel

end KeywordTable

end Scriptlet
