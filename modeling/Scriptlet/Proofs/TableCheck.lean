import Scriptlet.Proofs.ShiftReduce

/-!
A check that the tables of a grammar can parse it. It visits every state that symbols lead to and
looks for two productions to reduce, or for a terminal that could be shifted as well; and it looks
whether the first and follow sets are closed. `deterministic_of_check` says that a grammar that
passes is `Deterministic`.

The check is meant to be evaluated by the kernel, which works a number out each time it is needed.
So numbers are worked out before they are handed on (`force`), and what a part of the check makes is
handed on to the rest of it.
-/

namespace Scriptlet.Lr

variable {β : Type}

/-! ## Working numbers out -/

/-- Hands a number on when it is worked out. -/
def force (n : Nat) (k : Nat → β) : β :=
  match n with
  | 0 => k 0
  | m + 1 => k (m + 1)

@[simp] theorem force_eq (n : Nat) (k : Nat → β) : force n k = k n := by
  cases n <;> rfl

def forceAll : List Nat → (List Nat → β) → β
  | [], k => k []
  | n :: rest, k => force n fun n => forceAll rest fun rest => k (n :: rest)

@[simp] theorem forceAll_eq (list : List Nat) (k : List Nat → β) : forceAll list k = k list := by
  induction list generalizing k with
  | nil => rfl
  | cons n rest ih => simp [forceAll, ih]

def forcePairs : List (Nat × Nat) → (List (Nat × Nat) → β) → β
  | [], k => k []
  | (m, n) :: rest, k =>
    force m fun m => force n fun n => forcePairs rest fun rest => k ((m, n) :: rest)

@[simp] theorem forcePairs_eq (list : List (Nat × Nat)) (k : List (Nat × Nat) → β) :
    forcePairs list k = k list := by
  induction list generalizing k with
  | nil => rfl
  | cons p rest ih => simp [forcePairs, ih]

def forceNumbered : List Numbered → (List Numbered → β) → β
  | [], k => k []
  | ⟨index, base, ⟨left, right⟩⟩ :: rest, k =>
    force index fun index => force base fun base => force left fun left =>
      forceAll right fun right => forceNumbered rest fun rest =>
        k (⟨index, base, ⟨left, right⟩⟩ :: rest)

@[simp] theorem forceNumbered_eq (list : List Numbered) (k : List Numbered → β) :
    forceNumbered list k = k list := by
  induction list generalizing k with
  | nil => rfl
  | cons p rest ih => simp [forceNumbered, ih]

/-! ## First and follow sets -/

/-- The set of a symbol. -/
def entry : List Bits → Nat → Bits
  | [], _ => 0
  | bits :: _, 0 => bits
  | _ :: sets, x + 1 => entry sets x

@[simp] theorem entry_toList (sets : Array Bits) (x : Nat) : entry sets.toList x = sets.getD x 0 := by
  obtain ⟨sets⟩ := sets
  induction sets generalizing x with
  | nil => simp [entry]
  | cons bits sets ih =>
    cases x with
    | zero => simp [entry]
    | succ x => simpa [entry] using ih x

def addTo : List Bits → Nat → Bits → (List Bits → β) → β
  | [], _, _, k => k []
  | bits :: sets, 0, more, k => force (Nat.lor bits more) fun bits => k (bits :: sets)
  | bits :: sets, x + 1, more, k => addTo sets x more fun sets => k (bits :: sets)

theorem addTo_eq (sets : List Bits) (x : Nat) (more : Bits) (k : List Bits → β) :
    addTo sets x more k = k (sets.modify x (· ||| more)) := by
  induction sets generalizing x k with
  | nil => simp [addTo]
  | cons bits sets ih =>
    cases x with
    | zero =>
      rw [addTo, force_eq]
      rfl
    | succ x => rw [addTo, ih, List.modify_succ_cons]

theorem addTo_toList (sets : TerminalSets) (x : Nat) (more : Bits) (k : List Bits → β) :
    addTo sets.toList x more k = k (sets.add x more).toList := by
  rw [addTo_eq, TerminalSets.add, Array.toList_modify]

def same : List Nat → List Nat → Bool
  | [], [] => true
  | m :: ms, n :: ns => bif Nat.beq m n then same ms ns else false
  | _, _ => false

theorem same_eq (ms ns : List Nat) : same ms ns = decide (ms = ns) := by
  induction ms generalizing ns with
  | nil => cases ns <;> simp [same]
  | cons m ms ih =>
    cases ns with
    | nil => simp [same]
    | cons n ns =>
      rw [same, ih]
      by_cases h : m = n <;> simp [h]

def saturateBy (step : List Bits → (List Bits → β) → β) : Nat → List Bits → (List Bits → β) → β
  | 0, sets, k => k sets
  | n + 1, sets, k => step sets fun next =>
    bif same next sets then k sets else saturateBy step n next k

theorem saturateBy_toList {stepBy : List Bits → (List Bits → β) → β}
    {step : TerminalSets → TerminalSets}
    (h : ∀ sets k, stepBy sets.toList k = k (step sets).toList) (n : Nat) (sets : TerminalSets)
    (k : List Bits → β) :
    saturateBy stepBy n sets.toList k = k (saturate step n sets).toList := by
  induction n generalizing sets with
  | zero => rfl
  | succ n ih =>
    rw [saturateBy, h, same_eq, saturate]
    by_cases hs : step sets = sets
    · simp [hs]
    · simp [hs, ih, Array.toList_inj]

def firstPass : List Numbered → List Bits → (List Bits → β) → β
  | [], sets, k => k sets
  | p :: ps, sets, k =>
    match p.production.right with
    | [] => firstPass ps sets k
    | x :: _ => force (entry sets x) fun more => addTo sets p.production.left more fun sets =>
      firstPass ps sets k

def followOne (first : List Bits) (left : Nat) : List Nat → List Bits → (List Bits → β) → β
  | [], sets, k => k sets
  | [x], sets, k => force (entry sets left) fun more => addTo sets x more k
  | x :: y :: rest, sets, k => force (entry first y) fun more => addTo sets x more fun sets =>
    followOne first left (y :: rest) sets k

def followPass (first : List Bits) : List Numbered → List Bits → (List Bits → β) → β
  | [], sets, k => k sets
  | p :: ps, sets, k => followOne first p.production.left p.production.right sets fun sets =>
    followPass first ps sets k

theorem firstPass_toList (ps : List Numbered) (sets : TerminalSets) (k : List Bits → β) :
    firstPass ps sets.toList k =
      k ((ps.map (·.production)).foldl (fun sets p =>
        match p.right with
        | x :: _ => sets.add p.left (sets.getD x 0)
        | [] => sets) sets).toList := by
  induction ps generalizing sets with
  | nil => rfl
  | cons p ps ih =>
    rw [firstPass, List.map_cons, List.foldl_cons]
    cases p.production.right with
    | nil => exact ih sets
    | cons x xs => simp only [force_eq, entry_toList, addTo_toList, ih]

theorem followOne_toList (first : TerminalSets) (left : Nat) (right : List Nat) (sets : TerminalSets)
    (k : List Bits → β) :
    followOne first.toList left right sets.toList k =
      k (Grammar.followRight first left right sets).toList := by
  induction right, sets using Grammar.followRight.induct first with
  | case1 sets => rfl
  | case2 x sets => simp only [followOne, Grammar.followRight, force_eq, entry_toList, addTo_toList]
  | case3 x y rest sets ih =>
    simp only [followOne, Grammar.followRight, force_eq, entry_toList, addTo_toList, ih]

theorem followPass_toList (first : TerminalSets) (ps : List Numbered) (sets : TerminalSets)
    (k : List Bits → β) :
    followPass first.toList ps sets.toList k =
      k ((ps.map (·.production)).foldl
        (fun sets p => Grammar.followRight first p.left p.right sets) sets).toList := by
  induction ps generalizing sets with
  | nil => rfl
  | cons p ps ih => simp only [followPass, followOne_toList, ih, List.map_cons, List.foldl_cons]

theorem Grammar.map_numbered (g : Grammar) : g.numbered.map (·.production) = g.productions := by
  have h : ∀ (ps : List Production) (index base : Nat),
      (numberFrom index base ps).map (·.production) = ps := by
    intro ps
    induction ps with
    | nil => intros; rfl
    | cons p ps ih => intro index base; rw [numberFrom, List.map_cons, ih]
  exact h g.productions 0 0

theorem saturateBy_first (g : Grammar) (k : List Bits → β) :
    saturateBy (firstPass g.numbered) g.symbols g.firstOfTerminals.toList k = k g.first.toList := by
  refine saturateBy_toList (fun sets k => ?_) _ _ k
  rw [firstPass_toList, g.map_numbered]
  rfl

theorem saturateBy_follow (g : Grammar) (k : List Bits → β) :
    saturateBy (followPass g.first.toList g.numbered) g.symbols g.followOfRoot.toList k =
      k g.follow.toList := by
  refine saturateBy_toList (fun sets k => ?_) _ _ k
  rw [followPass_toList, g.map_numbered]
  rfl

def subset (a b : Bits) : Bool := Nat.beq (Nat.lor a b) b

theorem sub_of_subset {a b : Bits} (h : subset a b = true) : a.Sub b := by
  have hor : a ||| b = b := Nat.eq_of_beq_eq_true h
  rw [← hor]
  exact Bits.sub_or_left a b

/-- What a symbol starts with, its left side starts with. -/
def firstOk (first : List Bits) (p : Production) : Bool :=
  match p.right with
  | [] => true
  | x :: _ => subset (entry first x) (entry first p.left)

/-- What follows a symbol on a right side is among what follows the symbol. -/
def followOk (first follow : List Bits) (left : Nat) : List Nat → Bool
  | [] => true
  | [x] => subset (entry follow left) (entry follow x)
  | x :: y :: rest =>
    subset (entry first y) (entry follow x) && followOk first follow left (y :: rest)

section

variable {first follow : List Bits} {left x : Nat} {l l' : List Nat}

/-- The check of a right side checks every end of it. -/
theorem followOk_of_append (h : followOk first follow left (l ++ x :: l') = true) :
    followOk first follow left (x :: l') = true := by
  induction l with
  | nil => exact h
  | cons z l ih =>
    cases l with
    | nil =>
      rw [List.cons_append, List.nil_append, followOk, Bool.and_eq_true] at h
      exact h.2
    | cons z' l =>
      rw [List.cons_append, List.cons_append, followOk, Bool.and_eq_true] at h
      exact ih h.2

theorem followOk_inner {y : Nat} (h : followOk first follow left (l ++ x :: y :: l') = true) :
    (entry first y).Sub (entry follow x) := by
  have hend := followOk_of_append h
  rw [followOk, Bool.and_eq_true] at hend
  exact sub_of_subset hend.1

theorem followOk_last (h : followOk first follow left (l ++ [x]) = true) :
    (entry follow left).Sub (entry follow x) :=
  sub_of_subset (followOk_of_append h)

end

/-! ## States -/

/-- A number that stands for a set. Evaluation looks terms up by the low bits of the numbers in them,
and sets of items agree in many of these, so a set is written behind a remainder of itself. -/
def mark (items : Bits) : Nat :=
  items * 18446744073709551616 + items % 18446744073709551557

def unmark (m : Nat) : Nat := m / 18446744073709551616

@[simp] theorem unmark_mark (items : Bits) : unmark (mark items) = items := by
  have hlt := Nat.mod_lt items (show 18446744073709551557 > 0 by decide)
  unfold mark unmark
  generalize items % 18446744073709551557 = r at *
  omega

theorem beq_zero_of_ne {n : Nat} (h : n ≠ 0) : Nat.beq n 0 = false := by
  cases n with
  | zero => exact absurd rfl h
  | succ n => rfl

/-- Closes a set of items, given what is in front of each symbol and what the symbol brings in. -/
def spreadBy : List (Bits × Bits) → Nat → (Nat → β) → β
  | [], m, k => k m
  | (before, starting) :: rest, m, k =>
    bif Nat.beq (Nat.land (unmark m) before) 0 then spreadBy rest m k
    else force (mark (Nat.lor (unmark m) starting)) fun m => spreadBy rest m k

theorem spreadBy_eq (before starting : Array Bits) (symbols : List Nat) (m : Nat) :
    ∃ m', unmark m' = spread before starting symbols (unmark m) ∧ ∀ k : Nat → β,
      spreadBy (symbols.map fun a => (before.getD a 0, starting.getD a 0)) m k = k m' := by
  induction symbols generalizing m with
  | nil => exact ⟨m, rfl, fun k => rfl⟩
  | cons a symbols ih =>
    by_cases h : unmark m &&& before.getD a 0 = 0
    · obtain ⟨m', hm, hk⟩ := ih m
      refine ⟨m', by rw [hm, spread, spread, List.foldl_cons, if_pos h], fun k => ?_⟩
      rw [← hk k, List.map_cons, spreadBy]
      exact congrArg (cond · _ _) (congrArg (Nat.beq · 0) h)
    · obtain ⟨m', hm, hk⟩ := ih (mark (unmark m ||| starting.getD a 0))
      refine ⟨m', ?_, fun k => ?_⟩
      · rw [hm, unmark_mark, spread, spread, List.foldl_cons, if_neg h]
      · rw [← hk k, List.map_cons, spreadBy, force_eq]
        exact congrArg (cond · _ _) (beq_zero_of_ne h)

def among (m : Nat) : List Nat → Bool
  | [] => false
  | n :: rest => bif Nat.beq m n then true else among m rest

theorem among_eq (m : Nat) (list : List Nat) : among m list = decide (m ∈ list) := by
  induction list with
  | nil => rfl
  | cons n rest ih =>
    rw [among, ih]
    by_cases h : m = n <;> simp [h]

/-- Notes where the symbols lead from a state, unless it is noted already. Sets are noted before they
are closed. -/
def visit (m : Nat) : List Bits → List Nat → List Nat → (List Nat → List Nat → Bool) → Bool
  | [], todo, seen, k => k todo seen
  | before :: rest, todo, seen, k =>
    bif Nat.beq (Nat.land (unmark m) before) 0 then visit m rest todo seen k
    else force (mark (Nat.land (unmark m) before <<< 1)) fun next =>
      bif among next seen then visit m rest todo seen k
      else visit m rest (next :: todo) (next :: seen) k

/-- Closes the noted sets, and checks and visits the states, until there are none left. -/
def survey (wants : List (Bits × Bits)) (before : List Bits) (good : Nat → Bool) :
    Nat → List Nat → List Nat → Bool
  | 0, _, _ => false
  | _ + 1, [], _ => true
  | n + 1, items :: todo, seen => spreadBy wants items fun m =>
    bif good m then visit m before todo seen (survey wants before good n) else false

/-- A visit notes all sets that the symbols lead to, and puts on the list what it notes. -/
theorem visit_spec {m : Nat} {before : List Bits} {todo seen : List Nat}
    {k : List Nat → List Nat → Bool} (h : visit m before todo seen k = true) :
    ∃ todo' seen', k todo' seen' = true ∧ seen ⊆ seen' ∧ todo ⊆ todo' ∧
      (∀ b ∈ before, unmark m &&& b ≠ 0 → mark ((unmark m &&& b) <<< 1) ∈ seen') ∧
      ∀ n ∈ seen', n ∈ seen ∨ n ∈ todo' := by
  induction before generalizing todo seen with
  | nil => exact ⟨todo, seen, h, fun _ hm => hm, fun _ hm => hm, nofun, fun _ hm => .inl hm⟩
  | cons b rest ih =>
    simp only [visit, force_eq, among_eq] at h
    change (bif Nat.beq (unmark m &&& b) 0 then _ else
      bif decide (mark ((unmark m &&& b) <<< 1) ∈ seen) then _ else visit m rest
        (mark ((unmark m &&& b) <<< 1) :: todo) (mark ((unmark m &&& b) <<< 1) :: seen) k) = true at h
    by_cases hb : unmark m &&& b = 0
    · rw [hb] at h
      obtain ⟨todo', seen', hk, hseen, htodo, hnoted, hnew⟩ := ih h
      refine ⟨todo', seen', hk, hseen, htodo, ?_, hnew⟩
      rintro b' (_ | ⟨_, hmem⟩) hne
      · exact absurd hb hne
      · exact hnoted b' hmem hne
    · rw [beq_zero_of_ne hb, cond_false] at h
      by_cases hm : mark ((unmark m &&& b) <<< 1) ∈ seen
      · rw [decide_eq_true hm] at h
        obtain ⟨todo', seen', hk, hseen, htodo, hnoted, hnew⟩ := ih h
        refine ⟨todo', seen', hk, hseen, htodo, ?_, hnew⟩
        rintro b' (_ | ⟨_, hmem⟩) hne
        · exact hseen hm
        · exact hnoted b' hmem hne
      · rw [decide_eq_false hm, cond_false] at h
        obtain ⟨todo', seen', hk, hseen, htodo, hnoted, hnew⟩ := ih h
        refine ⟨todo', seen', hk, fun _ h => hseen (.tail _ h), fun _ h => htodo (.tail _ h), ?_, ?_⟩
        · rintro b' (_ | ⟨_, hmem⟩) hne
          · exact hseen (.head _)
          · exact hnoted b' hmem hne
        · intro n hn
          rcases hnew n hn with h | h
          · rcases List.mem_cons.1 h with rfl | h
            · exact .inr (htodo (.head _))
            · exact .inl h
          · exact .inr h

section Survey

variable (close : Bits → Bits) (before : List Bits) (good : Nat → Bool)

/-- The state of a set is checked, and what it leads to is noted. -/
def Visited (seen : List Nat) (n : Nat) : Prop :=
  ∃ m, unmark m = close (unmark n) ∧ good m = true ∧
    ∀ b ∈ before, unmark m &&& b ≠ 0 → mark ((unmark m &&& b) <<< 1) ∈ seen

variable {close before good}

theorem Visited.mono {seen seen' : List Nat} {n : Nat} (h : Visited close before good seen n)
    (hsub : seen ⊆ seen') : Visited close before good seen' n := by
  obtain ⟨m, hm, hgood, hnoted⟩ := h
  exact ⟨m, hm, hgood, fun b hb hne => hsub (hnoted b hb hne)⟩

/-- A survey that ends well has visited all that it noted. -/
theorem survey_spec {wants : List (Bits × Bits)}
    (hclose : ∀ n, ∃ m, unmark m = close (unmark n) ∧ ∀ k : Nat → Bool, spreadBy wants n k = k m)
    {n : Nat} {todo seen : List Nat} (h : survey wants before good n todo seen = true)
    (hseen : ∀ n ∈ seen, n ∈ todo ∨ Visited close before good seen n) :
    ∃ final, seen ⊆ final ∧ ∀ n ∈ final, Visited close before good final n := by
  induction n generalizing todo seen with
  | zero => cases h
  | succ n ih =>
    cases todo with
    | nil =>
      refine ⟨seen, fun _ hm => hm, fun items hm => ?_⟩
      exact (hseen items hm).resolve_left List.not_mem_nil
    | cons items todo =>
      obtain ⟨m, hm, hk⟩ := hclose items
      rw [survey, hk, Bool.cond_eq_ite] at h
      split at h
      · next hgood =>
        obtain ⟨todo', seen', hrest, hsub, htodo, hnoted, hnew⟩ := visit_spec h
        obtain ⟨final, hfinal, hall⟩ := ih hrest fun other hother => by
          rcases hnew other hother with hmem | hmem
          · rcases hseen other hmem with hmem | hv
            · rcases List.mem_cons.1 hmem with rfl | hmem
              · exact .inr ⟨m, hm, hgood, hnoted⟩
              · exact .inl (htodo hmem)
            · exact .inr (hv.mono hsub)
          · exact .inl hmem
        exact ⟨final, fun _ hm => hfinal (hsub hm), hall⟩
      · cases h

end Survey

variable {g : Grammar} {s : Bits} {p : Numbered}

/-- If the survey from the first item ends well, every state that symbols lead to is empty or was
found good. -/
theorem good_of_survey {good : Nat → Bool} {n : Nat}
    (h : survey (g.nonterminals.map fun a => (g.tables.before.getD a 0, g.tables.starting.getD a 0))
      g.tables.before.toList good n [mark (Bits.one 0)] [mark (Bits.one 0)] = true)
    (hs : Reached g s) : s = 0 ∨ ∃ m, unmark m = s ∧ good m = true := by
  obtain ⟨final, hsub, hall⟩ := survey_spec
    (fun n => spreadBy_eq g.tables.before g.tables.starting g.nonterminals n) h
    (fun n hn => .inl hn)
  have hnil : spread g.tables.before g.tables.starting g.nonterminals 0 = 0 := by
    generalize g.nonterminals = symbols
    induction symbols with
    | nil => rfl
    | cons a symbols ih => simpa [spread] using ih
  have hinv : s = 0 ∨ ∃ n ∈ final,
      s = spread g.tables.before g.tables.starting g.nonterminals (unmark n) := by
    induction hs with
    | start => exact .inr ⟨mark (Bits.one 0), hsub (.head _), by rw [unmark_mark]; rfl⟩
    | @next s hs x ih =>
      by_cases hmove : s &&& g.tables.before.getD x 0 = 0
      · left
        rw [Tables.next, hmove, Nat.zero_shiftLeft]
        exact hnil
      · right
        rcases ih with rfl | ⟨n, hn, rfl⟩
        · exact absurd (Nat.zero_and _) hmove
        · obtain ⟨m, hm, -, hnoted⟩ := hall n hn
          rw [← hm] at hmove ⊢
          refine ⟨_, hnoted (g.tables.before.getD x 0) ?_ hmove, by rw [unmark_mark]; rfl⟩
          by_cases hx : x < g.tables.before.size
          · simp [hx]
          · simp [hx] at hmove
  rcases hinv with rfl | ⟨n, hn, rfl⟩
  · exact .inl rfl
  · obtain ⟨m, hm, hgood, -⟩ := hall n hn
    exact .inr ⟨m, hm, hgood⟩

/-! ## The check -/

/-- The symbols of a production are in range, the root is not used, the start symbol stands alone
and is the only one that may be empty. -/
def Production.WellPlaced (g : Grammar) (root start : Nat) (p : Production) : Prop :=
  p.left < g.symbols ∧ g.terminals ≤ p.left ∧ (∀ x ∈ p.right, x < g.symbols ∧ x ≠ root) ∧
    (start ∈ p.right → p.left = root ∧ p.right = [start]) ∧ (p.right = [] → p.left = start)

instance (g : Grammar) (root start : Nat) : DecidablePred (Production.WellPlaced g root start) :=
  fun p => by unfold Production.WellPlaced; infer_instance

/-- A state has nothing else to do than to reduce the production that it has completed, unless that
gives way. -/
def stateOk (terminals : Nat) (before follow : List Bits) (complete : Bits)
    (defers : Nat → Nat → Bool) (ps : List Numbered) (m : Nat) : Bool :=
  ps.all fun p => bif Bits.has (unmark m) p.complete then
      Nat.beq (Nat.land (unmark m) complete) (Bits.one p.complete) &&
      (List.range terminals).all fun t => bif Bits.has (entry follow p.production.left) t then
          Nat.beq (Nat.land (unmark m) (entry before t)) 0 != defers p.index t
        else true
    else true

def completeItems (ps : List Numbered) : Bits :=
  ps.foldl (fun bits p => bits ||| Bits.one p.complete) 0

/-- Checks a grammar, with a bound on the number of its states. -/
def Grammar.check (g : Grammar) (root start : Nat) (defers : Nat → Nat → Bool) (states : Nat) : Bool :=
  forceNumbered g.numbered fun ps =>
  forceAll g.tables.before.toList fun before =>
  forceAll g.tables.starting.toList fun starting =>
  forcePairs (g.nonterminals.map fun a => (entry before a, entry starting a)) fun wants =>
  forceAll g.firstOfTerminals.toList fun sets =>
  saturateBy (firstPass ps) g.symbols sets fun first =>
  forceAll g.followOfRoot.toList fun sets =>
  saturateBy (followPass first ps) g.symbols sets fun follow =>
  force (completeItems ps) fun complete =>
    decide ((ps.map (·.production)).head? = some ⟨root, [start]⟩) &&
    ps.all (fun p => decide (p.production.WellPlaced g root start)) &&
    (List.range g.terminals).all (fun t => Bits.has (entry first t) t) &&
    ps.all (fun p => firstOk first p.production) &&
    (List.range g.terminals).all
      (fun t => Bits.has (entry follow root) t == decide (t = g.endOfInput)) &&
    ps.all (fun p => followOk first follow p.production.left p.production.right) &&
    g.nonterminals.all (fun a => spreadBy wants (mark (entry starting a))
      fun m => Nat.beq (unmark m) (entry starting a)) &&
    survey wants before (stateOk g.terminals before follow complete defers ps) states
      [mark (Bits.one 0)] [mark (Bits.one 0)]

theorem has_completeItems {ps : List Numbered} (hp : p ∈ ps) :
    Bits.has (completeItems ps) p.complete := by
  have h : ∀ (ps : List Numbered) (bits : Bits), (Bits.has bits p.complete ∨ p ∈ ps) →
      Bits.has (ps.foldl (fun bits p => bits ||| Bits.one p.complete) bits) p.complete := by
    intro ps
    induction ps with
    | nil =>
      rintro bits (h | h)
      · exact h
      · cases h
    | cons q ps ih =>
      intro bits h
      apply ih
      rcases h with h | h
      · exact .inl (by simp [h])
      · rcases List.mem_cons.1 h with rfl | h
        · exact .inl (by simp)
        · exact .inr h
  exact h ps 0 (.inr hp)

theorem stateOk_spec {defers : Nat → Nat → Bool}
    (h : s = 0 ∨ ∃ m, unmark m = s ∧ stateOk g.terminals g.tables.before.toList g.follow.toList
      (completeItems g.numbered) defers g.numbered m = true)
    (hp : p ∈ g.numbered) (hc : Bits.has s p.complete) :
    (∀ q ∈ g.numbered, Bits.has s q.complete → q = p) ∧
    ∀ t < g.terminals, Bits.has (g.follow.getD p.production.left 0) t →
      (s &&& g.tables.before.getD t 0 ≠ 0 ↔ defers p.index t = true) := by
  rcases h with rfl | ⟨m, rfl, h⟩
  · simp at hc
  have hp' := List.all_eq_true.1 h p hp
  rw [hc, cond_true, Bool.and_eq_true] at hp'
  obtain ⟨hone, hshift⟩ := hp'
  have hone : unmark m &&& completeItems g.numbered = Bits.one p.complete :=
    Nat.eq_of_beq_eq_true hone
  constructor
  · intro q hq hqc
    have hbit : Bits.has (unmark m &&& completeItems g.numbered) q.complete := by
      rw [Bits.has_and, hqc, has_completeItems hq, Bool.and_self]
    rw [hone, Bits.has_one, decide_eq_true_eq] at hbit
    exact (Grammar.item_unique hp hq (Nat.le_refl _) (Nat.le_refl _) hbit).symm
  · intro t ht hf
    have hs := List.all_eq_true.1 hshift t (List.mem_range.2 ht)
    rw [entry_toList, hf, cond_true, entry_toList] at hs
    change (Nat.beq (unmark m &&& g.tables.before.getD t 0) 0 != defers p.index t) = true at hs
    by_cases hz : unmark m &&& g.tables.before.getD t 0 = 0
    · rw [hz] at hs ⊢
      simpa using hs
    · rw [beq_zero_of_ne hz] at hs
      exact ⟨fun _ => by simpa using hs, fun _ => hz⟩

theorem Grammar.deterministic_of_check {root start : Nat} {defers : Nat → Nat → Bool} {n : Nat}
    (h : g.check root start defers n = true) :
    g.Deterministic root start (fun i t => defers i t = true) := by
  simp only [check, forceNumbered_eq, forceAll_eq, forcePairs_eq, force_eq, saturateBy_first,
    saturateBy_follow, entry_toList, g.map_numbered, Bool.and_eq_true] at h
  obtain ⟨⟨⟨⟨⟨⟨⟨hhead, hplaced⟩, hterminal⟩, hfirst⟩, hroot⟩, hfollow⟩, hclosed⟩, hsurvey⟩ := h
  have hall : ∀ {P : Production → Prop}, (∀ q ∈ g.numbered, P q.production) →
      ∀ p ∈ g.productions, P p := by
    intro P hP p hp
    rw [← g.map_numbered] at hp
    obtain ⟨q, hq, rfl⟩ := List.mem_map.1 hp
    exact hP q hq
  have hplaced : ∀ p ∈ g.productions, p.WellPlaced g root start :=
    hall fun q hq => of_decide_eq_true (List.all_eq_true.1 hplaced q hq)
  have hspec : ∀ s, Reached g s → ∀ p ∈ g.numbered, Bits.has s p.complete → _ := fun s hs p hp hc =>
    stateOk_spec (good_of_survey hsurvey hs) hp hc
  exact {
    left_lt := fun p hp => (hplaced p hp).1
    left_ge := fun p hp => (hplaced p hp).2.1
    right_lt := fun p hp x hx => ((hplaced p hp).2.2.1 x hx).1
    closed := fun b hb => by
      have hok := List.all_eq_true.1 hclosed b hb
      obtain ⟨m, hm, hk⟩ := spreadBy_eq g.tables.before g.tables.starting g.nonterminals
        (mark (g.tables.starting.getD b 0))
      rw [hk, hm, unmark_mark] at hok
      exact Nat.eq_of_beq_eq_true hok
    head := of_decide_eq_true hhead
    root_fresh := fun ⟨p, hp, hx⟩ => ((hplaced p hp).2.2.1 root hx).2 rfl
    start_alone := fun p hp => (hplaced p hp).2.2.2.1
    start_of_empty := fun p hp => (hplaced p hp).2.2.2.2
    first_terminal := fun t ht => by
      simpa using List.all_eq_true.1 hterminal t (List.mem_range.2 ht)
    first_left := hall fun q hq x xs hright => by
      have hok := List.all_eq_true.1 hfirst q hq
      rw [firstOk, hright] at hok
      simpa using sub_of_subset hok
    follow_root := fun t ht => by
      have hok := List.all_eq_true.1 hroot t (List.mem_range.2 ht)
      rw [beq_iff_eq] at hok
      rw [hok, decide_eq_true_eq]
    follow_inner := hall fun q hq l x y l' hright => by
      have hok := List.all_eq_true.1 hfollow q hq
      rw [hright] at hok
      simpa using followOk_inner hok
    follow_last := hall fun q hq l x hright => by
      have hok := List.all_eq_true.1 hfollow q hq
      rw [hright] at hok
      simpa using followOk_last hok
    unique := fun s hs p hp q hq hpc hqc => (hspec s hs p hp hpc).1 q hq hqc
    shifts := fun s hs p hp hpc => (hspec s hs p hp hpc).2 }

end Scriptlet.Lr
