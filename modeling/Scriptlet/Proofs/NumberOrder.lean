import Mathlib.Algebra.Order.Field.Power
import Mathlib.Algebra.Order.Ring.Rat
import Mathlib.Order.WithBot
import Mathlib.Tactic.Ring
import Scriptlet.Machine.Native
import Scriptlet.Machine.Operator

/-!
Equality and order of values. A number that is not undefined is a point of the rational line with its two
ends, and numbers are compared as their points are (`compare?_eq_cmp`), whole numbers of any size with
floats too. The laws of equality and order, and what the extremes of several numbers are, come from there.
-/

namespace Scriptlet

open Binary

/-! ## Numbers as points -/

/-- What a float stands for. An undefined number has no point of its own. -/
def Binary.Exact.point : Exact → WithBot (WithTop ℚ)
  | .nan | .infinite true => ⊥
  | .infinite false => ⊤
  | .finite negative m q => ((Number.signed negative m * 2 ^ q : ℚ) : WithTop ℚ)

namespace Number

def point (a : Number) : WithBot (WithTop ℚ) :=
  a.exact.point

def Defined (a : Number) : Prop :=
  a.exact ≠ .nan

instance (a : Number) : Decidable a.Defined :=
  inferInstanceAs (Decidable (a.exact ≠ .nan))

theorem point_int (n : Int) : (Number.int n).point = ((n : ℚ) : WithTop ℚ) := by
  have hsigned : signed (decide (n < 0)) n.natAbs = n := by
    unfold signed
    split <;> rename_i h <;> simp at h <;> omega
  simp [point, exact, Exact.point, hsigned]

/-- A mantissa is brought down to a lower exponent. -/
theorem scaled_mul {s p low : Int} (h : low ≤ p) :
    ((s * Int.pow 2 (p - low).toNat : Int) : ℚ) * 2 ^ low = s * 2 ^ p := by
  obtain ⟨k, rfl⟩ := Int.le.dest h
  rw [add_sub_cancel_left, Int.toNat_natCast, Int.pow_eq, zpow_add₀ two_ne_zero, zpow_natCast]
  push_cast
  ring

theorem compareExact_eq_cmp {x y : Exact} (hx : x ≠ .nan) (hy : y ≠ .nan) :
    compareExact x y = some (cmp x.point y.point) := by
  have hbot : ∀ r : ℚ, (⊥ : WithBot (WithTop ℚ)) < (r : WithTop ℚ) := fun _ => WithBot.bot_lt_coe _
  have htop : ∀ r : ℚ, ((r : WithTop ℚ) : WithBot (WithTop ℚ)) < ⊤ := fun r =>
    WithBot.coe_lt_coe.2 (WithTop.coe_lt_top r)
  have hends : (⊥ : WithBot (WithTop ℚ)) < ⊤ := bot_lt_top
  cases x with
  | nan => exact absurd rfl hx
  | infinite a =>
    cases y with
    | nan => exact absurd rfl hy
    | infinite b =>
      cases a <;> cases b
      · exact congrArg some (cmp_self_eq_eq _).symm
      · exact congrArg some ((cmp_eq_gt_iff _ _).2 hends).symm
      · exact congrArg some ((cmp_eq_lt_iff _ _).2 hends).symm
      · exact congrArg some (cmp_self_eq_eq _).symm
    | finite b n q =>
      cases a
      · exact congrArg some ((cmp_eq_gt_iff _ _).2 (htop _)).symm
      · exact congrArg some ((cmp_eq_lt_iff _ _).2 (hbot _)).symm
  | finite a m p =>
    cases y with
    | nan => exact absurd rfl hy
    | infinite b =>
      cases b
      · exact congrArg some ((cmp_eq_lt_iff _ _).2 (htop _)).symm
      · exact congrArg some ((cmp_eq_gt_iff _ _).2 (hbot _)).symm
    | finite b n q =>
      have hpos : (0 : ℚ) < 2 ^ min p q := by positivity
      have hpoints : cmp (signed a m * 2 ^ p : ℚ) (signed b n * 2 ^ q) =
          cmp (signed a m * Int.pow 2 (p - min p q).toNat) (signed b n * Int.pow 2 (q - min p q).toNat) := by
        rw [← scaled_mul (min_le_left p q), ← scaled_mul (min_le_right p q), cmp_mul_pos_right hpos]
        exact Int.cast_strictMono.cmp_map_eq _ _
      rw [Exact.point, Exact.point, WithBot.coe_strictMono.cmp_map_eq, WithTop.coe_strictMono.cmp_map_eq,
        hpoints, cmp_eq_compare]
      rfl

section
variable {a b : Number} (ha : a.Defined) (hb : b.Defined)
include ha hb

theorem compare?_eq_cmp : a.compare? b = some (cmp a.point b.point) :=
  compareExact_eq_cmp ha hb

theorem less_iff : a.less b = true ↔ a.point < b.point := by
  rw [less, decide_eq_true_eq, compare?_eq_cmp ha hb, Option.some.injEq, cmp_eq_lt_iff]

theorem equal_iff : a.equal b = true ↔ a.point = b.point := by
  rw [equal, decide_eq_true_eq, compare?_eq_cmp ha hb, Option.some.injEq, cmp_eq_eq_iff]

theorem lessEqual_iff : a.lessEqual b = true ↔ a.point ≤ b.point := by
  rw [lessEqual, Bool.or_eq_true, less_iff ha hb, equal_iff ha hb, le_iff_lt_or_eq]

end

/-! ## Extremes -/

/-- Of several numbers the one is kept that is better than what was kept so far. -/
theorem foldl_best {P : Type} [LinearOrder P] (key : Number → P) (better : Number → Number → Bool)
    {first : Number} {rest : List Number}
    (h : ∀ m ∈ first :: rest, ∀ n ∈ first :: rest, better m n = true ↔ key m < key n) :
    rest.foldl (fun best n => if better n best then n else best) first ∈ first :: rest ∧
      ∀ n ∈ first :: rest,
        key (rest.foldl (fun best n => if better n best then n else best) first) ≤ key n := by
  induction rest generalizing first with
  | nil => simp
  | cons n rest ih =>
    rw [List.foldl_cons]
    generalize hbest : (if better n first then n else first) = best
    have hn : n ∈ first :: n :: rest := by simp
    have hmem : best ∈ first :: n :: rest := by
      rw [← hbest]
      split <;> simp
    have hle : key best ≤ key n ∧ key best ≤ key first := by
      have hbetter := h n hn first List.mem_cons_self
      split at hbest
      · rename_i hyes
        exact hbest ▸ ⟨le_refl _, (hbetter.1 hyes).le⟩
      · rename_i hno
        exact hbest ▸ ⟨not_lt.1 (mt hbetter.2 hno), le_refl _⟩
    have hsub : ∀ m ∈ best :: rest, m ∈ first :: n :: rest := by
      intro m hm
      rcases List.mem_cons.1 hm with rfl | hm
      · exact hmem
      · simp [hm]
    obtain ⟨hin, hall⟩ := ih fun m hm n hn => h m (hsub m hm) n (hsub n hn)
    refine ⟨hsub _ hin, fun m hm => ?_⟩
    have hbelow := hall best List.mem_cons_self
    rcases List.mem_cons.1 hm with rfl | hm
    · exact hbelow.trans hle.2
    · rcases List.mem_cons.1 hm with rfl | hm
      · exact hbelow.trans hle.1
      · exact hall m (List.mem_cons_of_mem _ hm)

section
variable {first : Number} {rest : List Number} (h : ∀ n ∈ first :: rest, n.Defined)
include h

theorem least_spec :
    least first rest ∈ first :: rest ∧ ∀ n ∈ first :: rest, (least first rest).lessEqual n = true := by
  obtain ⟨hmem, hle⟩ := foldl_best point less fun m hm n hn => less_iff (h m hm) (h n hn)
  exact ⟨hmem, fun n hn => (lessEqual_iff (h _ hmem) (h n hn)).2 (hle n hn)⟩

theorem greatest_spec :
    greatest first rest ∈ first :: rest ∧
      ∀ n ∈ first :: rest, n.lessEqual (greatest first rest) = true := by
  obtain ⟨hmem, hle⟩ := foldl_best (fun n => OrderDual.toDual n.point) (fun m n => less n m)
    fun m hm n hn => less_iff (h n hn) (h m hm)
  exact ⟨hmem, fun n hn => (lessEqual_iff (h n hn) (h _ hmem)).2 (hle n hn)⟩

end

end Number

theorem Native.numbers_map (f : Native) (list : List Number) :
    f.numbers (list.map Value.number) = .ok list := by
  induction list with
  | nil => rfl
  | cons n list ih => rw [List.map_cons, numbers, ih]; rfl

/-! ## Values -/

namespace Value

/-- Any value but a part of a tree and the undefined number. -/
def Plain : Value → Prop
  | .number n => n.Defined
  | .data _ => False
  | _ => True

/-- What equality looks at. -/
inductive Key where
  | null
  | bool (b : Bool)
  | point (p : WithBot (WithTop ℚ))
  | text (s : String)
  | native (f : Native)
  | closure (id : Nat)

def key : Value → Key
  | .null | .data _ => .null
  | .bool b => .bool b
  | .number n => .point n.point
  | .text s => .text s
  | .native f => .native f
  | .closure f => .closure f.id

theorem equal_iff_key {u v : Value} (hu : u.Plain) (hv : v.Plain) : u.equal v = true ↔ u.key = v.key := by
  cases u with
  | data => exact hu.elim
  | scalar s =>
    cases v with
    | data => exact hv.elim
    | scalar s' =>
      cases s <;> cases s' <;> simp [equal, key]
      exact Number.equal_iff hu hv
    | _ => cases s <;> simp [equal, key]
  | native f =>
    cases v with
    | data => exact hv.elim
    | scalar s => cases s <;> simp [equal, key]
    | _ => simp [equal, key]
  | closure f =>
    cases v with
    | data => exact hv.elim
    | scalar s => cases s <;> simp [equal, key]
    | _ => simp [equal, key]

end Value

/-- Equality is an equivalence of plain values. A whole number is its own point. Of two numbers exactly one
of less, equal and greater holds, by the points of the two; the other comparisons are unions of these. Less
is transitive and cannot tell equal numbers apart, and the extremes of numbers are among them. -/
theorem comparisons_coherent :
    (∀ n : Int, (Number.int n).point = ((n : ℚ) : WithTop ℚ)) ∧
    (∀ u v w : Value, u.Plain → v.Plain → w.Plain →
      u.equal u = true ∧ (u.equal v = true → v.equal u = true) ∧
        (u.equal v = true → v.equal w = true → u.equal w = true)) ∧
    (∀ a b : Number, a.Defined → b.Defined → ∃ o : Ordering, o = cmp a.point b.point ∧
      BinaryOp.less.apply (.number a) (.number b) = .ok (.bool (o == .lt)) ∧
      BinaryOp.equal.apply (.number a) (.number b) = .ok (.bool (o == .eq)) ∧
      BinaryOp.greater.apply (.number a) (.number b) = .ok (.bool (o == .gt)) ∧
      BinaryOp.lessEqual.apply (.number a) (.number b) = .ok (.bool (o == .lt || o == .eq)) ∧
      BinaryOp.greaterEqual.apply (.number a) (.number b) = .ok (.bool (o == .gt || o == .eq))) ∧
    (∀ a b c : Number, a.Defined → b.Defined → c.Defined → a.less b = true → b.less c = true →
      a.less c = true) ∧
    (∀ a a' b b' : Number, a.Defined → a'.Defined → b.Defined → b'.Defined → a.equal a' = true →
      b.equal b' = true → a.less b = a'.less b') ∧
    ∀ (cfg : Config) (list : List Number), list ≠ [] → (∀ n ∈ list, n.Defined) →
      (∃ m ∈ list, Native.call cfg .min (list.map Value.number) = pure (.number m) ∧
        ∀ n ∈ list, BinaryOp.lessEqual.apply (.number m) (.number n) = .ok (.bool true)) ∧
      ∃ m ∈ list, Native.call cfg .max (list.map Value.number) = pure (.number m) ∧
        ∀ n ∈ list, BinaryOp.greaterEqual.apply (.number m) (.number n) = .ok (.bool true) := by
  refine ⟨Number.point_int, fun u v w hu hv hw => ?_, fun a b ha hb => ?_, fun a b c ha hb hc => ?_, ?_, ?_⟩
  · rw [Value.equal_iff_key hu hu, Value.equal_iff_key hu hv, Value.equal_iff_key hv hu,
      Value.equal_iff_key hv hw, Value.equal_iff_key hu hw]
    exact ⟨rfl, Eq.symm, Eq.trans⟩
  · refine ⟨cmp a.point b.point, rfl, ?_⟩
    have hab := Number.compare?_eq_cmp ha hb
    have hba := Number.compare?_eq_cmp hb ha
    rw [← cmp_swap] at hba
    cases ho : cmp a.point b.point <;> rw [ho] at hab hba <;>
      simp [BinaryOp.apply, BinaryOp.onNumbers, Value.equal, Number.less, Number.equal,
        Number.lessEqual, hab, hba]
  · rw [Number.less_iff ha hb, Number.less_iff hb hc, Number.less_iff ha hc]
    exact lt_trans
  · intro a a' b b' ha ha' hb hb' haa hbb
    rw [Number.equal_iff ha ha'] at haa
    rw [Number.equal_iff hb hb'] at hbb
    rw [Bool.eq_iff_iff, Number.less_iff ha hb, Number.less_iff ha' hb', haa, hbb]
  · intro cfg list hne h
    cases list with
    | nil => exact absurd rfl hne
    | cons first rest =>
      obtain ⟨hleast, hle⟩ := Number.least_spec h
      obtain ⟨hgreatest, hge⟩ := Number.greatest_spec h
      have hmany : ∀ f op, Native.ofMany f ((first :: rest).map Value.number) op =
          pure (.number (op first rest)) := by
        intro f op
        rw [Native.ofMany, Native.numbers_map]
        rfl
      refine ⟨⟨_, hleast, hmany _ _, fun n hn => ?_⟩, _, hgreatest, hmany _ _, fun n hn => ?_⟩
      · rw [← hle n hn]
        rfl
      · rw [← hge n hn]
        rfl

/-- Negative zero, an end of the line, and a whole number between two neighbouring floats. -/
theorem comparisons_coherent_beyond_floats :
    let zero := Number.float (ofBits true 0)
    let low := Number.float (ofBits false (1076 * 2 ^ 52))
    let odd := Number.int (2 ^ 53 + 1)
    let top := Number.float (infinity false)
    zero.Defined ∧ low.Defined ∧ odd.Defined ∧ top.Defined ∧ zero.equal (.int 0) = true ∧
      (Value.number (.int 0)).equal (.number zero) = true ∧ low.less odd = true ∧ odd.less top = true ∧
      low.less top = true ∧ ∀ cfg, ∃ m ∈ [odd, top, low],
        Native.call cfg .max ([odd, top, low].map Value.number) = pure (.number m) ∧
          ∀ n ∈ [odd, top, low], BinaryOp.greaterEqual.apply (.number m) (.number n) = .ok (.bool true) := by
  intro zero low odd top
  have hzero : zero.Defined := by decide +kernel
  have hlow : low.Defined := by decide +kernel
  have hodd : odd.Defined := by decide +kernel
  have htop : top.Defined := by decide +kernel
  obtain ⟨-, hequal, -, htrans, -, hextremes⟩ := comparisons_coherent
  have hnone : (Number.int 0).Defined := by decide
  have hsame : (Value.number zero).equal (.number (.int 0)) = true := by decide +kernel
  have hfirst : low.less odd = true := by decide +kernel
  have hsecond : odd.less top = true := by decide +kernel
  refine ⟨hzero, hlow, hodd, htop, hsame, ?_, hfirst, hsecond, ?_, fun cfg => ?_⟩
  · exact (hequal (.number zero) (.number (.int 0)) .null hzero hnone trivial).2.1 hsame
  · exact htrans low odd top hlow hodd htop hfirst hsecond
  · refine (hextremes cfg [odd, top, low] (by simp) ?_).2
    simp only [List.forall_mem_cons]
    exact ⟨hodd, htop, hlow, by simp⟩

end Scriptlet
