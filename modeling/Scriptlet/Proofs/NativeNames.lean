import Scriptlet.Proofs.StoreContract

/-!
The standard library changes only by name. A run can give the name of a function of the standard library
another global value in two ways: by an assignment to the name, wherever it stands, and by a declaration
of the name outside of every block, `for` loop and function body. A program that holds neither leaves the
function bound to its name throughout, whatever parameters, variables and functions it gives the same name
elsewhere, and however it ends.
-/

namespace Scriptlet

/-- The words that a program declares outside of every block, `for` loop and function body. -/
def Tree.topLevel (t : Tree) : List String :=
  (t.body?.map Tree.declared).getD []

/-- The value that is bound to a word in the global scope. -/
def Machine.global? (m : Machine) (word : String) : Option Value :=
  (m.scopes.bindings Machine.globalScope).lookup (.word word)

/-- One function of the standard library is kept under its name. -/
def Native.keepsake (f : Native) : Keepsakes :=
  fun word => if word = f.name then some (.native f) else none

theorem Native.keepsake_eq_none {f : Native} {word : String} {list : List String}
    (h : f.name ∉ list) (hword : word ∈ list) : f.keepsake word = none := by
  have hne : word ≠ f.name := fun heq => h (heq ▸ hword)
  exact if_neg hne

theorem Native.initial_keepsake {f : Native} {word : String} {value : Value}
    (h : f.keepsake word = some value) :
    (Native.all.map fun f => (Name.word f.name, Value.native f)).lookup (.word word) =
      some value := by
  unfold keepsake at h
  split at h
  · rename_i heq
    cases h
    subst heq
    cases f <;> rfl
  · cases h

/-- A program that neither assigns to the name of a function of the standard library nor declares it at
the top level leaves the function bound to it, at every moment of the run and after it. -/
theorem native_global_kept (input : String) (cfg : Config) (t : Tree) (f : Native)
    (hassigned : f.name ∉ t.assigned) (hdeclared : f.name ∉ t.topLevel) :
    (∀ x ∈ (Machine.initial input).timeline cfg t Machine.globalScope,
      x.machine.global? f.name = some (.native f)) ∧
    ((Machine.initial input).run cfg t).2.global? f.name = some (.native f) := by
  have hinitial := Ledger.describes_initial f.keepsake input fun _ _ => f.initial_keepsake
  have hfits : ∀ body, t.body? = some body →
      (storeContract f.keepsake).Fits .initial (.executeAll Machine.globalScope body) := by
    intro body hbody
    refine ⟨Nat.zero_lt_one, fun word hword => ?_, fun _ word hword => ?_⟩
    · exact Native.keepsake_eq_none hassigned (Tree.assigned_body hbody hword)
    · have htop : t.topLevel = body.declared := by rw [Tree.topLevel, hbody]; rfl
      exact Native.keepsake_eq_none hdeclared (htop ▸ hword)
  obtain ⟨w, halong, hleft⟩ := (storeContract.keeps f.keepsake cfg).run hinitial hfits
  have hkept : f.keepsake f.name = some (.native f) := if_pos rfl
  refine ⟨fun x hx => ?_, hleft.kept f.name _ hkept⟩
  obtain ⟨v, -, hholds⟩ := halong.holds (List.mem_append_left _ hx)
  exact hholds.sound.kept f.name _ hkept

instance (outcome : Outcome) : Decidable (outcome = .finished) :=
  match outcome with
  | .finished => .isTrue rfl
  | .stopped _ => .isFalse Outcome.noConfusion

/-- A parameter, a variable of a block and a variable of a `for` loop are all named `print`. -/
theorem native_global_kept_shadowed :
    let t := Program.toTree ⟨[
      .function ⟨"f", ⟨4, 5⟩⟩ [⟨"print", ⟨6, 11⟩⟩]
        [.ret (some (.ident ⟨"print", ⟨22, 27⟩⟩)) ⟨15, 28⟩] ⟨13, 30⟩ ⟨0, 30⟩,
      .block [.variables [⟨⟨"print", ⟨37, 42⟩⟩,
        some (.call (.ident ⟨"f", ⟨45, 46⟩⟩) [.ident ⟨"len", ⟨47, 50⟩⟩] ⟨45, 51⟩), ⟨37, 51⟩⟩] ⟨33, 52⟩]
        ⟨31, 54⟩,
      .forLoop (some (.variables [⟨⟨"print", ⟨64, 69⟩⟩, some (.literal .null ⟨72, 76⟩), ⟨64, 76⟩⟩]
        ⟨60, 76⟩)) (some (.ident ⟨"print", ⟨78, 83⟩⟩)) none (.empty ⟨87, 88⟩) ⟨55, 88⟩], ⟨0, 88⟩⟩
    let r := (Machine.initial "").run { fuel := 5 } t
    Native.print.name ∉ t.assigned ∧ Native.print.name ∉ t.topLevel ∧ r.1 = .finished ∧
      r.2.global? "print" = some (.native .print) :=
  ⟨by decide, by decide, by decide +kernel,
    (native_global_kept "" { fuel := 5 } _ .print (by decide) (by decide)).2⟩

/-- A declaration that is the whole branch of an `if` statement stands at the top level. -/
example :
    let t := Program.toTree ⟨[.ifThen (.literal (.bool true) ⟨4, 8⟩)
      (.variables [⟨⟨"print", ⟨14, 19⟩⟩, none, ⟨14, 19⟩⟩] ⟨10, 20⟩) ⟨0, 20⟩], ⟨0, 20⟩⟩
    t.topLevel = ["print"] ∧ ((Machine.initial "").run { fuel := 5 } t).2.global? "print" = some .null :=
  ⟨by decide, rfl⟩

end Scriptlet
