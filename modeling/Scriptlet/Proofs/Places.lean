import Scriptlet.Proofs.Outlines
import Scriptlet.Proofs.RunSafety

/-!
Where the nodes of a parsed program stand. They are those of its outline, so they lie inside the text.

Together with the safety of runs this bounds the places of errors: `run_parsed_safe` says that a run
of an accepted text only ever stops at one of its nodes.
-/

namespace Scriptlet

/-- All nodes of a tree lie between two places. -/
def Tree.Inside (low high : Nat) (t : Tree) : Prop :=
  ∀ place ∈ t.places, ∃ start stop, place = .list [.ofNat start, .ofNat stop] ∧ low ≤ start ∧
    start ≤ stop ∧ stop ≤ high

theorem Tree.mem_placesAll {place : Tree} {list : List Tree} :
    place ∈ Tree.placesAll list ↔ ∃ t ∈ list, place ∈ t.places := by
  induction list with
  | nil => simp [Tree.placesAll]
  | cons t rest ih => simp [Tree.placesAll, ih]

/-- The nodes of a parsed program lie inside its text. -/
theorem toTree_inside_of_parse {table : KeywordTable} {source : String} {p : Program}
    (htable : ∀ k, "" ∉ table.spellings k) (h : parse table source = .ok p) :
    p.toTree.Inside 0 source.length := by
  obtain ⟨hspan, hrow⟩ := row_of_parse htable h
  intro place hplace
  rw [p.places_toTree, List.mem_map, Program.outline, hspan, Outline.nodes] at hplace
  obtain ⟨node, hnode, rfl⟩ := hplace
  refine ⟨_, _, rfl, Nat.zero_le _, ?_⟩
  rcases List.mem_cons.1 hnode with rfl | hnode
  · exact ⟨Nat.zero_le _, Nat.le_refl _⟩
  · obtain ⟨hnested, hstop⟩ := hrow.nodesAll node hnode
    exact ⟨Nat.le_of_lt hnested.lt, hstop⟩

/-- A run of an accepted text ends, is given up because a loop goes round too often, or stops with one
of the nine errors, at the place of a node of the program and so inside the text. -/
theorem run_parsed_safe (table : KeywordTable) (htable : ∀ k, "" ∉ table.spellings k)
    (source : String) (p : Program) (h : parse table source = .ok p) (input : String)
    (cfg : Config) :
    ((Machine.initial input).run cfg p.toTree).1 = .finished ∨
      ((Machine.initial input).run cfg p.toTree).1 = .stopped .noFuel ∨
      ∃ e start stop, ((Machine.initial input).run cfg p.toTree).1 = .stopped (.error e) ∧
        e.cause.name ∈ ["UndefinedVariable", "NotCallable", "ArityMismatch", "StackOverflow",
          "OperandMustBeNumber", "TypeMismatch", "DivisionByZero", "NumericOverflow",
          "ReturnOutsideFunction"] ∧
        e.place = some (.ofNat start, .ofNat stop) ∧
        .list [.ofNat start, .ofNat stop] ∈ p.toTree.places ∧
        start ≤ stop ∧ stop ≤ source.length := by
  rcases run_toTree_safe p (initial_good input) cfg Machine.globalScope with hrun | hrun |
    ⟨e, hrun, a, b, hplace, hmem⟩
  · exact .inl hrun
  · exact .inr (.inl hrun)
  · obtain ⟨start, stop, heq, -, hle, hlength⟩ := toTree_inside_of_parse htable h _ hmem
    obtain ⟨rfl, rfl⟩ : a = .ofNat start ∧ b = .ofNat stop := by simpa using heq
    exact .inr (.inr ⟨e, start, stop, hrun, e.cause.name_mem, hplace, hmem, hle, hlength⟩)

/-- A call that passes the check of its arguments and then adds a number to nothing. -/
theorem run_parsed_safe_addition :
    ∃ p, parse .default "def f(a) { return 1 + a; } f(null)" = .ok p ∧
      ∀ fault, ((Machine.initial "").run { fuel := 3 } p.toTree).1 ≠ .stopped (.fault fault) := by
  obtain ⟨p, hp⟩ := exists_of_isOk (by decide +kernel :
    (parse .default "def f(a) { return 1 + a; } f(null)").isOk = true)
  refine ⟨p, hp, fun fault hfault => ?_⟩
  have htable : ∀ k, "" ∉ KeywordTable.default.spellings k := by decide
  rcases run_parsed_safe .default htable _ p hp "" { fuel := 3 } with hrun | hrun |
    ⟨e, start, stop, hrun, -⟩
  all_goals cases hfault.symm.trans hrun

end Scriptlet
