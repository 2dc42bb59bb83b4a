import Scriptlet.CommandLine.Run
import Scriptlet.Proofs.RunSafety

/-!
What becomes of a file that is to be run as a tree. If the file holds data and the data is no tree, or if
the tree is that of a program, the outcome is reported: the run ends, or a line on the error output says
what is wrong. Two kinds of files are not reported (`tree_file_outcome`): a file without data, such as an
empty one, and a file with a tree that is not the tree of a program and comes to a malformed part.

Nothing is said about well-formed files in which a text has half of a surrogate pair on its own. The file
then holds an escape of such a half (`Json.holdsHalf_of_read`).
-/

namespace Scriptlet

/-! ## Half of a pair -/

namespace Json

variable {α β : Type} {half : Except ReadError Char}

/-- An escape in the text is half of a surrogate pair, and the other half is not behind it. -/
def HoldsHalf (cs : List Char) : Prop :=
  ∃ rest code after, '\\' :: 'u' :: rest <:+ cs ∧ unicodeEscape rest = some (code, after) ∧
    isHalf code = true

theorem HoldsHalf.mono {cs cs' : List Char} (h : HoldsHalf cs) (hs : cs <:+ cs') : HoldsHalf cs' := by
  obtain ⟨rest, code, after, hrest, hcode⟩ := h
  exact ⟨rest, code, after, hrest.trans hs, hcode⟩

/-- What a reader makes of a text: it goes on behind a part of the text, or it stops, at half of a pair only
if the text holds one. -/
inductive Minds (cs : List Char) : Except ReadError (α × List Char) → Prop
  | ok {a : α} {rest : List Char} (h : rest <:+ cs) : Minds cs (.ok (a, rest))
  | half (h : HoldsHalf cs) : Minds cs (.error .loneHalf)
  | failed {e : ReadError} (h : e ≠ .loneHalf) : Minds cs (.error e)

namespace Minds

variable {cs cs' : List Char}

theorem mono {r : Except ReadError (α × List Char)} (h : Minds cs r) (hs : cs <:+ cs') : Minds cs' r := by
  cases h with
  | ok h => exact .ok (h.trans hs)
  | half h => exact .half (h.mono hs)
  | failed h => exact .failed h

theorem bind {x : Except ReadError (α × List Char)} {f : α × List Char → Except ReadError (β × List Char)}
    (hx : Minds cs x) (hf : ∀ a rest, rest <:+ cs → Minds cs (f (a, rest))) : Minds cs (x >>= f) := by
  cases hx with
  | ok h => exact hf _ _ h
  | half h => exact .half h
  | failed h => exact .failed h

theorem holdsHalf (h : Minds cs (.error .loneHalf : Except ReadError (α × List Char))) :
    HoldsHalf cs := by
  cases h with
  | half h => exact h
  | failed h => exact absurd rfl h

theorem malformed : Minds cs (.error .malformed : Except ReadError (α × List Char)) :=
  .failed (by rintro ⟨⟩)

end Minds

theorem skipSpaces_suffix (cs : List Char) : skipSpaces cs <:+ cs :=
  List.dropWhile_suffix _

theorem hexUnit_suffix {cs rest : List Char} {code : Nat} (h : hexUnit cs = some (code, rest)) :
    rest <:+ cs := by
  unfold hexUnit at h
  split at h
  · rename_i a b c d rest'
    simp only [Option.bind_eq_bind, Option.bind_eq_some_iff, Option.pure_def, Option.some.injEq,
      Prod.mk.injEq] at h
    obtain ⟨-, -, -, -, -, -, -, -, -, rfl⟩ := h
    exact List.suffix_append [a, b, c, d] _
  · cases h

theorem unicodeEscape_suffix {cs rest : List Char} {code : Nat} (h : unicodeEscape cs = some (code, rest)) :
    rest <:+ cs := by
  obtain ⟨⟨high, after⟩, hhigh, h⟩ := Option.bind_eq_some_iff.1 h
  have hafter := hexUnit_suffix hhigh
  have hsingle (h : some (high, after) = some (code, rest)) : rest <:+ cs := by
    obtain ⟨-, rfl⟩ := Prod.mk.inj (Option.some.inj h)
    exact hafter
  dsimp only at h
  split at h
  · split at h
    · rename_i more
      obtain ⟨⟨low, last⟩, hlow, h⟩ := Option.bind_eq_some_iff.1 h
      have hmore : more <:+ cs := (List.suffix_append ['\\', 'u'] more).trans hafter
      dsimp only at h
      split at h
      · obtain ⟨-, rfl⟩ := Prod.mk.inj (Option.some.inj h)
        exact (hexUnit_suffix hlow).trans hmore
      · exact hsingle h
    · exact hsingle h
  · exact hsingle h

theorem minds_textBody (n : Nat) (cs : List Char) : Minds cs (textBody half n cs) := by
  fun_induction textBody half n cs with
  | case1 | case2 => exact .malformed
  | case3 => exact .ok (List.suffix_cons _ _)
  | case4 => exact .malformed
  | case5 bound rest code after hcode ih =>
    have hafter : after <:+ '\\' :: 'u' :: rest :=
      (unicodeEscape_suffix hcode).trans (List.suffix_append ['\\', 'u'] rest)
    cases hescaped : escaped half code with
    | ok c => exact (ih.mono hafter).bind fun _ _ h => .ok h
    | error e =>
      by_cases he : e = .loneHalf
      · have hhalf : isHalf code = true := by
          unfold escaped at hescaped
          split at hescaped
          · assumption
          · cases hescaped
        rw [he]
        exact .half ⟨rest, code, after, List.suffix_rfl, hcode, hhalf⟩
      · exact .failed he
  | case6 => exact .malformed
  | case7 bound c rest _ d hd ih =>
    exact (ih.mono (List.suffix_append ['\\', c] rest)).bind fun _ _ h => .ok h
  | case8 => exact .malformed
  | case9 bound c rest _ _ _ _ ih => exact (ih.mono (List.suffix_cons c rest)).bind fun _ _ h => .ok h

theorem minds_readText (n : Nat) (cs : List Char) : Minds cs (readText half n cs) := by
  unfold readText
  split
  · exact ((minds_textBody n _).mono (List.suffix_cons _ _)).bind fun _ _ h => .ok h
  · exact .malformed

theorem wholePart_suffix {cs digits rest : List Char} (h : wholePart cs = some (digits, rest)) :
    rest <:+ cs := by
  unfold wholePart at h
  split at h
  · cases h
    exact List.suffix_cons _ _
  · dsimp only at h
    split at h
    · cases h
    · cases h
      exact List.dropWhile_suffix _

theorem fractionPart_suffix (cs : List Char) : (fractionPart cs).2 <:+ cs := by
  unfold fractionPart
  split
  · dsimp only
    split
    · exact List.suffix_rfl
    · exact (List.dropWhile_suffix _).trans (List.suffix_cons _ _)
  · exact List.suffix_rfl

theorem exponentPart_suffix (cs : List Char) : (exponentPart cs).2 <:+ cs := by
  unfold exponentPart
  split
  · rename_i c rest
    split
    · have hmore : ∀ more, more <:+ rest → more.dropWhile isAsciiDigit <:+ c :: rest := fun more h =>
        ((List.dropWhile_suffix _).trans h).trans (List.suffix_cons c rest)
      split
      rename_i sign more heq
      split at heq <;> cases heq <;> dsimp only <;> split
      · exact List.suffix_rfl
      · exact hmore _ (List.suffix_cons _ _)
      · exact List.suffix_rfl
      · exact hmore _ (List.suffix_cons _ _)
      · exact List.suffix_rfl
      · exact hmore _ List.suffix_rfl
    · exact List.suffix_rfl
  · exact List.suffix_rfl

theorem numberOf_ne_loneHalf (whole exact : List Char) (isFloat : Bool) :
    numberOf whole exact isFloat ≠ .error .loneHalf := by
  unfold numberOf
  split <;> split <;> rintro ⟨⟩

theorem minds_readNumber (sign cs : List Char) : Minds cs (readNumber sign cs) := by
  unfold readNumber
  split
  · exact .malformed
  · rename_i whole after hwhole
    have hrest : (exponentPart (fractionPart after).2).2 <:+ cs :=
      ((exponentPart_suffix _).trans (fractionPart_suffix _)).trans (wholePart_suffix hwhole)
    dsimp only
    generalize hn : numberOf _ _ _ = number
    cases number with
    | ok s => exact .ok hrest
    | error e => exact .failed fun he => numberOf_ne_loneHalf _ _ _ (he ▸ hn)

theorem minds_readScalar (cs : List Char) : Minds cs (readScalar cs) := by
  unfold readScalar
  split
  · rename_i result hword
    obtain ⟨⟨word, j⟩, -, h⟩ := List.exists_of_findSome?_eq_some hword
    dsimp only at h
    split at h
    · cases h
      exact .ok (List.drop_suffix _ _)
    · cases h
  · dsimp only
    split
    · exact ((minds_readNumber _ _).mono (List.suffix_cons _ _)).bind fun _ _ h => .ok h
    · exact (minds_readNumber _ _).bind fun _ _ h => .ok h

section
variable {item : Reader α} (h : ∀ cs, Minds cs (item cs))
include h

theorem minds_skipped {rest cs : List Char} (hrest : rest <:+ cs) : Minds cs (item (skipSpaces rest)) :=
  (h _).mono ((skipSpaces_suffix rest).trans hrest)

theorem minds_readRun (closing : Char) (n : Nat) (cs : List Char) :
    Minds cs (readRun closing item n cs) := by
  induction n generalizing cs with
  | zero => exact .malformed
  | succ n ih =>
    refine (h cs).bind fun first after hafter => ?_
    dsimp only
    split
    · rename_i c more hskip
      have hmore : more <:+ cs :=
        ((List.suffix_cons c more).trans (hskip ▸ skipSpaces_suffix after)).trans hafter
      split
      · exact .ok hmore
      · split
        · exact (minds_skipped ih hmore).bind fun _ _ h => .ok h
        · exact .malformed
    · exact .malformed

end

theorem minds_readMember (n : Nat) {value : Reader Json} (h : ∀ cs, Minds cs (value cs)) (cs : List Char) :
    Minds cs (readMember half n value cs) := by
  refine (minds_readText n cs).bind fun name after hafter => ?_
  dsimp only
  split
  · rename_i more hskip
    have hmore : more <:+ cs :=
      ((List.suffix_cons ':' more).trans (hskip ▸ skipSpaces_suffix after)).trans hafter
    exact (minds_skipped h hmore).bind fun _ _ h => .ok h
  · exact .malformed

theorem minds_readValue (n room : Nat) (cs : List Char) : Minds cs (readValue half n room cs) := by
  induction room generalizing cs with
  | zero => exact .failed (by rintro ⟨⟩)
  | succ room ih =>
    unfold readValue
    split
    · exact (minds_readText n _).bind fun _ _ h => .ok h
    · rename_i rest
      have hskip := (skipSpaces_suffix rest).trans (List.suffix_cons '[' rest)
      split
      · rename_i heq
        exact .ok ((List.suffix_cons _ _).trans (heq ▸ hskip))
      · exact ((minds_readRun ih ']' n _).mono hskip).bind fun _ _ h => .ok h
    · rename_i rest
      have hskip := (skipSpaces_suffix rest).trans (List.suffix_cons '\x7b' rest)
      split
      · rename_i heq
        exact .ok ((List.suffix_cons _ _).trans (heq ▸ hskip))
      · exact ((minds_readRun (minds_readMember n ih) _ n _).mono hskip).bind fun _ _ h => .ok h
    · exact minds_readScalar _

theorem holdsHalf_of_readWhole {s : String} (h : readWhole half s = .error .loneHalf) :
    HoldsHalf s.toList := by
  have hminds : Minds s.toList
      (readValue half (s.toList.length + 1) nestingLimit (skipSpaces s.toList)) :=
    minds_skipped (minds_readValue _ _) List.suffix_rfl
  unfold readWhole at h
  dsimp only at h
  cases hvalue : readValue half (s.toList.length + 1) nestingLimit (skipSpaces s.toList) with
  | error e =>
    rw [hvalue] at h hminds
    cases h
    exact hminds.holdsHalf
  | ok p =>
    rw [hvalue] at h
    change (if _ then _ else _) = _ at h
    split at h <;> cases h

/-- A text is refused for half of a pair only if it holds one. -/
theorem holdsHalf_of_read {s : String} (h : read s = .error .loneHalf) : HoldsHalf s.toList := by
  unfold read at h
  cases hform : readWhole (.ok '\ufffd') s with
  | error e =>
    rw [hform] at h
    cases h
    exact holdsHalf_of_readWhole hform
  | ok j =>
    rw [hform] at h
    exact holdsHalf_of_readWhole h

-- A text that is not well formed is told as such, whatever its escapes are.
example : read "[\"\\ud800\"]" = .error .loneHalf ∧ read "[\"\\ud800\"" = .error .malformed := by
  constructor <;> rfl

end Json

namespace CommandLine

/-- A run never ends for want of room: this is an error like others. -/
theorem run_ne_noRoom (m : Machine) (cfg : Config) (t : Tree) (s : Nat) :
    (m.run cfg t s).1 ≠ .stopped .noRoom := by
  unfold Machine.run Eval.program
  cases (do Eval.executeAll cfg cfg.room s (← Eval.need t.body?) : Eval Completion) m with
  | ok done m' => cases done <;> nofun
  | error i m' => cases i <;> nofun

/-- What is reported of the run of a tree. -/
inductive Reported (t : Tree) (r : Report) : Prop
  | finished (hexit : r.exit = .code 0) (herrors : r.errors = "")
  | failed {message : String} (hexit : r.exit = .code 1)
      (herrors : r.errors = "Runtime error: " ++ message ++ "\n")
  /-- The program does not end. -/
  | endless (hexit : r.exit = .crash .noFuel)
  /-- The run comes to a malformed part. -/
  | fault {f : Fault} (hexit : r.exit = .crash (.fault f)) (ht : ∀ p : Program, t ≠ p.toTree)

theorem reported_runTree (o : Options) (setting : Setting) (t : Tree) :
    Reported t (runTree o setting t).1 := by
  unfold runTree
  dsimp only
  generalize hcfg : Config.mk o.verbosity o.maxDepth nestingLimit setting.fuel true setting.clock = cfg
  have hroom := run_ne_noRoom (.initial setting.input) cfg t Machine.globalScope
  have hsafe : ∀ p : Program, t = p.toTree → ∀ f,
      ((Machine.initial setting.input).run cfg t).1 ≠ .stopped (.fault f) := by
    rintro p rfl f hfault
    rcases run_toTree_safe p (initial_good setting.input) cfg Machine.globalScope with
      hrun | hrun | ⟨e, hrun, -⟩ <;> cases hrun.symm.trans hfault
  generalize (Machine.initial setting.input).run cfg t = r at hroom hsafe
  obtain ⟨outcome, m⟩ := r
  cases outcome with
  | finished => exact .finished rfl rfl
  | stopped i =>
    cases i with
    | error e => exact .failed rfl rfl
    | fault f => exact .fault rfl fun p hp => hsafe p hp f rfl
    | noRoom => exact absurd rfl hroom
    | noFuel => exact .endless rfl

/-- For every text of the file: the text holds no data, and the program stops without a report; or the data
is no tree, which is reported; or it is a tree, whose run is reported unless the tree is not that of a
program and the run comes to a malformed part of it. Nothing is said of a text that is well formed and holds
half of a surrogate pair on its own. -/
theorem tree_file_outcome (o : Options) (setting : Setting) (path text : String) :
    let source := String.ofList (unifyLines text.toList)
    let r := (performFound o setting (.runTree path) (.text text)).1
    (Json.read source = .error .loneHalf ∧ Json.HoldsHalf source.toList ∧ r = { exit := .untold }) ∨
    (∃ e ≠ .loneHalf, Json.read source = .error e ∧ r = { exit := .crash (.badJson e) }) ∨
    ∃ j, Json.read source = .ok j ∧
      ((∃ e, Tree.decode j = .error e ∧
          r = { exit := .code 1, errors := "Error: invalid AST file: " ++ e.message ++ "\n" }) ∨
        ∃ t, Tree.decode j = .ok t ∧ Reported t r) := by
  intro source r
  have hr : r = (perform o setting (.runTree path) source).1 := rfl
  rw [hr, perform]
  cases hread : Json.read source with
  | error e =>
    by_cases he : e = .loneHalf
    · rw [he] at hread ⊢
      exact .inl ⟨rfl, Json.holdsHalf_of_read hread, rfl⟩
    · refine .inr (.inl ⟨e, he, rfl, ?_⟩)
      cases e with
      | loneHalf => exact absurd rfl he
      | malformed | tooManyDigits | tooDeep => rfl
  | ok j =>
    refine .inr (.inr ⟨j, rfl, ?_⟩)
    dsimp only
    cases hdecode : Tree.decode j with
    | error e => exact .inl ⟨e, rfl, rfl⟩
    | ok t => exact .inr ⟨t, rfl, reported_runTree o setting t⟩

/-- The empty file is not reported. -/
theorem tree_file_empty :
    performFound { ast := some "a.json" } { fuel := 1 } (.runTree "a.json") (.text "") =
      ({ exit := .crash (.badJson .malformed) }, false) := by
  rfl

/-- A file with a number, which is data and a tree, is not reported either. -/
theorem tree_file_number :
    performFound { ast := some "a.json" } { fuel := 1 } (.runTree "a.json") (.text "5") =
      ({ exit := .crash (.fault .missingPart) }, false) := by
  rfl

end CommandLine

end Scriptlet
