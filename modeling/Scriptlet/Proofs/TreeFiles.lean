import Scriptlet.CommandLine.Run
import Scriptlet.Proofs.FrontEnds
import Scriptlet.Proofs.TreeCodec

/-!
Files that hold the trees of programs. Whichever parser reads a program, its tree can be written: the
descent parser puts all nodes inside the text, and the places that the productions give are those of
tokens. So the file that is written for a program is read back as its tree, and `run_emitted_tree` says
that running the file is running the program.
-/

namespace Scriptlet

/-! ## Places that the productions give -/

theorem Expr.span_storable {e : Expr} (h : e.toTree.PlacesStorable) : e.span.Storable := by
  cases e with
  | literal value => cases value <;> exact (Tree.placesStorable_node.1 h).1
  | ident | unary | binary | logical | assign | call => exact (Tree.placesStorable_node.1 h).1

namespace Grammar

/-- The trees of the nodes of a part. A token counts as a name would. -/
def Part.trees : Part → List Tree
  | .token t => [(identOf t).toTree]
  | .expr e => [e.toTree]
  | .exprs list => list.map Expr.toTree
  | .operands list => list.map (·.2.toTree)
  | .declaration d => [d.toTree]
  | .declarations list => list.map Declaration.toTree
  | .variables list span => [Declaration.listToTree list span]
  | .init i => [i.toTree]
  | .idents list => list.map Ident.toTree
  | .stmt s => [s.toTree]
  | .stmts list => list.map Stmt.toTree

theorem placesStorable_build {level : Parser.Level} {left right : Expr} {span : Span} (text : String)
    (hleft : left.toTree.PlacesStorable) (hright : right.toTree.PlacesStorable)
    (hspan : span.Storable) : (level.build text left right span).toTree.PlacesStorable := by
  cases level <;>
    simp [Parser.Level.build, Expr.toTree, Tree.placesStorable_node, Tree.placesStorable_scalar, *]

theorem placesStorable_joinOperands {level : Parser.Level} {list : List (Token × Expr)}
    (h : ∀ x ∈ list, x.2.toTree.PlacesStorable) {e : Expr} (he : e.toTree.PlacesStorable) :
    (joinOperands level e list).toTree.PlacesStorable := by
  induction list generalizing e with
  | nil => exact he
  | cons x list ih =>
    rw [List.forall_mem_cons] at h
    exact ih h.2 (placesStorable_build _ he h.1
      ⟨(Expr.span_storable he).1, (Expr.span_storable h.1).2⟩)

theorem placesStorable_declaration {id : Ident} {init : Option Expr} {span : Span} :
    (Declaration.toTree ⟨id, init, span⟩).PlacesStorable ↔
      span.Storable ∧ id.toTree.PlacesStorable ∧ (Tree.ofOption Expr.toTree init).PlacesStorable := by
  simp only [Declaration.toTree, Tree.placesStorable_node, List.forall_mem_cons, List.not_mem_nil,
    false_implies, implies_true, and_true]

theorem placesStorable_forClauses {init test update : Bool} {parts : List Part} {i : Option ForInit}
    {a b : Option Expr} {s : Stmt} (h : forClauses init test update parts = some (i, a, b, s))
    (hparts : ∀ q ∈ parts, ∀ t ∈ q.trees, t.PlacesStorable) :
    (Tree.ofOption ForInit.toTree i).PlacesStorable ∧ (Tree.ofOption Expr.toTree a).PlacesStorable ∧
      (Tree.ofOption Expr.toTree b).PlacesStorable ∧ s.toTree.PlacesStorable := by
  unfold forClauses at h
  split at h <;> cases h
  all_goals
    simp only [List.forall_mem_cons, List.not_mem_nil, false_implies, implies_true, and_true,
      Part.trees.eq_2, Part.trees.eq_8, Part.trees.eq_10, Tree.ofOption.eq_1, Tree.ofOption.eq_2,
      Tree.placesStorable_scalar] at hparts ⊢
    tauto

/-- A form makes nodes of its parts, with the place that is given for the node. -/
theorem placesStorable_assemble {form : Form} {span : Span} {parts : List Part} {p : Part}
    (h : assemble form span parts = some (.ok p)) (hspan : span.Storable)
    (hparts : ∀ q ∈ parts, ∀ t ∈ q.trees, t.PlacesStorable) : ∀ t ∈ p.trees, t.PlacesStorable := by
  unfold assemble at h
  -- Only loops, chains of operands and numbers are left: the nodes of the other forms have the parts
  -- themselves for fields.
  split at h <;> try cases h
  all_goals try simp only [List.forall_mem_cons, List.not_mem_nil, false_implies, implies_true,
    and_true, Part.trees.eq_1, Part.trees.eq_2, Part.trees.eq_3, Part.trees.eq_4, Part.trees.eq_5,
    Part.trees.eq_6, Part.trees.eq_7, Part.trees.eq_8, Part.trees.eq_9, Part.trees.eq_10,
    Part.trees.eq_11, List.map_append, List.map_cons, List.map_nil, List.forall_mem_append,
    Declaration.listToTree, Tree.placesStorable_node, Tree.placesStorable_list,
    placesStorable_declaration, Expr.toTree, Stmt.toTree, Expr.toTrees_eq_map, Stmt.toTrees_eq_map,
    ForInit.toTree.eq_1, ForInit.toTree.eq_2, Literal.toTree.eq_2, Literal.toTree.eq_3,
    Literal.toTree.eq_4, Tree.ofOption.eq_1, Tree.ofOption.eq_2, Tree.placesStorable_scalar,
    true_and] at hparts ⊢
  all_goals try tauto
  · obtain ⟨⟨i, a, b, s⟩, hclauses, hok⟩ := Option.map_eq_some_iff.1 h
    cases hok
    obtain ⟨hi, ha, hb, hs⟩ := placesStorable_forClauses hclauses hparts
    simp only [Part.trees.eq_10, Stmt.toTree, List.forall_mem_cons, List.not_mem_nil, false_implies,
      implies_true, and_true, Tree.placesStorable_node]
    exact ⟨hspan, hi, ha, hb, hs⟩
  · exact placesStorable_joinOperands (List.forall_mem_map.1 hparts.2) hparts.1
  · rename_i t
    cases hn : Number.read t.text with
    | error fault =>
      rw [hn] at h
      cases h
    | ok n =>
      rw [hn] at h
      cases h
      exact List.forall_mem_singleton.2 (Tree.placesStorable_node.2
        ⟨hspan, List.forall_mem_singleton.2 (Tree.placesStorable_scalar _)⟩)

theorem storable_coveredSpan {parts : List Attribute} (h : ∀ a ∈ parts, a.span.Storable) :
    (coveredSpan parts).Storable := by
  unfold coveredSpan
  split
  · rename_i first last hfirst hlast
    exact ⟨(h first (List.mem_of_head? hfirst)).1, (h last (List.mem_of_getLast? hlast)).2⟩
  · exact ⟨by positivity, by positivity⟩

theorem exists_of_mapM_part {attributes : List Attribute} {made : List Part}
    (h : attributes.mapM (·.part) = Except.ok made) :
    ∀ q ∈ made, ∃ a ∈ attributes, a.part = .ok q := by
  induction attributes generalizing made with
  | nil =>
    cases h
    nofun
  | cons a attributes ih =>
    obtain ⟨p, rest, hp, hrest, rfl⟩ := mapM_part_cons.1 h
    rw [List.forall_mem_cons]
    refine ⟨⟨a, List.mem_cons_self, hp⟩, fun q hq => ?_⟩
    obtain ⟨b, hb, hpart⟩ := ih hrest q hq
    exact ⟨b, List.mem_cons_of_mem _ hb, hpart⟩

/-- The places of what the productions make of tokens can be written if those of the tokens can. -/
theorem Builds.placesStorable {next : TokenType} {symbols : List Symbol} {w : List Token}
    {parts : List Attribute} (h : Builds next symbols w parts) (hw : ∀ t ∈ w, t.span.Storable) :
    ∀ a ∈ parts, a.span.Storable ∧ ∀ p, a.part = .ok p → ∀ t ∈ p.trees, t.PlacesStorable := by
  induction h with
  | nil => nofun
  | @token next t symbols w parts _ ih =>
    rw [List.forall_mem_cons] at hw ⊢
    refine ⟨⟨hw.1, ?_⟩, ih hw.2⟩
    rintro p ⟨⟩
    exact List.forall_mem_singleton.2 (Tree.placesStorable_node.2
      ⟨hw.1, List.forall_mem_singleton.2 (Tree.placesStorable_scalar _)⟩)
  | @rule next r symbols v w inner parts _ _ _ _ ihi ih =>
    rw [List.forall_mem_append] at hw
    rw [List.forall_mem_cons]
    refine ⟨?_, ih hw.2⟩
    have hinner := ihi hw.1
    have hspan := storable_coveredSpan fun a ha => (hinner a ha).1
    refine ⟨hspan, fun p hp => ?_⟩
    obtain ⟨made, hmade, hp⟩ := Form.apply_part.1 hp
    cases hassemble : assemble r.form (coveredSpan inner) made with
    | none =>
      rw [hassemble] at hp
      cases hp
      nofun
    | some result =>
      rw [hassemble] at hp
      obtain rfl : result = .ok p := hp
      refine placesStorable_assemble hassemble hspan fun q hq => ?_
      obtain ⟨a, ha, hpart⟩ := exists_of_mapM_part hmade q hq
      exact (hinner a ha).2 q hpart

theorem placesStorable_of_parseTokens {length : Nat} {tokens : Lexer.Tokens} {p : Program}
    (hreg : ∀ t ∈ tokens.tokens, t.Regular) (hw : ∀ t ∈ tokens.tokens, t.span.Storable)
    (hlength : length < 10 ^ Decimal.digitLimit) (h : parseTokens length tokens = .ok p) :
    p.toTree.PlacesStorable := by
  unfold parseTokens at h
  dsimp only at h
  split at h
  · rename_i a hrun
    obtain ⟨w, eof, u, hinput, htype, hbuilds⟩ := builds_of_run hrun
    obtain ⟨rfl, -⟩ := ending_of_append hreg htype hinput
    obtain ⟨-, hparts⟩ := hbuilds.placesStorable hw a List.mem_cons_self
    unfold finish at h
    split at h
    · cases h
    · cases hpart : a.part with
      | error e =>
        rw [hpart] at h
        cases h
      | ok part =>
        obtain ⟨body, rfl, -⟩ := derivesWhole_of_builds Placing.free_covers hbuilds hreg hpart
        rw [hpart] at h
        cases h
        refine Tree.placesStorable_node.2 ⟨⟨by positivity, hlength⟩,
          List.forall_mem_singleton.2 (Tree.placesStorable_list.2 ?_)⟩
        rw [Stmt.toTrees_eq_map]
        exact hparts _ hpart
  · cases h
  · cases h
  · cases h

end Grammar

theorem Ordered.storable {w : List Token} {low high : Nat} (h : Ordered low w high)
    (hhigh : high < 10 ^ Decimal.digitLimit) : ∀ t ∈ w, t.span.Storable := by
  induction w generalizing low with
  | nil => nofun
  | cons t w ih =>
    obtain ⟨-, hstop, hrest⟩ := h
    rw [List.forall_mem_cons]
    refine ⟨?_, ih hrest⟩
    have hle := hrest.le
    exact ⟨Nat.lt_of_le_of_lt (Nat.le_trans hstop hle) hhigh, Nat.lt_of_le_of_lt hle hhigh⟩

/-! ## Programs that were read -/

section

variable {table : KeywordTable} (hp : table.Proper) {source : String} {p : Program}

/-- The numbers of a program can be written, whichever parser read it. -/
theorem storable_of_found {c c' : Lexer.Cursor} {w : List Token} {atoms : List Atom}
    (hscans : Lexer.Scans (Lexer.rules table) c w c') (h : Found w atoms) :
    ∀ a ∈ atoms, a.Storable := by
  intro a ha
  rcases h a ha with ⟨k, rfl⟩ | ⟨t, ht, hfrom⟩
  · exact trivial
  cases a with
  | name | text | keyword => exact trivial
  | number n =>
    obtain ⟨hnumber, hread⟩ := hfrom
    rw [← String.ofList_toList (s := t.text)] at hread
    rcases Decimal.number_of_isNumeral (hscans.isNumeral t ht hnumber) hread with
      ⟨k, rfl, hk⟩ | ⟨digits, e, rfl⟩
    · exact hk
    · change Binary.decode _ ≠ .nan
      rcases Decimal.decode_toFloat false digits e with h | ⟨m, q, h⟩ <;> rw [h] <;> rintro ⟨⟩

include hp

theorem storable_of_parse (hlength : source.length < 10 ^ Decimal.digitLimit)
    (h : parse table source = .ok p) : p.toTree.Storable := by
  obtain ⟨eof, heof, htype⟩ := exists_end_of_parse hp.ne_empty h
  obtain ⟨c, hscans, -⟩ := Lexer.scans_of_scan heof htype
  exact p.storedWith ((toTree_inside_of_parse hp.ne_empty h).placesStorable hlength)
    (storable_of_found hscans (derives_of_parse heof htype h).found)

theorem Grammar.storable_of_parse (hlength : source.length < 10 ^ Decimal.digitLimit)
    (h : Grammar.parse table source = .ok p) : p.toTree.Storable := by
  obtain ⟨eof, heof, htype, hwhole⟩ := Grammar.derivesWhole_of_parse hp h
  obtain ⟨c, hscans, hend⟩ := Lexer.scans_of_scan heof htype
  rw [Grammar.parse_eq hp] at h
  exact p.storedWith (Grammar.placesStorable_of_parseTokens (Lexer.regular_scan table source)
    (hscans.ordered.storable (hscans.offset_of_end hend ▸ hlength)) hlength h)
    (storable_of_found hscans (derivesWhole_iff.1 hwhole).1.found)

end

namespace CommandLine

/-! ## Files -/

theorem unifyLines_of_none {cs : List Char} (h : '\r' ∉ cs) : unifyLines cs = cs := by
  induction cs with
  | nil => rfl
  | cons c cs ih =>
    rw [List.mem_cons, not_or] at h
    rw [unifyLines, ih h.2]
    · rintro _ rfl
      exact absurd rfl h.1
    · rintro rfl
      exact absurd rfl h.1

theorem length_unifyLines_le (cs : List Char) : (unifyLines cs).length ≤ cs.length := by
  fun_induction unifyLines cs with
  | case1 => exact Nat.le_refl _
  | case2 rest ih => simp only [List.length_cons]; omega
  | case3 rest _ ih => simp only [List.length_cons]; omega
  | case4 c rest _ _ ih => simp only [List.length_cons]; omega

/-- The program that the parser in use finds in a text. -/
def program (o : Options) (source : String) : Except SyntaxError Program :=
  if o.byTable then Grammar.parse .default source else parse .default source

variable {o : Options} {source : String} {p : Program}

theorem parseWith_of_ok (h : program o source = .ok p) : parseWith o source = .ok p := by
  unfold program at h
  unfold parseWith
  dsimp only
  rw [h]

theorem parseWith_of_error {e : SyntaxError} (h : program o source = .error e)
    (he : ∀ fault, e ≠ .badNumber fault) :
    parseWith o source = .error (failure ("Parse error: " ++ syntaxMessage e)) := by
  unfold program at h
  unfold parseWith
  dsimp only
  rw [h]
  cases e with
  | badNumber fault => exact absurd rfl (he fault)
  | lexical | unexpected | invalidTarget | tooDeep | badTable => rfl

theorem storable_of_program (hlength : source.length < 10 ^ Decimal.digitLimit)
    (h : program o source = .ok p) : p.toTree.Storable := by
  unfold program at h
  split at h
  · exact Grammar.storable_of_parse KeywordTable.default_proper hlength h
  · exact storable_of_parse KeywordTable.default_proper hlength h

/-- The file that is written for a program holds its tree, places and all. -/
theorem exists_emitTree (hp : p.toTree.Storable) (hheight : p.toTree.height < nestingLimit) (path : String) :
    ∃ j, p.toTree.encode = .ok j ∧ Json.read j.render = .ok j ∧ Tree.decode j = .ok p.toTree ∧
      String.ofList (unifyLines j.render.toList) = j.render ∧
      emitTree path p = { exit := .code 0, output := path ++ ".ast.json" ++ "\n"
                          files := [(path ++ ".ast.json", j.render)] } := by
  obtain ⟨j, hj, hstore, hdecode⟩ := Tree.exists_encode hp
  refine ⟨j, hj, Json.read_render (hstore.mono hheight), hdecode [], ?_, ?_⟩
  · rw [Json.render, unifyLines_of_none (Json.return_not_mem_write hstore 0), String.ofList_toList]
  · rw [emitTree, Tree.toJson, if_pos hheight, hj]

/-- Writing the tree of a program to a file and running the file is the same as running the program. If
the parser in use accepts the text of a program, the file that is written for it holds the data of the
tree, from which the tree is read back with all its places; and a run of the file gives the same report
as a run of the text, whatever the verbosity, the depth limit and the input. If the parser rejects the
text, nothing is written. -/
theorem run_emitted_tree (o : Options) (setting : Setting) (path text : String)
    (hlength : text.length < 10 ^ Decimal.digitLimit) :
    (∀ p, program o (String.ofList (unifyLines text.toList)) = .ok p →
      p.toTree.height < nestingLimit →
      ∃ j file, p.toTree.encode = .ok j ∧ Json.read file = .ok j ∧ Tree.decode j = .ok p.toTree ∧
        performFound o setting (.emit path) (.text text) =
          ({ exit := .code 0, output := path ++ ".ast.json" ++ "\n"
             files := [(path ++ ".ast.json", file)] }, false) ∧
        ∀ (ofTree ofProgram : Options) (setting : Setting) (treePath programPath : String),
          ofTree.verbosity = ofProgram.verbosity → ofTree.maxDepth = ofProgram.maxDepth →
          ofProgram.byTable = o.byTable →
          performFound ofTree setting (.runTree treePath) (.text file) =
            performFound ofProgram setting (.runProgram programPath) (.text text)) ∧
    ∀ e, program o (String.ofList (unifyLines text.toList)) = .error e →
      (∀ fault, e ≠ .badNumber fault) →
      performFound o setting (.emit path) (.text text) =
        ({ exit := .code 1, output := ""
           errors := "Parse error: " ++ syntaxMessage e ++ "\n", files := [] }, false) := by
  constructor
  · intro p hparse hheight
    have hsource : (String.ofList (unifyLines text.toList)).length < 10 ^ Decimal.digitLimit := by
      rw [String.length_ofList]
      rw [← String.length_toList] at hlength
      exact Nat.lt_of_le_of_lt (length_unifyLines_le _) hlength
    obtain ⟨j, hj, hread, hdecode, hlines, hemit⟩ :=
      exists_emitTree (storable_of_program hsource hparse) hheight path
    refine ⟨j, j.render, hj, hread, hdecode, ?_, ?_⟩
    · rw [performFound, perform, parseWith_of_ok hparse]
      dsimp only
      rw [hemit]
    · intro ofTree ofProgram setting treePath programPath hverbosity hdepth htable
      have hprogram : program ofProgram (String.ofList (unifyLines text.toList)) = .ok p := by
        rw [← hparse, program, program, htable]
      rw [performFound, performFound, hlines, perform, perform, hread, parseWith_of_ok hprogram]
      dsimp only
      rw [hdecode]
      dsimp only
      rw [runTree, runTree, hverbosity, hdepth]
  · intro e hparse he
    rw [performFound, perform, parseWith_of_error hparse he]
    rfl

/-- Two lines with a text that has to be escaped. -/
theorem run_emitted_tree_escaped :
    ∃ p file, program {} "let s = '\t\"';\nprint(s + 2, 12)" = .ok p ∧
      performFound {} { fuel := 0 } (.emit "a") (.text "let s = '\t\"';\r\nprint(s + 2, 12)") =
        ({ exit := .code 0, output := "a.ast.json\n", files := [("a.ast.json", file)] }, false) ∧
      performFound { verbosity := 2 } { fuel := 9 } (.runTree "a.ast.json") (.text file) =
        performFound { verbosity := 2 } { fuel := 9 } (.runProgram "a")
          (.text "let s = '\t\"';\r\nprint(s + 2, 12)") := by
  have hlines : String.ofList (unifyLines "let s = '\t\"';\r\nprint(s + 2, 12)".toList) =
      "let s = '\t\"';\nprint(s + 2, 12)" := by decide
  have hlength : "let s = '\t\"';\r\nprint(s + 2, 12)".length < 10 ^ Decimal.digitLimit :=
    Nat.lt_of_lt_of_le (by decide : _ < 10 ^ 2) (Nat.pow_le_pow_right (by decide) (by decide))
  obtain ⟨p, hp, hheight⟩ := exists_ok_of_map (by decide +kernel :
    (program {} "let s = '\t\"';\nprint(s + 2, 12)").map (decide <| ·.toTree.height < nestingLimit) =
      .ok true)
  have hrun := (run_emitted_tree {} { fuel := 0 } "a" _ hlength).1 p
  rw [hlines] at hrun
  obtain ⟨j, file, -, -, -, hemit, hsame⟩ := hrun hp (of_decide_eq_true hheight)
  exact ⟨p, file, hp, hemit, hsame { verbosity := 2 } { verbosity := 2 } _ _ _ rfl rfl rfl⟩

end CommandLine

end Scriptlet
