/-
The generated text is the rendering of the program.

- `laid_program`: the insertions for a whole program are laid out as its rendering, the preamble behind its directives;
- `resolve_eq_map`: ids come in where insertions are recorded, or where they are written;
- `generate_eq_rendering`: a program whose spans nest has a text, namely its rendering with ids for addresses. Without the
  insertions it is the source.
-/
import Turnstile.Proofs.Emit.Nesting
import Turnstile.Proofs.Emit.Resolution

namespace Turnstile

/-! ## Whole programs -/

namespace Node

variable {text : String} {data : ByteArray} {span : Span} {body : List Node}

theorem parts_program (data : ByteArray) (a : Address) (span : Span) (body : List Node) :
    (program span body).parts data a = (placedFrom a 0 body).map fun p => (p, Setting.bare p) := by
  simp [parts, placed, children, settings, zip_placedFrom, -List.map_const']

/-- a program inserts nothing by itself -/
theorem edits_program (data : ByteArray) (hw : WellPlaced true (program span body)) :
    (program span body).edits data none .root =
      ((program span body).parts data .root).flatMap (partInsertions data) := by
  cases hw with
  | other notFunction plain clauses placed =>
    have hready : ∀ c ∈ body, c.StartsPlain := fun c hc => startsPlain_of_wellPlaced (placed c hc)
    rw [edits_eq_leading, inner_eq_of_roles data .root rfl rfl clauses hready]
    rfl

theorem ready_program (hw : WellPlaced true (program span body)) (hlaminar : (program span body).Laminar text .root)
    (hcomplete : ∀ p ∈ (program span body).preorder .root, p.2.isComplete = true) :
    ∀ x ∈ (program span body).parts data .root, Ready text data (text.toUTF8.size + 1) x := by
  intro x hx
  have hmem := mem_placed_of_mem_parts hx
  rw [parts_program] at hx
  obtain ⟨p, hp, rfl⟩ := List.mem_map.1 hx
  cases hw with
  | other notFunction plain clauses placed =>
    have hrenders : p.2.Renders text data p.1 := by
      refine renders_of_wellPlaced (placed p.2 (mem_of_mem_placedFrom hmem)) p.1 (hlaminar.of_mem_placed hmem) ?_
      exact fun q hq => hcomplete q (mem_preorder_of_mem_placed hmem hq)
    obtain ⟨-, -, hboundary, hboundary'⟩ := hlaminar.partKnown hmem hrenders
    exact ⟨hboundary, hrenders, trivial, hboundary'.le_size.trans (Nat.le_succ _), Nat.le_succ _⟩

end Node

/-- **The insertions for a program are laid out as its rendering.** -/
theorem laid_program {text : String} {span : Span} {body : List Node} (style : EmitStyle) {src : SourceText}
    (map : CoverageMap) (key : String) (hdata : src.data = text.toUTF8) (hw : WellPlaced true (.program span body))
    (hlaminar : (Node.program span body).Laminar text .root)
    (hcomplete : ∀ p ∈ (Node.program span body).preorder .root, p.2.isComplete = true) :
    Laid text 0 text.toUTF8.size (text.toUTF8.size + 1) (programEdits style src (.program span body) map key)
      (renderProgram style src (.program span body) map key) := by
  have hself := Node.self_mem_preorder .root (Node.program span body)
  have hstop := (hlaminar.boundary _ hself _ (Node.stop_mem_offsets _)).le_size
  have horder : InOrder text.toUTF8.size 0 body := InOrder.mono (hlaminar.inOrder _ hself) (Nat.zero_le _) hstop
  obtain ⟨hfront, hback, hplace⟩ := horder.afterDirectives src.data
  have hboundary : Boundary text (Node.afterDirectives src.data body 0).1 := by
    rcases hplace with hplace | ⟨d, hd, hplace⟩
    · rw [hplace]
      exact boundary_zero text
    · rw [hplace]
      exact hlaminar.boundary_stop hd
  have hparts := Node.parts_program src.data .root span body
  have hnodes : ((Node.program span body).parts src.data .root).map (fun x => x.1.2) = body :=
    Node.map_node_parts src.data .root _
  have hitems : ((Node.program span body).parts src.data .root).map (Node.item src.data) =
      (Node.placedFrom .root 0 body).map fun p =>
        (Setting.bare p).item (fun code => p.2.render src.data p.1 code) p.2 := by
    rw [hparts, List.map_map]
    rfl
  have hsize : src.data.size = text.toUTF8.size := congrArg ByteArray.size hdata
  rw [programEdits, Node.edits_program src.data hw, renderProgram]
  simp only [Node.directiveEdits_eq, Node.programBody, ← List.map_cons]
  rw [← hitems, hsize]
  refine Node.laid_insertCode ?_ ?_ hboundary (boundary_size text) (Or.inr (Nat.lt_succ_of_le hback.le))
    (Node.ready_program hw hlaminar hcomplete) ?_
  · rw [List.map_take, hnodes]
    exact hfront
  · rw [List.map_drop, hnodes]
    exact hback
  · intro x hx
    rw [hparts] at hx
    obtain ⟨p, -, rfl⟩ := List.mem_map.1 hx
    exact le_rfl

/-! ## Insertions with ids -/

namespace CoverageIndex

variable {index : CoverageIndex}

/-- a snippet with the id of its address, if that has one -/
def snippet (index : CoverageIndex) (s : Snippet Address) : Snippet ℕ :=
  ⟨s.before, s.counter.bind fun c => (index.resolveCounter c).toOption, s.after⟩

theorem resolveSnippet_eq_snippet {s : Snippet Address} {s' : Snippet ℕ} (h : index.resolveSnippet s = .ok s') :
    index.resolveSnippet s = .ok (index.snippet s) := by
  obtain ⟨before, counter, after⟩ := s
  cases counter with
  | none => rfl
  | some c =>
    obtain ⟨c', hc, -⟩ := bind_eq_ok_iff.1 h
    have hsnippet : index.snippet ⟨before, some c, after⟩ = ⟨before, some c', after⟩ := by
      simp [snippet, hc, Except.toOption]
    rw [hsnippet]
    exact bind_eq_ok_iff.2 ⟨c', hc, rfl⟩

/-- ids come in where insertions are recorded, or where they are written -/
theorem resolve_eq_map {es : List Edit} {insertions : List (Insertion (Snippet ℕ))}
    (h : index.resolve es = .ok insertions) : insertions = es.map (Insertion.map index.snippet) ∧
      ∀ e ∈ es, index.resolveSnippet e.payload = .ok (index.snippet e.payload) := by
  induction es generalizing insertions with
  | nil =>
    cases h
    exact ⟨rfl, by simp⟩
  | cons e es ih =>
    obtain ⟨s, rest, hs, hrest, rfl⟩ := resolve_cons_eq_ok_iff.1 h
    have hsnippet := resolveSnippet_eq_snippet hs
    obtain rfl : s = index.snippet e.payload := Except.ok.inj (hs.symm.trans hsnippet)
    obtain ⟨rfl, hall⟩ := ih hrest
    exact ⟨rfl, List.forall_mem_cons.2 ⟨hsnippet, hall⟩⟩

end CoverageIndex

/-! ## The text of a unit -/

/-- **The generated text is the rendering of the program.** A lowered program whose spans nest has a text: the pieces of its
rendering, each counter with its id. Without the counters the pieces are the source. -/
theorem generate_eq_rendering (style : EmitStyle) (key : String) {code : String} {span : Span} {body : List Node}
    {index : CoverageIndex} (hw : WellPlaced true (.program span body))
    (hlaminar : (Node.program span body).Laminar (SourceText.ofString code).text .root)
    (hindex : CoverageIndex.ofProgram (.program span body) = .ok index) :
    let src := SourceText.ofString code
    let pieces := renderProgram style src (.program span body) index.map key
    (generate? style src (.program span body) index key).map Generated.text =
      .ok (piecesText (fun s => (index.snippet s).text (trackerName key)) src.data pieces) ∧
    (∀ s, .inserted s ∈ pieces → index.resolveSnippet s = .ok (index.snippet s)) ∧
    String.join (pieces.map (Piece.verbatim src.data)) = src.text := by
  intro src pieces
  have hdata : src.data = src.text.toUTF8 := rfl
  have hlaid := laid_program style index.map key hdata hw hlaminar (CoverageIndex.isComplete_of_ok hindex)
  obtain ⟨insertions, hresolve, -⟩ := CoverageIndex.exists_resolve_programEdits style src key hw hindex
  obtain ⟨rfl, hall⟩ := CoverageIndex.resolve_eq_map hresolve
  refine ⟨?_, fun s hs => ?_, ?_⟩
  · have htext := hlaid.insertAll? fun s => (index.snippet s).text (trackerName key)
    rw [← insertAll?_map, ← hdata] at htext
    rw [generate?, hresolve]
    simp only [htext]
    rfl
  · obtain ⟨e, he, rfl⟩ := hlaid.exists_of_inserted_mem hs
    exact hall e he
  · exact (hlaid.join_verbatim (boundary_zero _)).trans (sliceText_all _)

def labeledIf : String := "\"a\"; l: if (p) q && r;"

/-- the tree of `labeledIf` -/
def labeledIfTree : Tree :=
  .node "program" 0 22 [
    .node "expression_statement" 0 4 [.leaf "string" 0 3],
    .node "labeled_statement" 5 22 [(Tree.leaf "statement_identifier" 5 6).inField "label",
      (Tree.node "if_statement" 8 22 [
        (Tree.node "parenthesized_expression" 11 14 [.leaf "identifier" 12 13]).inField "condition",
        (Tree.node "expression_statement" 15 22 [.node "binary_expression" 15 21 [
          (Tree.leaf "identifier" 15 16).inField "left", (Tree.token "&&" 17 19).inField "operator",
          (Tree.leaf "identifier" 20 21).inField "right"]]).inField "consequence"]).inField "body"]]

theorem labeledIf_rendered : ∃ program index,
    Lowering.program Lowering.usualDepth (.ofString labeledIf) labeledIfTree = .ok program ∧
    WellPlaced true program ∧ program.Laminar (SourceText.ofString labeledIf).text .root ∧
    CoverageIndex.ofProgram program = .ok index ∧
    (generate? ⟨"trace", true, false⟩ (.ofString labeledIf) program index "a.js").map Generated.text =
      .ok (piecesText (fun s => (index.snippet s).text (trackerName "a.js")) (SourceText.ofString labeledIf).data
        (renderProgram ⟨"trace", true, false⟩ (.ofString labeledIf) program index.map "a.js")) := by
  have hok : ((Lowering.program Lowering.usualDepth (.ofString labeledIf) labeledIfTree).toOption.bind fun program =>
      (CoverageIndex.ofProgram program).toOption.map fun _ =>
        decide (program.Laminar (SourceText.ofString labeledIf).text .root)) = some true := by decide +kernel
  rw [Option.bind_eq_some_iff] at hok
  obtain ⟨program, hprogram, hok⟩ := hok
  rw [Option.map_eq_some_iff] at hok
  obtain ⟨index, hindex, hlaminar⟩ := hok
  have hprogram := ok_of_toOption hprogram
  have hindex := ok_of_toOption hindex
  obtain ⟨body, rfl, hw⟩ := Lowering.wellPlaced_of_program hprogram
  have hlaminar := of_decide_eq_true hlaminar
  obtain ⟨htext, -⟩ := generate_eq_rendering ⟨"trace", true, false⟩ "a.js" hw hlaminar hindex
  exact ⟨_, index, hprogram, hw, hlaminar, hindex, htext⟩

/-- the labeled statement counts in front of its label, the missing else behind the `if` -/
example : ((Lowering.program Lowering.usualDepth (.ofString labeledIf) labeledIfTree).toOption.bind fun program =>
    (CoverageIndex.ofProgram program).toOption.map fun index =>
      piecesText (fun s => (index.snippet s).text "t") (SourceText.ofString labeledIf).data
        (program.render (SourceText.ofString labeledIf).data .root [])) =
    some ("\"a\"; t.s['2']++;t.s['3']++;l: if (p) \x7bt.b['1'][0]++;t.s['4']++;" ++
      "(t.b['2'][0]++, q) && (t.b['2'][1]++, r);\x7d else \x7b t.b['1'][1]++; \x7d") := by decide +kernel

end Turnstile
