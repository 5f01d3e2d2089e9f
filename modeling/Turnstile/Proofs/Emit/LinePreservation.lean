/-
Compact output keeps every line where it is.

- `visible_preamble`: the preamble is visible in the compact layout, whatever the key, the variable and the source lines are;
- `visible_text`: so is every counter with its id;
- `compact_generation_keeps_lines`: no insertion holds a line terminator, without the insertions the text is the source, and
  every character of the source stays on its line.
-/
import Turnstile.Instrumenter
import Turnstile.Proofs.Emit.Conservation
import Turnstile.Proofs.Emit.Placement
import Turnstile.Proofs.Emit.RenderedText

namespace Turnstile

/-! ## The preamble -/

/-- output without any line break -/
structure Output.OneLine (o : Output) : Prop where
  compact : o.compact = true
  visible : Visible o.text.toList

namespace Output.OneLine

variable {o : Output} {s : String}

theorem empty : (Output.empty true).OneLine := ⟨rfl, by decide⟩

theorem statement (h : o.OneLine) (hs : Visible s.toList) : (o.statement s).OneLine := by
  have hblank : Visible " ".toList := by decide
  have hnext : Visible (if o.started then " " ++ s else s).toList := by
    split
    · rw [String.toList_append, visible_append]
      exact ⟨hblank, hs⟩
    · exact hs
  rw [Output.statement, if_pos h.compact]
  exact ⟨h.compact, by rw [String.toList_append, visible_append]; exact ⟨h.visible, hnext⟩⟩

theorem startBlock (h : o.OneLine) (hs : Visible s.toList) : (o.startBlock s).OneLine := by
  have hbrace : Visible " \x7b".toList := by decide
  have hstatement := h.statement (s := s ++ " \x7b") (by rw [String.toList_append, visible_append]; exact ⟨hs, hbrace⟩)
  exact ⟨hstatement.compact, hstatement.visible⟩

theorem endBlock (h : o.OneLine) : o.endBlock.OneLine := by
  have hdedented : ({ o with indent := o.indent - 1 } : Output).OneLine := ⟨h.compact, h.visible⟩
  exact hdedented.statement (by decide)

end Output.OneLine

theorem visible_trackerName (key : String) : Visible (trackerName key).toList := by
  have hfront : Visible "__trace_".toList := by decide
  rw [trackerName, String.toList_append, visible_append]
  exact ⟨hfront, Text.Digest.visible_ofText 16 key⟩

theorem visible_literalText (s : String) : Visible (literalText s).toList := by
  rw [literalText, String.toList_ofList]
  exact Json.visible_literal s

/-- **The preamble is visible**, whatever characters the variable, the key and the entry have. -/
theorem visible_preamble (traceVariable key : String) {entry : Json} (hentry : entry.NoFloats) :
    Visible (preamble traceVariable key entry true).toList := by
  have htracker := visible_trackerName key
  have hslot := visible_literalText traceVariable
  have hname := visible_literalText key
  have hbody : Visible (entry.render (entryLayout true)).toList := Json.visible_render Json.Layout.oneLine_compact hentry
  unfold preamble preambleText
  -- the statements of the preamble, last first
  refine (Output.OneLine.statement (.endBlock (.statement (.startBlock (.statement (.endBlock (.statement (.startBlock
    (.statement .empty ?_) ?_) ?_)) ?_) ?_) ?_)) ?_).visible
  all_goals
    simp only [String.toList_append, visible_append, htracker, hslot, hname, hbody, and_true, true_and]
    decide

/-- the entry of a unit holds whole numbers and source lines -/
theorem noFloats_initial (m : CoverageMap) (code : Option (List String)) : (Trace.initial m code).toJson.NoFloats := by
  have hcounts : ∀ {α : Type} {value : α → Json} (t : OrderedMap ℤ α), (∀ x, (value x).NoFloats) →
      (Trace.countsJson value t).NoFloats := by
    intro α value t hvalue
    refine .object fun f hf => ?_
    obtain ⟨e, -, rfl⟩ := List.mem_map.1 hf
    exact hvalue e.2
  have hslots : ∀ ns : List ℤ, (Json.array (ns.map .int) : Json).NoFloats := by
    intro ns
    refine .array fun v hv => ?_
    obtain ⟨n, -, rfl⟩ := List.mem_map.1 hv
    exact .int n
  refine .object fun f hf => ?_
  simp only [List.mem_append, List.mem_cons, List.not_mem_nil, or_false, Option.mem_toList,
    Option.map_eq_some_iff] at hf
  rcases hf with (rfl | rfl | rfl) | ⟨lines, hlines, rfl⟩
  · exact hcounts _ .int
  · exact hcounts _ hslots
  · exact hcounts _ .int
  · refine .array fun v hv => ?_
    obtain ⟨texts, -, rfl⟩ := Option.map_eq_some_iff.1 hlines
    obtain ⟨s, -, rfl⟩ := List.mem_map.1 hv
    exact .string s

/-! ## Insertions with ids -/

theorem visible_counter (c : Counter ℕ) {tracker : String} (h : Visible tracker.toList) :
    Visible (c.text tracker).toList := by
  cases c
  all_goals
    simp only [Counter.text, Tracker.statement, Tracker.function, Tracker.branch, String.toList_append, visible_append, h,
      Text.visible_integerText, and_true, true_and]
    decide

/-- visible text around a counter is visible with the counter in it -/
theorem visible_text {s : Snippet ℕ} (hs : s.IsVisible) {tracker : String} (h : Visible tracker.toList) :
    Visible (s.text tracker).toList := by
  rw [Snippet.text]
  split
  · next c _ =>
    simp only [String.toList_append, visible_append]
    exact ⟨⟨hs.before, visible_counter c h⟩, hs.after⟩
  · simp only [String.toList_append, visible_append]
    exact ⟨hs.before, hs.after⟩

theorem Snippet.IsVisible.snippet {s : Snippet Address} (h : s.IsVisible) (index : CoverageIndex) :
    (index.snippet s).IsVisible := ⟨h.before, h.after⟩

/-! ## Lines -/

/-- **Compact output keeps lines.** Take a lowered and numbered program, any key, trace variable and choice about source lines,
and the compact layout. No insertion writes a line terminator. If no offset of the program cuts a character, a text is
generated. Any text that is generated is the source in pieces with the insertions between them, and every character of the
source has as many newlines in front of it as in the source. -/
theorem compact_generation_keeps_lines {o : Options} (hcompact : o.noCompact = false) (key : String) {code : String}
    {depth : ℕ} {root : Tree} {program : Node} {index : CoverageIndex}
    (hprogram : Lowering.program depth (.ofString code) root = .ok program)
    (hindex : CoverageIndex.ofProgram program = .ok index) :
    let src := SourceText.ofString code
    let render := Snippet.text (trackerName key)
    ∃ insertions, index.resolve (programEdits o.style src program index.map key) = .ok insertions ∧
      (∀ e ∈ insertions, ∀ c ∈ (render e.payload).toList, isLineTerminator c = false) ∧
      (program.OffsetsFit (Boundary src.text) .root → ∃ g, generate? o.style src program index key = .ok g) ∧
      ∀ g, generate? o.style src program index key = .ok g →
        ∃ pieces, Conserves render src.text g.text insertions pieces ∧ KeepsLines render src.data pieces := by
  intro src render
  have hstyle : o.style.compact = true := by simp [Options.style, hcompact]
  set es := programEdits o.style src program index.map key with hes
  obtain ⟨insertions, hresolve⟩ : ∃ insertions, index.resolve es = .ok insertions := by
    obtain ⟨body, rfl, hw⟩ := Lowering.wellPlaced_of_program hprogram
    obtain ⟨insertions, hresolve, -⟩ := CoverageIndex.exists_resolve_programEdits o.style src key hw hindex
    exact ⟨insertions, hresolve⟩
  obtain ⟨rfl, -⟩ := CoverageIndex.resolve_eq_map hresolve
  have hpreamble := visible_preamble o.style.traceVariable key (noFloats_initial index.map (o.style.code src))
  rw [← hstyle] at hpreamble
  have hsound : ∀ e ∈ es, Edit.Sound (fun _ => True) e :=
    sound_programEdits (fun _ _ _ _ => trivial) trivial hpreamble
  have hterminator : ∀ e ∈ es.map (Insertion.map index.snippet), ∀ c ∈ (render e.payload).toList,
      isLineTerminator c = false := by
    intro e he c hc
    obtain ⟨d, hd, rfl⟩ := List.mem_map.1 he
    have hvisible := visible_text ((hsound d hd).visible.snippet index) (visible_trackerName key)
    exact not_isLineTerminator_of_isVisible (hvisible c hc)
  refine ⟨_, hresolve, hterminator, fun hfits => ?_, fun g hg => ?_⟩
  · have hplaces : ∀ e ∈ es.map (Insertion.map index.snippet), ∃ i : ℕ, e.offset = i ∧ Boundary src.text i := by
      intro e he
      obtain ⟨d, hd, rfl⟩ := List.mem_map.1 he
      exact (sound_programEdits hfits (boundary_zero src.text) hpreamble d hd).offset
    obtain ⟨out, hout⟩ := exists_insertAll? render hplaces
    have hwritten : insertAll? render src.data (es.map (Insertion.map index.snippet)) = some out := hout
    refine ⟨⟨out, (es.map (Insertion.map index.snippet)).length⟩, ?_⟩
    rw [generate?, ← hes, hresolve]
    simp only [render] at hwritten
    simp only [hwritten]
  · rw [generate?, ← hes, hresolve] at hg
    dsimp only at hg
    split at hg
    · next out hout =>
      cases hg
      obtain ⟨pieces, hpieces⟩ := exists_conserves hout
      refine ⟨pieces, hpieces, keepsLines_of_newline_notMem fun payload hpayload hnewline => ?_⟩
      rw [hpieces.insertions] at hpayload
      obtain ⟨e, he, rfl⟩ := List.mem_map.1 hpayload
      have hterm := hterminator e ((arranges_inTextOrder _).mem_iff.1 he) _ hnewline
      exact absurd hterm (by decide)
    · cases hg

def twoLines : String := "\"a\"; if (é)\n  ö;"

/-- the tree of `twoLines` -/
def twoLinesTree : Tree :=
  .node "program" 0 18 [
    .node "expression_statement" 0 4 [.leaf "string" 0 3],
    .node "if_statement" 5 18 [
      (Tree.node "parenthesized_expression" 8 12 [.leaf "identifier" 9 11]).inField "condition",
      (Tree.node "expression_statement" 15 18 [.leaf "identifier" 15 17]).inField "consequence"]]

theorem twoLines_kept : ∃ program index insertions g,
    Lowering.program Lowering.usualDepth (.ofString twoLines) twoLinesTree = .ok program ∧
    CoverageIndex.ofProgram program = .ok index ∧ index.map.statements = [⟨1, 0, 1, 4⟩, ⟨1, 5, 2, 4⟩, ⟨2, 2, 2, 4⟩] ∧
    generate? (Options.style ⟨"trace", true, false, false, false, false⟩) (.ofString twoLines) program index
      "a\n\u2028.js" = .ok g ∧
    ∃ pieces, Conserves (Snippet.text (trackerName "a\n\u2028.js")) (SourceText.ofString twoLines).text g.text insertions
      pieces ∧ KeepsLines (Snippet.text (trackerName "a\n\u2028.js")) (SourceText.ofString twoLines).data pieces := by
  have hok : ((Lowering.program Lowering.usualDepth (.ofString twoLines) twoLinesTree).toOption.bind fun program =>
      (CoverageIndex.ofProgram program).toOption.map fun index =>
        (index.map.statements, decide (∀ p ∈ program.preorder .root, ∀ offset ∈ p.2.offsets,
          Boundary (SourceText.ofString twoLines).text offset))) =
      some ([⟨1, 0, 1, 4⟩, ⟨1, 5, 2, 4⟩, ⟨2, 2, 2, 4⟩], true) := by decide +kernel
  rw [Option.bind_eq_some_iff] at hok
  obtain ⟨program, hprogram, hok⟩ := hok
  rw [Option.map_eq_some_iff] at hok
  obtain ⟨index, hindex, hok⟩ := hok
  obtain ⟨hstatements, hfits⟩ := Prod.mk.inj hok
  have hprogram := ok_of_toOption hprogram
  have hindex := ok_of_toOption hindex
  have hfits := of_decide_eq_true hfits
  obtain ⟨insertions, -, -, hgenerates, hkeeps⟩ := compact_generation_keeps_lines
    (o := ⟨"trace", true, false, false, false, false⟩) rfl "a\n\u2028.js" hprogram hindex
  obtain ⟨g, hg⟩ := hgenerates hfits
  exact ⟨program, index, insertions, g, hprogram, hindex, hstatements, hg, hkeeps g hg⟩

end Turnstile
