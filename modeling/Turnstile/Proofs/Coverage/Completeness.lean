/-
Which constructs of a source text have counters.

For a tree of the grammar, the branches and functions of a coverage map are the nodes of the tree that are to have counters,
each once and at its place; what is missing is just what stands in the names and decorators of methods
(`counted_but_method_heads`). A computed name of a method may well hold a conditional expression, which then has no branch
(`computedName_not_counted`).
-/
import Turnstile.Proofs.Coverage.Numbering
import Turnstile.Proofs.Program.CounterSites

namespace Turnstile

open Lowering

/-- the places of some nodes of a concrete tree -/
def locationsOf (src : SourceText) (ts : List Tree) : List Location := ts.map fun t => (spanOf src t).location

/-! ## Bags of places -/

theorem coe_locationsOf {src : SourceText} {k : Tree.Category} {t : Tree} (hfits : t.fits k = true) (table : CounterKind) :
    (↑(locationsOf src (t.otherNodes.filter (isSite src table))) : Multiset Location) = sites (counters src table) k t := by
  rw [← Tree.map_snd_places hfits]
  refine (sum_ite_singleton (isSite src table) (fun t => (spanOf src t).location) _).symm.trans ?_
  rw [List.map_map]
  rfl

theorem coe_filter_preorder (src : SourceText) (table : CounterKind) (n : Node) :
    (↑(((n.preorder .root).filter fun p => p.2.isSite table).map fun p => p.2.span.location) : Multiset Location) =
      n.sites (counters src table) :=
  (sum_ite_singleton (fun p : Address × Node => p.2.isSite table) (fun p => p.2.span.location) (n.preorder .root)).symm

/-- the nodes outside of the names and decorators of methods, with those inside -/
theorem perm_locationsOf {src : SourceText} {t : Tree} {counted : List Location} {p : Tree → Bool}
    (h : counted.Perm (locationsOf src (t.otherNodes.filter p))) :
    (counted ++ locationsOf src (t.headNodes.filter p)).Perm (locationsOf src (t.nodes.filter p)) := by
  have hnodes := (t.nodes_perm.filter p).map fun t => (spanOf src t).location
  rw [List.filter_append, List.map_append] at hnodes
  exact (h.append_right _).trans hnodes.symm

/-! ## Coverage -/

variable {depth : ℕ} {src : SourceText} {root : Tree} {program : Node} {index : CoverageIndex}

/-- what is numbered in a program are the sites of its tree -/
theorem perm_of_program (hfits : root.fits .program = true) (hprogram : Lowering.program depth src root = .ok program)
    (table : CounterKind) :
    (((program.preorder .root).filter fun p => p.2.isSite table).map fun p => p.2.span.location).Perm
      (locationsOf src (root.otherNodes.filter (isSite src table))) := by
  rw [← Multiset.coe_eq_coe, coe_filter_preorder src, coe_locationsOf hfits]
  exact sites_of_program (kept_counters src table) hfits hprogram

/-- **Every branch and function outside of the names and decorators of methods is counted.** The branches of the map with
the branching nodes in names and decorators of methods are all the branching nodes of the tree, each once and at its place;
so are the functions. -/
theorem counted_but_method_heads (hfits : root.fits .program = true) (hprogram : Lowering.program depth src root = .ok program)
    (hindex : CoverageIndex.ofProgram program = .ok index) :
    (index.map.branches.map BranchInfo.location ++ locationsOf src (root.headNodes.filter (isBranchSite src))).Perm
        (locationsOf src (root.nodes.filter (isBranchSite src))) ∧
      (index.map.functions.map FunctionInfo.location ++ locationsOf src (root.headNodes.filter isFunctionSite)).Perm
        (locationsOf src (root.nodes.filter isFunctionSite)) := by
  have hnumbers := CoverageIndex.numbers_of_ok hindex
  have hbranches : index.map.branches.map BranchInfo.location =
      ((program.preorder .root).filter fun p => p.2.isBranch).map fun p => p.2.span.location := by
    have h := congrArg (List.map Prod.fst) hnumbers.branches
    rw [List.map_map, List.map_map] at h
    exact h
  refine ⟨perm_locationsOf ?_, perm_locationsOf ?_⟩
  · rw [hbranches]
    exact perm_of_program hfits hprogram .branch
  · rw [hnumbers.functions]
    exact perm_of_program hfits hprogram .function

/-! ## A computed name -/

/-- a class with a method whose name is computed by a conditional expression -/
def computedName : String := "class A { [a ? b : c]() {} }"

def computedNameTree : Tree :=
  .node "program" 0 28 [.node "class_declaration" 0 28 [(Tree.leaf "identifier" 6 7).inField "name",
    (Tree.node "class_body" 8 28 [(Tree.node "method_definition" 10 26 [
      (Tree.node "computed_property_name" 10 21 [.node "ternary_expression" 11 20 [
        (Tree.leaf "identifier" 11 12).inField "condition", (Tree.leaf "identifier" 15 16).inField "consequence",
        (Tree.leaf "identifier" 19 20).inField "alternative"]]).inField "name",
      (Tree.leaf "formal_parameters" 21 23).inField "parameters",
      (Tree.leaf "statement_block" 24 26).inField "body"]).inField "member"]).inField "body"]]

theorem fits_computedNameTree : computedNameTree.fits .program = true := by decide +kernel

/-- the method has a counter, the conditional expression in its name has none -/
theorem computedName_indexed : ∃ program index,
    Lowering.program Lowering.usualDepth (.ofString computedName) computedNameTree = .ok program ∧
    CoverageIndex.ofProgram program = .ok index ∧ index.map.branches = [] ∧
    index.map.functions.map FunctionInfo.location = [⟨1, 10, 1, 26⟩] := by
  have hok : ((Lowering.program Lowering.usualDepth (.ofString computedName) computedNameTree).toOption.bind fun program =>
      (CoverageIndex.ofProgram program).toOption.map fun index =>
        (index.map.branches, index.map.functions.map FunctionInfo.location)) = some ([], [⟨1, 10, 1, 26⟩]) := by
    decide +kernel
  rw [Option.bind_eq_some_iff] at hok
  obtain ⟨program, hprogram, hok⟩ := hok
  rw [Option.map_eq_some_iff] at hok
  obtain ⟨index, hindex, hok⟩ := hok
  obtain ⟨hbranches, hfunctions⟩ := Prod.mk.inj hok
  exact ⟨program, index, ok_of_toOption hprogram, ok_of_toOption hindex, hbranches, hfunctions⟩

/-- the conditional expression in the name is just what the branches of the map lack, and the functions lack nothing -/
theorem computedName_counted : computedNameTree.fits .program = true ∧ ∃ program index,
    Lowering.program Lowering.usualDepth (.ofString computedName) computedNameTree = .ok program ∧
    CoverageIndex.ofProgram program = .ok index ∧
    List.Perm (index.map.branches.map BranchInfo.location ++ [⟨1, 11, 1, 20⟩]) (locationsOf (.ofString computedName)
      (computedNameTree.nodes.filter (isBranchSite (.ofString computedName)))) ∧
    List.Perm (index.map.functions.map FunctionInfo.location)
      (locationsOf (.ofString computedName) (computedNameTree.nodes.filter isFunctionSite)) := by
  obtain ⟨program, index, hprogram, hindex, -⟩ := computedName_indexed
  have hbranchSites : locationsOf (.ofString computedName) (computedNameTree.headNodes.filter
      (isBranchSite (.ofString computedName))) = [⟨1, 11, 1, 20⟩] := by decide +kernel
  have hfunctionSites : locationsOf (.ofString computedName) (computedNameTree.headNodes.filter isFunctionSite) = [] := by
    decide +kernel
  obtain ⟨hbranches, hfunctions⟩ := counted_but_method_heads fits_computedNameTree hprogram hindex
  rw [hbranchSites] at hbranches
  rw [hfunctionSites, List.append_nil] at hfunctions
  exact ⟨fits_computedNameTree, program, index, hprogram, hindex, hbranches, hfunctions⟩

/-- the tree has one branching node, and its map has no branch -/
theorem computedName_not_counted : computedNameTree.fits .program = true ∧ ∃ program index,
    Lowering.program Lowering.usualDepth (.ofString computedName) computedNameTree = .ok program ∧
    CoverageIndex.ofProgram program = .ok index ∧ index.map.branches = [] ∧
    locationsOf (.ofString computedName) (computedNameTree.nodes.filter (isBranchSite (.ofString computedName))) =
      [⟨1, 11, 1, 20⟩] := by
  obtain ⟨program, index, hprogram, hindex, hbranches, -⟩ := computedName_indexed
  exact ⟨fits_computedNameTree, program, index, hprogram, hindex, hbranches, by decide +kernel⟩

end Turnstile
