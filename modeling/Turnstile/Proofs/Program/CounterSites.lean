/-
The sites of counters.

A conditional statement, a switch, a conditional expression and a short-circuit operator are to have a branch counter, a
node of a function type a function counter. Lowering keeps these marks (`kept_counters`): the nodes of a typed program that
have branch or function counters are those of its concrete tree that are to have them.
-/
import Turnstile.Proofs.Program.StatementSites

namespace Turnstile

/-! ## Nodes with counters -/

namespace Lowering

variable (src : SourceText) (table : CounterKind)

/-- a node that is to have a counter in the table of branches or in that of functions -/
def isSite (t : Tree) : Bool :=
  match table with
  | .statement => false
  | .branch => isBranchSite src t
  | .function => isFunctionSite t

/-- the place of a node that is to have a counter -/
def ownSite (t : Tree) : Multiset Location := if isSite src table t then {(spanOf src t).location} else 0

end Lowering

namespace Node

variable (table : CounterKind)

/-- a node with a counter in the table of branches or in that of functions -/
def isSite (n : Node) : Bool :=
  match table with
  | .statement => false
  | .branch => n.isBranch
  | .function => n.isFunction

/-- the place of a node with a counter -/
def ownSite (n : Node) : Multiset Location := if n.isSite table then {n.span.location} else 0

end Node

namespace Lowering

/-- the nodes that are to have counters, and those that have them -/
def counters (src : SourceText) (table : CounterKind) : Marking := ⟨fun _ => ownSite src table, Node.ownSite table⟩

variable {src : SourceText} {table : CounterKind} {t : Tree} {n : Node}

/-! ## Kinds of sites -/

theorem isBranchSite_of_function (hkind : t.kind ∈ Tree.functionKinds) : isBranchSite src t = false := by
  simp only [Tree.functionKinds, List.mem_cons, List.not_mem_nil, or_false] at hkind
  rcases hkind with h | h | h | h | h | h | h <;> simp [isBranchSite, isShortCircuitNode, h]

/-- a part of a function type is to have a function counter only -/
theorem isSite_of_function (hpart : t.isPart = true) {form : FunctionForm} (hform : functionForm? t = some form) :
    isSite src table t = decide (table = .function) := by
  have hnamed := (Bool.and_eq_true_iff.1 hpart).1
  have hkind := kind_of_functionForm? hform
  cases table with
  | statement => rfl
  | branch => exact isBranchSite_of_function hkind
  | function => simp [isSite, isFunctionSite, hnamed, hkind]

/-- a node that is to have a branch counter is to have no function counter -/
theorem isSite_of_branch (hbranch : isBranchSite src t = true) : isSite src table t = decide (table = .branch) := by
  cases table with
  | statement => rfl
  | branch => exact hbranch
  | function =>
    have hkind : t.kind ∉ Tree.functionKinds := by
      intro hkind
      rw [isBranchSite_of_function hkind] at hbranch
      cases hbranch
    simp [isSite, isFunctionSite, hkind]

theorem isSite_eq_false (h : t.kind ∉ Tree.siteKinds) : isSite src table t = false := by
  simp only [Tree.siteKinds, List.mem_cons, not_or] at h
  cases table <;> simp [isSite, isBranchSite, isFunctionSite, isShortCircuitNode, h]

theorem ownSite_eq_zero (h : t.kind ∉ Tree.siteKinds) : ownSite src table t = 0 := by
  simp [ownSite, isSite_eq_false h]

theorem ownSite_of_not_isPart (h : t.isPart = false) : ownSite src table t = 0 := by
  rw [Tree.isPart, Bool.and_eq_false_iff] at h
  rcases h with h | h
  · cases table <;> simp [ownSite, isSite, isBranchSite, isFunctionSite, h]
  · refine ownSite_eq_zero ?_
    simp only [Tree.isComment, Bool.not_eq_false', Bool.or_eq_true, decide_eq_true_eq] at h
    rcases h with (h | h) | h <;> rw [h] <;> decide

/-- a node with a branch counter that is read of a node that is to have one -/
theorem ownSite_of_branch (ht : isBranchSite src t = true) (hspan : n.span = spanOf src t) (hbranch : n.isBranch = true)
    (hfunction : n.isFunction = false) : n.ownSite table = ownSite src table t := by
  rw [Node.ownSite, ownSite, isSite_of_branch ht, hspan]
  cases table <;> simp [Node.isSite, hbranch, hfunction]

/-- a function that is read of a node of a function type -/
theorem ownSite_of_function (hpart : t.isPart = true) {form : FunctionForm} (hform : functionForm? t = some form)
    (hspan : n.span = spanOf src t) (hbranch : n.isBranch = false) (hfunction : n.isFunction = true) :
    n.ownSite table = ownSite src table t := by
  rw [Node.ownSite, ownSite, isSite_of_function hpart hform, hspan]
  cases table <;> simp [Node.isSite, hbranch, hfunction]

/-- an expression without a reading of its own is no site -/
theorem ownSite_of_isComposite (hfits : t.fits .expression = true) (hcomposite : Reading.IsComposite src t) :
    ownSite src table t = 0 := by
  have hbranch : t.kind ≠ "if_statement" ∧ t.kind ≠ "switch_statement" := by
    obtain ⟨a, ha⟩ := Tree.fits_iff.1 hfits
    have harrangement : Tree.expressionArrangement? t.kind = some a := ha.arrangement
    constructor <;> intro hkind <;> rw [hkind] at harrangement <;> cases harrangement
  have hsite : isSite src table t = false := by
    cases table with
    | statement => rfl
    | branch =>
      simp [isSite, isBranchSite, isShortCircuitNode_of_ok hcomposite.notLogical, hcomposite.notConditional, hbranch]
    | function => simp [isSite, isFunctionSite, ← isSome_functionForm?, hcomposite.notFunction]
  simp [ownSite, hsite]

theorem kind_not_mem_siteKinds (hdeclaration : isDeclaration t = true) : t.kind ∉ Tree.siteKinds := by
  simp only [isDeclaration, Bool.or_eq_true, decide_eq_true_eq] at hdeclaration
  rcases hdeclaration with (hkind | hkind) | hkind <;> rw [hkind] <;> decide

/-- a node without a counter -/
theorem ownSite_of_notSite (hbranch : n.isBranch = false) (hfunction : n.isFunction = false) : n.ownSite table = 0 := by
  refine if_neg ?_
  cases table <;> simp [Node.isSite, hbranch, hfunction]

/-- **Lowering keeps the sites of counters.** -/
theorem kept_counters (src : SourceText) (table : CounterKind) : (counters src table).Kept src where
  notPart h := ownSite_of_not_isPart h
  plain h := ownSite_eq_zero fun hsite => h (by simp [markedKinds, hsite])
  plainNode hbranch hfunction _ := ownSite_of_notSite hbranch hfunction
  composite hfits hcomposite := ownSite_of_isComposite hfits hcomposite
  loopPart := rfl
  branch ht hspan hbranch hfunction := ownSite_of_branch ht hspan hbranch hfunction
  function hpart hform hspan hbranch hfunction := ownSite_of_function hpart hform hspan hbranch hfunction
  declaration _ hdeclaration _ _ :=
    (ownSite_of_notSite rfl rfl).trans (ownSite_eq_zero (kind_not_mem_siteKinds hdeclaration)).symm

end Lowering

end Turnstile
