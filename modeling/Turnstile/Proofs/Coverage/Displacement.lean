/-
Indices of programs that stand elsewhere.

A visit reads the spans of a node and of its parts and never computes with them.
- `Numbering.visit_moved`: a visit to a moved node does to moved tables what it does to the tables;
- `CoverageIndex.ofProgram_moved`: the index of a moved program is the index of the program with its locations moved. Ids,
  names and kinds of branches stay.
-/
import Turnstile.Proofs.Coverage.Numbering
import Turnstile.Proofs.Program.Displacement

namespace Turnstile

/-! ## Moving -/

def BranchInfo.moved (lines : ℕ) (b : BranchInfo) : BranchInfo :=
  ⟨b.kind, b.location.moved lines, b.alternatives.map (Location.moved lines)⟩

def FunctionInfo.moved (lines : ℕ) (f : FunctionInfo) : FunctionInfo :=
  ⟨f.name, f.location.moved lines, f.head.moved lines⟩

def CoverageMap.moved (lines : ℕ) (m : CoverageMap) : CoverageMap :=
  ⟨m.statements.map (Location.moved lines), m.branches.map (BranchInfo.moved lines),
    m.functions.map (FunctionInfo.moved lines)⟩

/-- an index of the same places with the same ids, all locations some lines further down -/
def CoverageIndex.moved (lines : ℕ) (index : CoverageIndex) : CoverageIndex :=
  { index with map := index.map.moved lines }

/-! ## Tables -/

namespace Table

variable {α : Type} (f : α → α)

/-- a table with other entries under the same ids -/
def map (t : Table α) : Table α := ⟨t.entries.map fun e => (e.1, f e.2), t.ids⟩

@[simp] theorem nextId_map (t : Table α) : (t.map f).nextId = t.nextId := by
  simp [map, nextId]

@[simp] theorem add_map (t : Table α) (a : Address) (x : α) : (t.map f).add a (f x) = (t.add a x).map f := by
  simp [map, add, nextId]

/-- whether ids are dense has nothing to do with what stands under them -/
theorem dense?_map (table : CounterKind) (t : Table α) :
    dense? table (t.map f).entries.toList = List.map f <$> dense? table t.entries.toList := by
  have hentries : (t.map f).entries.toList = t.entries.toList.map fun e => (e.1, f e.2) := by simp [map]
  have hids : (numbered (t.map f).entries.toList).map Prod.fst = (numbered t.entries.toList).map Prod.fst := by
    rw [hentries, map_fst_numbered]
  rw [dense?, dense?, hids, hentries]
  simp only [List.map_map, Function.comp_def]
  split_ifs <;> simp

end Table

/-! ## Walks -/

namespace Numbering

variable {bytes lines : ℕ}

def moved (lines : ℕ) (t : Numbering) : Numbering :=
  ⟨t.statements.map (Location.moved lines), t.branches.map (BranchInfo.moved lines),
    t.functions.map (FunctionInfo.moved lines)⟩

theorem addStatement_moved (t : Numbering) (a : Address) (span : Span) :
    (t.moved lines).addStatement a (span.moved bytes lines) = (t.addStatement a span).moved lines := by
  simp [addStatement, moved]

theorem addBranch_moved (t : Numbering) (a : Address) (kind : String) (span : Span)
    {alternatives alternatives' : List Location} (h : alternatives' = alternatives.map (Location.moved lines)) :
    (t.moved lines).addBranch a kind (span.moved bytes lines) alternatives' =
      (t.addBranch a kind span alternatives).moved lines := by
  simp [h, addBranch, moved, ← Table.add_map, BranchInfo.moved]

theorem addFunction_moved (t : Numbering) (a : Address) (span : Span) (name : Option String) (body : Node) :
    (t.moved lines).addFunction a (span.moved bytes lines) name (body.moved bytes lines) =
      (t.addFunction a span name body).moved lines := by
  simp [addFunction, moved, Location.moved, Node.span_moved, ← Table.add_map, FunctionInfo.moved]

variable (bytes lines) in
theorem addCounted_moved (t : Numbering) (a : Address) (n : Node) :
    (if (n.moved bytes lines).isCounted then (t.moved lines).addStatement a (n.moved bytes lines).span
      else t.moved lines) = (if n.isCounted then t.addStatement a n.span else t).moved lines := by
  rw [Node.isCounted_moved, Node.span_moved, addStatement_moved]
  split_ifs <;> rfl

/-- a visit to a moved node does to moved tables what the visit to the node does to the tables -/
theorem visit_moved (t : Numbering) (a : Address) (n : Node) :
    (t.moved lines).visit a (n.moved bytes lines) = moved lines <$> t.visit a n := by
  have hother := congrArg (Except.ok (ε := MissingOperand)) (addCounted_moved bytes lines t a n)
  cases n with
  | ifStatement span test consequent alternate =>
    cases alternate <;>
      (simp only [visit, Node.moved, Node.movedSome_eq, Option.map_none, Option.map_some, addStatement_moved]
       exact congrArg Except.ok (addBranch_moved _ _ _ _ (by simp [Node.span_moved])))
  | switchStatement span discriminant cases =>
    simp only [visit, Node.moved, addStatement_moved]
    exact congrArg Except.ok (addBranch_moved _ _ _ _ (by simp [Function.comp_def, Node.span_moved]))
  | conditional span test consequent alternate =>
    cases consequent <;> cases alternate <;> try rfl
    exact congrArg Except.ok (addBranch_moved _ _ _ _ (by simp [Node.span_moved]))
  | logical span operator left right =>
    cases left <;> cases right <;> try rfl
    exact congrArg Except.ok (addBranch_moved _ _ _ _ (by simp [Node.span_moved]))
  | function span form name parameters body =>
    cases body with
    | none => rfl
    | some body => exact congrArg Except.ok (addFunction_moved t a span name body)
  | _ => exact hother

variable (bytes lines) in
theorem foldlM_moved (places : List (Address × Node)) (t : Numbering) :
    (places.map fun p => (p.1, p.2.moved bytes lines)).foldlM (fun t p => t.visit p.1 p.2) (t.moved lines) =
      moved lines <$> places.foldlM (fun t p => t.visit p.1 p.2) t := by
  induction places generalizing t with
  | nil => rfl
  | cons p places ih =>
    rw [List.map_cons, List.foldlM_cons, List.foldlM_cons, visit_moved]
    cases t.visit p.1 p.2 with
    | error e => rfl
    | ok t' => exact ih t'

end Numbering

/-! ## Indices -/

namespace CoverageIndex

variable {bytes lines : ℕ}

theorem ofNumbering?_moved (t : Numbering) : ofNumbering? (t.moved lines) = moved lines <$> ofNumbering? t := by
  simp only [ofNumbering?, CoverageMap.ofNumbered?, Numbering.moved, Table.dense?_map]
  cases dense? .statement t.statements.entries.toList with
  | error e => rfl
  | ok statements =>
    cases dense? .branch t.branches.entries.toList with
    | error e => rfl
    | ok branches =>
      cases dense? .function t.functions.entries.toList with
      | error e => rfl
      | ok functions => rfl

/-- a program has the same index wherever it stands, up to the lines of its locations -/
theorem ofProgram_moved (program : Node) :
    ofProgram (program.moved bytes lines) = moved lines <$> ofProgram program := by
  have hwalk := Numbering.foldlM_moved bytes lines (program.preorder .root) .empty
  have hempty : Numbering.empty.moved lines = .empty := by
    simp [Numbering.moved, Numbering.empty, Table.map, Table.empty]
  rw [hempty] at hwalk
  rw [ofProgram_eq, ofProgram_eq, Node.preorder_moved, hwalk]
  cases (program.preorder .root).foldlM (fun t p => Numbering.visit t p.1 p.2) .empty with
  | error e =>
    cases e
    rfl
  | ok t => exact ofNumbering?_moved t

end CoverageIndex

end Turnstile
