/-
Numbering the counters of a program.

The walk is in pre-order; a node is numbered before its parts, and a chain of short-circuit operators is numbered in a
loop, operators outermost first, before its operands are visited. One count per table runs through the whole program. The
index keeps the map and, for each table, which address received which id.
-/
import Turnstile.Coverage.Map
import Turnstile.Program.MainlineReturn

namespace Turnstile

/-- one node as the walk meets it -/
structure Visit where
  depth : Nat
  address : Address
  node : Node

/-- the visits to a part of a program; all operators of a chain but the first count as one level deeper -/
def Node.visits (depth : Nat) (a : Address) (n : Node) : List Visit :=
  if _h : n.isLogical then
    ⟨depth, a, n⟩ :: ((n.operators a).drop 1).map (fun p => ⟨depth + 1, p.1, p.2⟩)
      ++ (n.operands a).attach.flatMap fun
        | ⟨(b, some m), _⟩ => m.visits (depth + 1) b
        | ⟨(_, none), _⟩ => []
  else ⟨depth, a, n⟩ :: (n.placed a).attach.flatMap fun ⟨(b, c), _⟩ => c.visits (depth + 1) b
termination_by sizeOf n
decreasing_by
  · exact Node.operand_lt _h ‹_›
  · exact Node.sizeOf_lt_of_mem_placed ‹_›

/-- a visit as a line of a listing -/
def Visit.line (v : Visit) : String :=
  String.ofList (List.replicate (2 * v.depth) ' ') ++ v.node.kind ++ " " ++ v.node.span.location.origin none none

/-- a table under construction: entries with their ids, and the ids of addresses -/
structure Table (α : Type) where
  entries : Array (Int × α)
  ids : Array (Address × Nat)

namespace Table

def empty {α : Type} : Table α := ⟨#[], #[]⟩

/-- the id that the next entry receives -/
def nextId {α : Type} (t : Table α) : Nat := t.entries.size + 1

def add {α : Type} (t : Table α) (a : Address) (x : α) : Table α :=
  ⟨t.entries.push (t.nextId, x), t.ids.push (a, t.nextId)⟩

end Table

/-- the tables of a walk -/
structure Numbering where
  statements : Table Location
  branches : Table BranchInfo
  functions : Table FunctionInfo

namespace Numbering

def empty : Numbering := ⟨.empty, .empty, .empty⟩

def addStatement (t : Numbering) (a : Address) (span : Span) : Numbering :=
  { t with statements := t.statements.add a span.location }

def addBranch (t : Numbering) (a : Address) (kind : String) (span : Span) (alternatives : List Location) : Numbering :=
  { t with branches := t.branches.add a ⟨kind, span.location, alternatives⟩ }

/-- a function without a name is called after its id -/
def addFunction (t : Numbering) (a : Address) (span : Span) (name : Option String) (body : Node) : Numbering :=
  let anonymous := "(anonymous_" ++ Text.integerText t.functions.nextId ++ ")"
  let name := match name with
    | some "" => anonymous
    | some s => s
    | none => anonymous
  let bodyStart := body.span.location
  let head : Location :=
    ⟨span.location.startLine, span.location.startColumn, bodyStart.startLine, bodyStart.startColumn⟩
  { t with functions := t.functions.add a ⟨name, span.location, head⟩ }

/-- numbers one node -/
def visit (t : Numbering) (a : Address) (n : Node) : Except MissingOperand Numbering :=
  match n with
  | .ifStatement span _ consequent alternate =>
    let other := match alternate with
      | some m => m.span
      | none => span
    .ok ((t.addStatement a span).addBranch a "if" span [consequent.span.location, other.location])
  | .switchStatement span _ cases =>
    .ok ((t.addStatement a span).addBranch a "switch" span (cases.map fun c => c.span.location))
  | .conditional span _ (some consequent) (some alternate) =>
    .ok (t.addBranch a "cond-expr" span [consequent.span.location, alternate.span.location])
  | .conditional .. => .error .missingOperand
  | .logical span _ (some left) (some right) =>
    .ok (t.addBranch a "binary-expr" span [left.span.location, right.span.location])
  | .logical .. => .error .missingOperand
  | .function span _ name _ (some body) => .ok (t.addFunction a span name body)
  | .function _ _ _ _ none => .error .missingOperand
  | n => .ok (if n.isCounted then t.addStatement a n.span else t)

end Numbering

/-- why a program cannot be numbered -/
inductive IndexFault where
  | missingOperand
  | sparseIds (e : SparseIds)
  deriving DecidableEq, Repr

/-- the map of a program and the ids that its nodes received -/
structure CoverageIndex where
  map : CoverageMap
  statementIds : List (Address × Nat)
  branchIds : List (Address × Nat)
  functionIds : List (Address × Nat)

namespace CoverageIndex

def ofNumbering? (t : Numbering) : Except IndexFault CoverageIndex :=
  match CoverageMap.ofNumbered? t.statements.entries.toList t.branches.entries.toList t.functions.entries.toList with
  | .ok map => .ok ⟨map, t.statements.ids.toList, t.branches.ids.toList, t.functions.ids.toList⟩
  | .error e => .error (.sparseIds e)

/-- numbers every counted node of a program -/
def ofProgram (program : Node) : Except IndexFault CoverageIndex :=
  match (program.visits 0 .root).foldlM (fun t v => Numbering.visit t v.address v.node) Numbering.empty with
  | .ok t => ofNumbering? t
  | .error .missingOperand => .error .missingOperand

end CoverageIndex

end Turnstile
