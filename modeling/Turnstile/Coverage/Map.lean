/-
What each counter of a program counts.

A map gives every statement, branch and function its location. Ids are dense and start at one, so a map is three lists and
the id of an entry is its place in its list. `ofNumbered?` accepts numbered entries only if they are dense and in order.
-/
import Turnstile.Json.Value
import Turnstile.Source.Location

namespace Turnstile

/-- a branching construct with one location for each alternative -/
structure BranchInfo where
  kind : String
  location : Location
  alternatives : List Location
  deriving DecidableEq, Repr

/-- a function with the location of its head, up to its body -/
structure FunctionInfo where
  name : String
  location : Location
  head : Location
  deriving DecidableEq, Repr

structure CoverageMap where
  statements : List Location
  branches : List BranchInfo
  functions : List FunctionInfo
  deriving DecidableEq, Repr

/-- the tables a map has -/
inductive CounterKind where
  | statement
  | branch
  | function
  deriving DecidableEq, Repr

def CounterKind.name : CounterKind → String
  | statement => "statement"
  | branch => "branch"
  | function => "function"

/-- the ids of one table are not dense -/
structure SparseIds where
  table : CounterKind
  deriving DecidableEq, Repr

def SparseIds.message (e : SparseIds) : String := e.table.name ++ " ids must be dense and 1-based"

/-- entries with their ids one after the other, from one on -/
def numbered {α : Type} (xs : List α) : List (Int × α) := xs.zipIdx.map fun (x, i) => (((i + 1 : Nat) : Int), x)

/-- the entries of a table whose ids are dense and in order -/
def dense? {α : Type} (table : CounterKind) (entries : List (Int × α)) : Except SparseIds (List α) :=
  if entries.map (·.1) = (numbered entries).map (·.1) then .ok (entries.map (·.2)) else .error ⟨table⟩

namespace CoverageMap

/-- a map from numbered entries -/
def ofNumbered? (statements : List (Int × Location)) (branches : List (Int × BranchInfo))
    (functions : List (Int × FunctionInfo)) : Except SparseIds CoverageMap := do
  let statements ← dense? .statement statements
  let branches ← dense? .branch branches
  return ⟨statements, branches, ← dense? .function functions⟩

/-- a summary of a map in one line -/
def shown (m : CoverageMap) : String :=
  "InstrumentationMap(statements=" ++ Text.integerText m.statements.length ++ ", branches="
    ++ Text.integerText m.branches.length ++ ", functions=" ++ Text.integerText m.functions.length ++ ")"

end CoverageMap

/-! ## as JSON -/

private def point (line column : Int) : Json := .object [("line", .int line), ("column", .int column)]

def Location.toJson (l : Location) : Json :=
  .object [("start", point l.startLine l.startColumn), ("end", point l.endLine l.endColumn)]

def BranchInfo.toJson (b : BranchInfo) : Json :=
  .object [("type", .string b.kind), ("loc", b.location.toJson),
    ("locations", .array (b.alternatives.map Location.toJson))]

def FunctionInfo.toJson (f : FunctionInfo) : Json :=
  .object [("name", .string f.name), ("decl", f.head.toJson), ("loc", f.location.toJson)]

/-- a table as an object keyed by id -/
def tableJson {α : Type} (entry : α → Json) (xs : List α) : Json :=
  .object ((numbered xs).map fun (id, x) => (Text.integerText id, entry x))

/-- the fields of a map as report generators read them -/
def CoverageMap.fields (m : CoverageMap) : List (String × Json) :=
  [("statementMap", tableJson Location.toJson m.statements), ("branchMap", tableJson BranchInfo.toJson m.branches),
    ("fnMap", tableJson FunctionInfo.toJson m.functions)]

def CoverageMap.toJson (m : CoverageMap) : Json := .object m.fields

end Turnstile
