/-
Programs that stand elsewhere.

- `Node.moved`: a program with every place in it a number of bytes and lines further on;
- `Node.preorder_moved`: the nodes of a moved program are the nodes of the program, moved, at the addresses they had;
- `earlyError_moved`: a moved program has the same early error, found at the moved place.
-/
import Turnstile.Proofs.Program.JumpTargets

namespace Turnstile

/-! ## Moving -/

/-- a place some lines further down, in the same columns -/
def Location.moved (lines : ℕ) (l : Location) : Location :=
  ⟨l.startLine + lines, l.startColumn, l.endLine + lines, l.endColumn⟩

/-- a range some bytes and lines further on -/
def Span.moved (bytes lines : ℕ) (s : Span) : Span := ⟨s.start + bytes, s.stop + bytes, s.location.moved lines⟩

/-- an early error that is found some lines further down -/
def EarlyError.moved (lines : ℕ) (e : EarlyError) : EarlyError := { e with location := e.location.moved lines }

variable {bytes lines : ℕ}

@[simp] theorem Span.location_moved (s : Span) : (s.moved bytes lines).location = s.location.moved lines := rfl

namespace Node

section

variable (bytes lines : ℕ)

mutual
/-- a program some bytes and lines further on -/
def moved : Node → Node
  | program span body => program (span.moved bytes lines) (movedAll body)
  | directive span value => directive (span.moved bytes lines) value
  | expressionStatement span expression known =>
    expressionStatement (span.moved bytes lines) (movedSome expression) known
  | variableDeclaration span keyword initializers declarators =>
    variableDeclaration (span.moved bytes lines) keyword (movedAll initializers) declarators
  | functionDeclaration span f => functionDeclaration (span.moved bytes lines) f.moved
  | classDeclaration span name members => classDeclaration (span.moved bytes lines) name (movedAll members)
  | block span body => block (span.moved bytes lines) (movedAll body)
  | emptyStatement span => emptyStatement (span.moved bytes lines)
  | ifStatement span test consequent alternate =>
    ifStatement (span.moved bytes lines) (movedSome test) consequent.moved (movedSome alternate)
  | switchCase span test body offset =>
    switchCase (span.moved bytes lines) (movedSome test) (movedAll body) (offset + bytes)
  | switchStatement span discriminant cases =>
    switchStatement (span.moved bytes lines) (movedSome discriminant) (movedAll cases)
  | whileLoop span test body => whileLoop (span.moved bytes lines) (movedSome test) body.moved
  | doWhileLoop span body test => doWhileLoop (span.moved bytes lines) body.moved (movedSome test)
  | forLoop span header body => forLoop (span.moved bytes lines) (movedAll header) body.moved
  | forInLoop span operator header body => forInLoop (span.moved bytes lines) operator (movedAll header) body.moved
  | returnStatement span argument => returnStatement (span.moved bytes lines) (movedSome argument)
  | throwStatement span argument => throwStatement (span.moved bytes lines) (movedSome argument)
  | breakStatement span label => breakStatement (span.moved bytes lines) label
  | continueStatement span label => continueStatement (span.moved bytes lines) label
  | labeled span label body => labeled (span.moved bytes lines) label body.moved
  | catchClause span parameter body => catchClause (span.moved bytes lines) (movedSome parameter) body.moved
  | tryStatement span body handler finalizer =>
    tryStatement (span.moved bytes lines) body.moved (movedSome handler) (movedSome finalizer)
  | withStatement span object body => withStatement (span.moved bytes lines) (movedSome object) body.moved
  | debuggerStatement span => debuggerStatement (span.moved bytes lines)
  | moduleItem span keyword expressions => moduleItem (span.moved bytes lines) keyword (movedAll expressions)
  | conditional span test consequent alternate =>
    conditional (span.moved bytes lines) (movedSome test) (movedSome consequent) (movedSome alternate)
  | logical span operator left right =>
    logical (span.moved bytes lines) operator (movedSome left) (movedSome right)
  | function span form name parameters body =>
    function (span.moved bytes lines) form name (movedAll parameters) (movedSome body)
  | staticBlock span body => staticBlock (span.moved bytes lines) body.moved
  | composite span kind elements => composite (span.moved bytes lines) kind (movedAll elements)

/-- a part that may be absent, moved -/
def movedSome : Option Node → Option Node
  | none => none
  | some n => some n.moved

/-- parts, moved -/
def movedAll : List Node → List Node
  | [] => []
  | n :: ns => n.moved :: movedAll ns
end

end

@[simp] theorem movedSome_eq (o : Option Node) : movedSome bytes lines o = o.map (moved bytes lines) := by
  cases o <;> simp [movedSome]

@[simp] theorem movedAll_eq (ns : List Node) : movedAll bytes lines ns = ns.map (moved bytes lines) := by
  induction ns with
  | nil => rfl
  | cons n ns ih => simp [movedAll, ih]

theorem span_moved (n : Node) : (n.moved bytes lines).span = n.span.moved bytes lines := by
  cases n <;> rfl

theorem children_moved (n : Node) : (n.moved bytes lines).children = n.children.map (moved bytes lines) := by
  cases n <;> simp [moved, children, Option.toList_map]

@[simp] theorem isStatement_moved (n : Node) : (n.moved bytes lines).isStatement = n.isStatement := by
  cases n <;> rfl

@[simp] theorem isCounted_moved (n : Node) : (n.moved bytes lines).isCounted = n.isCounted := by
  cases n <;> rfl

/-- the parts of a moved node have the addresses they had -/
theorem placed_moved (a : Address) (n : Node) :
    (n.moved bytes lines).placed a = (n.placed a).map fun p => (p.1, p.2.moved bytes lines) := by
  rw [placed, placed, children_moved]
  generalize 0 = i
  induction n.children generalizing i with
  | nil => rfl
  | cons c cs ih => simp [placedFrom, ih]

theorem preorder_moved (a : Address) (n : Node) :
    (n.moved bytes lines).preorder a = (n.preorder a).map fun p => (p.1, p.2.moved bytes lines) := by
  induction n using inductionOn generalizing a with
  | step n ih =>
    rw [preorder_eq, preorder_eq, placed_moved, List.flatMap_map, List.map_cons, List.map_flatMap]
    congr 1
    apply List.flatMap_congr
    intro p hp
    exact ih p.2 (mem_of_mem_placedFrom hp) p.1

/-- no bytes and no lines further on, a program is where it was -/
theorem moved_zero (n : Node) : n.moved 0 0 = n := by
  induction n using inductionOn with
  | step n ih =>
    have hlist : ∀ ns : List Node, (∀ c ∈ ns, c ∈ n.children) → ns.map (moved 0 0) = ns := by
      intro ns hns
      have hcongr : ns.map (moved 0 0) = ns.map id := List.map_congr_left fun c hc => ih c (hns c hc)
      rw [hcongr, List.map_id]
    have hoption : ∀ o : Option Node, (∀ c ∈ o, c ∈ n.children) → o.map (moved 0 0) = o := by
      intro o ho
      cases o with
      | none => rfl
      | some c => rw [Option.map_some, ih c (ho c rfl)]
    cases n <;> simp [moved, Span.moved, Location.moved] <;> simp_all [children]

end Node

/-! ## Early errors -/

open EarlyError

/-- what is wrong at a node has to do with its labels and names only -/
theorem causeAt?_moved (s : EarlyError.Scope) (n : Node) : causeAt? s (n.moved bytes lines) = causeAt? s n := by
  cases n with
  | breakStatement span label => cases label <;> rfl
  | continueStatement span label => cases label <;> rfl
  | _ => rfl

theorem within_moved (s : EarlyError.Scope) (n : Node) : s.within (n.moved bytes lines) = s.within n := by
  cases n <;> rfl

theorem faults_moved (s : EarlyError.Scope) (n : Node) :
    faults s (n.moved bytes lines) = (faults s n).map (EarlyError.moved lines) := by
  induction n using Node.inductionOn generalizing s with
  | step n ih =>
    rw [faults_eq, faults_eq, causeAt?_moved, Node.span_moved, within_moved, Node.children_moved, List.flatMap_map,
      List.map_append, List.map_flatMap]
    congr 1
    · cases causeAt? s n <;> rfl
    · apply List.flatMap_congr
      intro c hc
      exact ih c hc (s.within n)

/-- a program is checked alike wherever it stands -/
theorem earlyError_moved (n : Node) :
    (n.moved bytes lines).earlyError = n.earlyError.mapError (EarlyError.moved lines) := by
  rw [Node.earlyError, Node.earlyError, check_eq_failFirst, check_eq_failFirst, faults_moved]
  cases faults EarlyError.Scope.top n <;> rfl

end Turnstile
