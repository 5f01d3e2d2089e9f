/-
Typed programs.

A program keeps what counters depend on: statements, branching expressions and functions. Any other expression is a
composite of the expressions inside it, and an expression with none of these inside is dropped. `children` lists the parts
of a node in source order. `operators` and `operands` take a chain of short-circuit operators apart along its left spine,
so that walks can go over a chain in a loop; `operand_lt` says that this shrinks a node.
-/
import Turnstile.Source.Location

namespace Turnstile

/-- a node's place: its position among the parts of its parent, then the parent's, and so on up to the root. The depth is the
length of the path; it tells most addresses apart at once. -/
structure Address where
  depth : Nat
  path : List Nat
  deriving DecidableEq, Repr

namespace Address

def root : Address := ⟨0, []⟩

/-- the place of the part at a position -/
def child (a : Address) (i : Nat) : Address := ⟨a.depth + 1, i :: a.path⟩

end Address

/-- how a function is written -/
inductive FunctionForm where
  | declaration
  | arrow
  | method
  | expression
  deriving DecidableEq, Repr

/-- a declared name, absent for a pattern, and whether a value is given -/
structure Declarator where
  name : Option String
  initialized : Bool
  deriving DecidableEq, Repr

inductive Node where
  | program (span : Span) (body : List Node)
  | directive (span : Span) (value : String)
  /-- `known` is false if the statement was of no known type and is kept as an expression -/
  | expressionStatement (span : Span) (expression : Option Node) (known : Bool)
  | variableDeclaration (span : Span) (keyword : String) (initializers : List Node) (declarators : List Declarator)
  | functionDeclaration (span : Span) (function : Node)
  | classDeclaration (span : Span) (name : Option String) (members : List Node)
  | block (span : Span) (body : List Node)
  | emptyStatement (span : Span)
  | ifStatement (span : Span) (test : Option Node) (consequent : Node) (alternate : Option Node)
  /-- `bodyOffset` is just past the colon -/
  | switchCase (span : Span) (test : Option Node) (body : List Node) (bodyOffset : Nat)
  | switchStatement (span : Span) (discriminant : Option Node) (cases : List Node)
  | whileLoop (span : Span) (test : Option Node) (body : Node)
  | doWhileLoop (span : Span) (body : Node) (test : Option Node)
  | forLoop (span : Span) (header : List Node) (body : Node)
  /-- over the keys or the values of an object, as the operator says -/
  | forInLoop (span : Span) (operator : String) (header : List Node) (body : Node)
  | returnStatement (span : Span) (argument : Option Node)
  | throwStatement (span : Span) (argument : Option Node)
  | breakStatement (span : Span) (label : Option String)
  | continueStatement (span : Span) (label : Option String)
  | labeled (span : Span) (label : Option String) (body : Node)
  | catchClause (span : Span) (parameter : Option Node) (body : Node)
  | tryStatement (span : Span) (block : Node) (handler : Option Node) (finalizer : Option Node)
  | withStatement (span : Span) (object : Option Node) (body : Node)
  | debuggerStatement (span : Span)
  /-- an import or export -/
  | moduleItem (span : Span) (keyword : String) (expressions : List Node)
  | conditional (span : Span) (test consequent alternate : Option Node)
  /-- `&&`, `||` or `??` -/
  | logical (span : Span) (operator : String) (left right : Option Node)
  /-- the body is a block, or the expression of an arrow -/
  | function (span : Span) (form : FunctionForm) (name : Option String) (parameters : List Node) (body : Option Node)
  /-- an initialization block of a class -/
  | staticBlock (span : Span) (body : Node)
  /-- any other expression, with the expressions inside it -/
  | composite (span : Span) (kind : String) (elements : List Node)
  deriving Inhabited

namespace Node

def span : Node → Span
  | program span .. | directive span .. | expressionStatement span .. | variableDeclaration span ..
  | functionDeclaration span .. | classDeclaration span .. | block span .. | emptyStatement span | ifStatement span ..
  | switchCase span .. | switchStatement span .. | whileLoop span .. | doWhileLoop span .. | forLoop span ..
  | forInLoop span .. | returnStatement span .. | throwStatement span .. | breakStatement span ..
  | continueStatement span .. | labeled span .. | catchClause span .. | tryStatement span .. | withStatement span ..
  | debuggerStatement span | moduleItem span .. | conditional span .. | logical span .. | function span ..
  | staticBlock span .. | composite span .. => span

/-- the name of the node's class in listings -/
def kind : Node → String
  | program .. => "Program"
  | directive .. => "Directive"
  | expressionStatement .. => "ExpressionStatement"
  | variableDeclaration .. => "VariableDeclaration"
  | functionDeclaration .. => "FunctionDeclaration"
  | classDeclaration .. => "ClassDeclaration"
  | block .. => "Block"
  | emptyStatement .. => "Empty"
  | ifStatement .. => "If"
  | switchCase .. => "SwitchCase"
  | switchStatement .. => "Switch"
  | whileLoop .. => "While"
  | doWhileLoop .. => "DoWhile"
  | forLoop .. => "For"
  | forInLoop .. => "ForIn"
  | returnStatement .. => "Return"
  | throwStatement .. => "Throw"
  | breakStatement .. => "Break"
  | continueStatement .. => "Continue"
  | labeled .. => "Labeled"
  | catchClause .. => "CatchClause"
  | tryStatement .. => "Try"
  | withStatement .. => "With"
  | debuggerStatement .. => "Debugger"
  | moduleItem .. => "ModuleItem"
  | conditional .. => "Conditional"
  | logical .. => "Logical"
  | function .. => "Function"
  | staticBlock .. => "StaticBlock"
  | composite .. => "Composite"

/-- the parts of a node, in source order -/
def children : Node → List Node
  | program _ body => body
  | directive .. => []
  | expressionStatement _ expression _ => expression.toList
  | variableDeclaration _ _ initializers _ => initializers
  | functionDeclaration _ f => [f]
  | classDeclaration _ _ members => members
  | block _ body => body
  | emptyStatement _ => []
  | ifStatement _ test consequent alternate => test.toList ++ consequent :: alternate.toList
  | switchCase _ test body _ => test.toList ++ body
  | switchStatement _ discriminant cases => discriminant.toList ++ cases
  | whileLoop _ test body => test.toList ++ [body]
  | doWhileLoop _ body test => body :: test.toList
  | forLoop _ header body => header ++ [body]
  | forInLoop _ _ header body => header ++ [body]
  | returnStatement _ argument => argument.toList
  | throwStatement _ argument => argument.toList
  | breakStatement .. => []
  | continueStatement .. => []
  | labeled _ _ body => [body]
  | catchClause _ parameter body => parameter.toList ++ [body]
  | tryStatement _ body handler finalizer => body :: handler.toList ++ finalizer.toList
  | withStatement _ object body => object.toList ++ [body]
  | debuggerStatement _ => []
  | moduleItem _ _ expressions => expressions
  | conditional _ test consequent alternate => test.toList ++ consequent.toList ++ alternate.toList
  | logical _ _ left right => left.toList ++ right.toList
  | function _ _ _ parameters body => parameters ++ body.toList
  | staticBlock _ body => [body]
  | composite _ _ elements => elements

/-- the nodes that take part in the sequence of statements -/
def isStatement : Node → Bool
  | program .. | switchCase .. | catchClause .. | conditional .. | logical .. | function .. | staticBlock ..
  | composite .. => false
  | _ => true

/-- the statements that get a counter: not blocks, not empty ones, not the directive `use strict` -/
def isCounted : Node → Bool
  | block .. | emptyStatement .. => false
  | directive _ value => value ≠ "use strict"
  | n => n.isStatement

def isDirective : Node → Bool
  | directive .. => true
  | _ => false

def isBlock : Node → Bool
  | block .. => true
  | _ => false

def isLogical : Node → Bool
  | logical .. => true
  | _ => false

theorem sizeOf_lt_of_mem_toList {n : Node} {o : Option Node} (h : n ∈ o.toList) : sizeOf n < sizeOf o := by
  cases o <;> simp_all

/-- every part is smaller than the whole -/
theorem sizeOf_lt_of_mem_children {n c : Node} (h : c ∈ n.children) : sizeOf c < sizeOf n := by
  have among {ns : List Node} : c ∈ ns → sizeOf c < sizeOf ns := List.sizeOf_lt_of_mem
  have maybe {o : Option Node} : c ∈ o.toList → sizeOf c < sizeOf o := sizeOf_lt_of_mem_toList
  cases n <;> simp only [children, List.mem_append, List.mem_cons, List.not_mem_nil] at h <;> simp <;> grind

/-! ## places in a program -/

/-- nodes at consecutive positions from `i` on, below the address `a` -/
def placedFrom (a : Address) (i : Nat) : List Node → List (Address × Node)
  | [] => []
  | n :: ns => (a.child i, n) :: placedFrom a (i + 1) ns

/-- the parts of a node at address `a`, with their addresses -/
def placed (a : Address) (n : Node) : List (Address × Node) := placedFrom a 0 n.children

theorem mem_of_mem_placedFrom {a : Address} {i : Nat} {ns : List Node} {p : Address × Node}
    (h : p ∈ placedFrom a i ns) : p.2 ∈ ns := by
  induction ns generalizing i with
  | nil => simp [placedFrom] at h
  | cons n ns ih =>
    rcases List.mem_cons.1 h with rfl | h
    · simp
    · exact List.mem_cons_of_mem _ (ih h)

theorem sizeOf_lt_of_mem_placed {a : Address} {n : Node} {p : Address × Node} (h : p ∈ n.placed a) :
    sizeOf p.2 < sizeOf n :=
  sizeOf_lt_of_mem_children (mem_of_mem_placedFrom h)

/-! ## chains of short-circuit operators -/

/-- the operators nested through the left operand, outermost first -/
def operators (a : Address) : Node → List (Address × Node)
  | logical span operator (some left) right =>
    (a, logical span operator (some left) right) :: operators (a.child 0) left
  | logical span operator none right => [(a, logical span operator none right)]
  | _ => []

/-- the leftmost operand, then the right operands from the innermost operator outward, in front of `rest` -/
def operandsOnto (rest : List (Address × Option Node)) (a : Address) : Node → List (Address × Option Node)
  | logical _ _ (some left) right => operandsOnto ((a.child 1, right) :: rest) (a.child 0) left
  | logical _ _ none right => (a.child 0, none) :: (a.child 0, right) :: rest
  | n => (a, some n) :: rest

/-- the operands of a chain in source order, absent ones included -/
def operands (a : Address) (n : Node) : List (Address × Option Node) := operandsOnto [] a n

theorem mem_operandsOnto {rest : List (Address × Option Node)} {a : Address} {n : Node} {p : Address × Option Node}
    (h : p ∈ operandsOnto rest a n) : p ∈ rest ∨ ∀ m, p.2 = some m → sizeOf m ≤ sizeOf n := by
  fun_induction operandsOnto rest a n with
  | case1 rest a span operator left right ih =>
    rcases ih h with h | h
    · rcases List.mem_cons.1 h with rfl | h
      · refine Or.inr fun m hm => ?_
        subst hm
        simp
        omega
      · exact Or.inl h
    · refine Or.inr fun m hm => ?_
      have := h m hm
      simp
      omega
  | case2 rest a span operator right =>
    simp only [List.mem_cons] at h
    rcases h with rfl | rfl | h
    · simp
    · refine Or.inr fun m hm => ?_
      subst hm
      simp
      omega
    · exact Or.inl h
  | case3 rest a n =>
    rcases List.mem_cons.1 h with rfl | h
    · exact Or.inr fun m hm => by simp_all
    · exact Or.inl h

/-- the operands of a chain are smaller than the chain -/
theorem operand_lt {a b : Address} {n m : Node} (hn : n.isLogical = true) (h : (b, some m) ∈ operands a n) :
    sizeOf m < sizeOf n := by
  cases n with
  | logical span operator left right =>
    cases left with
    | none =>
      simp only [operands, operandsOnto, List.mem_cons, List.not_mem_nil, or_false, Prod.mk.injEq] at h
      rcases h with ⟨_, h⟩ | ⟨_, h⟩
      · simp at h
      · subst h
        simp
        omega
    | some left =>
      rcases mem_operandsOnto (n := left) h with h | h
      · simp only [List.mem_cons, List.not_mem_nil, or_false, Prod.mk.injEq] at h
        obtain ⟨_, rfl⟩ := h
        simp
        omega
      · have := h m rfl
        simp
        omega
  | _ => simp [isLogical] at hn

end Node

end Turnstile
