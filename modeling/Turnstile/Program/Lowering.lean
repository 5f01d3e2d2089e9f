/-
Typed programs from concrete trees.

Each node type has its own reading; a reading takes the parts of a node from its fields or from its named children,
comments left out. Readings are built level by level: a reading at one level reads the parts of a node at the level below,
and at level zero the program nests too deep. A chain of short-circuit operators is read in a loop along its left operands
and takes one level however long it is.
-/
import Turnstile.Concrete.Tree
import Turnstile.Program.Node
import Turnstile.Source.Text

namespace Turnstile

/-- why a concrete tree has no typed program -/
inductive LoweringFault where
  /-- a part that its type requires is absent -/
  | missingPart
  /-- an else clause holds no statement -/
  | emptyElse
  /-- a span starts or ends inside a character -/
  | cutCharacter
  | tooDeep
  deriving DecidableEq, Repr

namespace Lowering

/-- a nesting that a call stack of the usual size bears -/
def usualDepth : Nat := 400

/-- how the parts of a node are read; an expression with nothing inside is absent unless it is to be kept -/
structure Reading where
  expression : (keep : Bool) → Tree → Except LoweringFault (Option Node)
  statement : Tree → Except LoweringFault Node

abbrev Result := Except LoweringFault

def spanOf (src : SourceText) (t : Tree) : Span := src.span t.start t.stop

def textOf (src : SourceText) (t : Tree) : Result String :=
  match src.slice? t.start t.stop with
  | some s => .ok s
  | none => .error .cutCharacter

def textOf? (src : SourceText) : Option Tree → Result (Option String)
  | some t => some <$> textOf src t
  | none => .ok none

/-- the child in a field that must be there -/
def required (t : Tree) (field : String) : Result Tree :=
  match t.child? field with
  | some c => .ok c
  | none => .error .missingPart

/-- the expression in a field that may be absent -/
def Reading.field (r : Reading) (keep : Bool) (t : Tree) (field : String) : Result (Option Node) :=
  match t.child? field with
  | some c => r.expression keep c
  | none => .ok none

/-- the expression that a statement's first part is -/
def Reading.firstPart (r : Reading) (t : Tree) : Result (Option Node) :=
  match t.parts with
  | c :: _ => r.expression false c
  | [] => .ok none

/-- the expressions inside some nodes, those with nothing inside left out -/
def Reading.expressions (r : Reading) (ts : List Tree) : Result (List Node) :=
  (List.filterMap id) <$> ts.mapM (r.expression false)

/-- the expressions inside the parts of a node -/
def Reading.subexpressions (r : Reading) (t : Tree) : Result (List Node) := r.expressions t.parts

/-! ## declarations -/

def isDeclaration (t : Tree) : Bool :=
  t.kind = "variable_declaration" || t.kind = "lexical_declaration" || t.kind = "using_declaration"

def declaratorsOf (t : Tree) : List Tree := t.parts.filter fun c => c.kind = "variable_declarator"

/-- the expressions in the names and values of a declaration -/
def Reading.initializers (r : Reading) (t : Tree) : Result (List Node) :=
  r.expressions ((declaratorsOf t).flatMap fun d => (d.child? "name").toList ++ (d.child? "value").toList)

def declarator (src : SourceText) (d : Tree) : Result Declarator := do
  let name ← match d.child? "name" with
    | some n => if n.kind = "identifier" then some <$> textOf src n else pure none
    | none => pure none
  return ⟨name, (d.child? "value").isSome⟩

def Reading.declaration (r : Reading) (src : SourceText) (t : Tree) (keyword : String) : Result Node := do
  let initializers ← r.initializers t
  let declarators ← (declaratorsOf t).mapM (declarator src)
  return .variableDeclaration (spanOf src t) keyword initializers declarators

/-! ## statement sequences -/

/-- the text between the quotes of a string that is a statement of its own -/
def directiveValue? (src : SourceText) (t : Tree) : Result (Option String) :=
  if t.kind = "expression_statement" then
    match t.parts with
    | [c] =>
      if c.kind = "string" then do
        let s ← textOf src c
        return some (String.ofList (s.toList.drop 1).dropLast)
      else .ok none
    | _ => .ok none
  else .ok none

/-- the directives in front of a sequence, then the statements -/
def Reading.prologue (r : Reading) (src : SourceText) : List Tree → Result (List Node)
  | [] => .ok []
  | t :: ts => do
    match ← directiveValue? src t with
    | some value => return .directive (spanOf src t) value :: (← r.prologue src ts)
    | none => (t :: ts).mapM r.statement

def Reading.block (r : Reading) (src : SourceText) (t : Tree) : Result Node := do
  return .block (spanOf src t) (← t.parts.mapM r.statement)

/-- the block of a function, which may start with directives -/
def Reading.functionBlock (r : Reading) (src : SourceText) (t : Tree) : Result Node := do
  return .block (spanOf src t) (← r.prologue src t.parts)

/-! ## expressions -/

def functionForm? (t : Tree) : Option FunctionForm :=
  match t.kind with
  | "function_declaration" | "generator_function_declaration" => some .declaration
  | "arrow_function" => some .arrow
  | "method_definition" => some .method
  | "function" | "function_expression" | "generator_function" => some .expression
  | _ => none

def Reading.function (r : Reading) (src : SourceText) (t : Tree) (form : FunctionForm) : Result Node := do
  let parameters ← match t.child? "parameters" with
    | some p => r.subexpressions p
    | none => pure []
  let b ← required t "body"
  let body ← if b.kind = "statement_block" then some <$> r.functionBlock src b else r.expression true b
  let name ← if form = .arrow then pure none else textOf? src (t.child? "name")
  return .function (spanOf src t) form name parameters body

def isShortCircuit (operator : String) : Bool := operator = "&&" || operator = "||" || operator = "??"

/-- the short-circuit operator that a node applies -/
def logicalOperator? (src : SourceText) (t : Tree) : Result (Option String) :=
  if t.kind = "binary_expression" then do
    match ← textOf? src (t.child? "operator") with
    | some operator => return if isShortCircuit operator then some operator else none
    | none => return none
  else .ok none

/-- the operators along the left operands of a node, innermost first in front of `done` reversed, and the operand that
the innermost one starts with -/
def chainOnto (src : SourceText) (done : List (Tree × String)) (t : Tree) :
    Result (List (Tree × String) × Option Tree) := do
  match ← logicalOperator? src t with
  | none => return (done, some t)
  | some operator =>
    match _h : t.child? "left" with
    | none => return ((t, operator) :: done, none)
    | some left => chainOnto src ((t, operator) :: done) left
termination_by sizeOf t
decreasing_by exact Tree.sizeOf_lt_of_mem_children (Tree.mem_children_of_child? _h)

/-- one more operator around what is read of its left operand -/
def Reading.applyOperator (r : Reading) (src : SourceText) (left : Option Node) (step : Tree × String) :
    Result (Option Node) := do
  return some (.logical (spanOf src step.1) step.2 left (← r.field true step.1 "right"))

/-- a chain of short-circuit operators, rebuilt from the inside out -/
def Reading.logical (r : Reading) (src : SourceText) (t : Tree) : Result (Option Node) := do
  let (steps, first) ← chainOnto src [] t
  let first ← match first with
    | some f => r.expression true f
    | none => pure none
  steps.foldlM (r.applyOperator src) first

def Reading.readExpression (r : Reading) (src : SourceText) (keep : Bool) (t : Tree) : Result (Option Node) :=
  if t.isComment then .ok none
  else
    match functionForm? t with
    | some form => some <$> r.function src t form
    | none =>
      if t.kind = "ternary_expression" then do
        let test ← r.field false t "condition"
        let consequent ← r.field true t "consequence"
        let alternate ← r.field true t "alternative"
        return some (.conditional (spanOf src t) test consequent alternate)
      else do
        match ← logicalOperator? src t with
        | some _ => r.logical src t
        | none =>
          if t.kind = "class_static_block" then
            return some (.staticBlock (spanOf src t) (← r.block src (← required t "body")))
          else if t.kind = "statement_block" then some <$> r.block src t
          else
            let elements ← if isDeclaration t then r.initializers t else r.subexpressions t
            return if elements.isEmpty && !keep then none else some (.composite (spanOf src t) t.kind elements)

/-! ## statements -/

/-- the expressions in front of the body of a loop -/
def Reading.loopPart (r : Reading) (src : SourceText) (t : Tree) : Result (Option Node) :=
  if isDeclaration t then do
    let parts ← r.initializers t
    return if parts.isEmpty then none else some (.composite (spanOf src t) t.kind parts)
  else if t.kind = "expression_statement" then r.firstPart t
  else r.expression false t

/-- the parts of a loop other than its body -/
def loopParts (t : Tree) : List Tree :=
  (t.children.eraseP fun c => c.field == some "body").filter fun c => c.named && !c.isComment

def Reading.loopHeader (r : Reading) (src : SourceText) (t : Tree) : Result (List Node) :=
  (List.filterMap id) <$> (loopParts t).mapM (r.loopPart src)

/-- the statement in a field that must be there -/
def Reading.statementField (r : Reading) (t : Tree) (field : String) : Result Node := do
  r.statement (← required t field)

/-- one clause of a switch: its statements follow its first colon -/
def Reading.switchCase (r : Reading) (src : SourceText) (t : Tree) : Result Node := do
  let afterTest := t.children.dropWhile fun c => c.kind ≠ ":"
  let test ← r.field false t "value"
  let body ← ((afterTest.drop 1).filter fun c => c.named && !c.isComment).mapM r.statement
  return .switchCase (spanOf src t) test body ((afterTest.head?.map Tree.stop).getD t.stop)

def isSwitchCase (t : Tree) : Bool := t.kind = "switch_case" || t.kind = "switch_default"

def Reading.catchClause (r : Reading) (src : SourceText) (t : Tree) : Result Node := do
  let parameter ← r.field false t "parameter"
  return .catchClause (spanOf src t) parameter (← r.block src (← required t "body"))

/-- the statement of a clause of its own -/
def Reading.elseClause (r : Reading) (t : Tree) : Result Node :=
  match t.parts with
  | c :: _ => r.statement c
  | [] => .error .emptyElse

def Reading.ifStatement (r : Reading) (src : SourceText) (t : Tree) : Result Node := do
  let alternate ← match t.child? "alternative" with
    | some c => some <$> r.elseClause c
    | none => pure none
  let test ← r.field false t "condition"
  return .ifStatement (spanOf src t) test (← r.statementField t "consequence") alternate

def Reading.switchStatement (r : Reading) (src : SourceText) (t : Tree) : Result Node := do
  let body ← required t "body"
  let cases ← (body.parts.filter isSwitchCase).mapM (r.switchCase src)
  return .switchStatement (spanOf src t) (← r.field false t "value") cases

def Reading.tryStatement (r : Reading) (src : SourceText) (t : Tree) : Result Node := do
  let handler ← match t.child? "handler" with
    | some h => some <$> r.catchClause src h
    | none => pure none
  let block ← r.block src (← required t "body")
  let finalizer ← match t.child? "finalizer" with
    | some f => some <$> (do r.block src (← required f "body"))
    | none => pure none
  return .tryStatement (spanOf src t) block handler finalizer

def Reading.readStatement (r : Reading) (src : SourceText) (t : Tree) : Result Node :=
  let span := spanOf src t
  match t.kind with
  | "expression_statement" => return .expressionStatement span (← r.firstPart t) true
  | "variable_declaration" => r.declaration src t "var"
  | "lexical_declaration" | "using_declaration" => do
    let keyword ← textOf? src (t.child? "kind")
    r.declaration src t (keyword.getD "let")
  | "function_declaration" | "generator_function_declaration" =>
    return .functionDeclaration span (← r.function src t .declaration)
  | "class_declaration" => do
    let name ← textOf? src (t.child? "name")
    return .classDeclaration span name (← r.subexpressions t)
  | "statement_block" => r.block src t
  | "empty_statement" => return .emptyStatement span
  | "debugger_statement" => return .debuggerStatement span
  | "if_statement" => r.ifStatement src t
  | "switch_statement" => r.switchStatement src t
  | "while_statement" => do
    let test ← r.field false t "condition"
    return .whileLoop span test (← r.statementField t "body")
  | "do_statement" => do
    let body ← r.statementField t "body"
    return .doWhileLoop span body (← r.field false t "condition")
  | "for_statement" => do
    let header ← r.loopHeader src t
    return .forLoop span header (← r.statementField t "body")
  | "for_in_statement" => do
    let operator ← textOf? src (t.child? "operator")
    let header ← r.loopHeader src t
    return .forInLoop span (operator.getD "in") header (← r.statementField t "body")
  | "return_statement" => return .returnStatement span (← r.firstPart t)
  | "throw_statement" => return .throwStatement span (← r.firstPart t)
  | "break_statement" => return .breakStatement span (← textOf? src (t.child? "label"))
  | "continue_statement" => return .continueStatement span (← textOf? src (t.child? "label"))
  | "labeled_statement" => do
    let label ← textOf? src (t.child? "label")
    return .labeled span label (← r.statementField t "body")
  | "try_statement" => r.tryStatement src t
  | "with_statement" => do
    let object ← r.field false t "object"
    return .withStatement span object (← r.statementField t "body")
  | "import_statement" => return .moduleItem span "import" (← r.subexpressions t)
  | "export_statement" => return .moduleItem span "export" (← r.subexpressions t)
  | _ => return .expressionStatement span (some (.composite span t.kind (← r.subexpressions t))) false

/-! ## levels -/

/-- the reading of nodes nested below `depth` levels -/
def reading (src : SourceText) : Nat → Reading
  | 0 => ⟨fun _ _ => .error .tooDeep, fun _ => .error .tooDeep⟩
  | depth + 1 => ⟨(reading src depth).readExpression src, (reading src depth).readStatement src⟩

/-- the typed program of a whole tree that nests at most `depth` levels deep -/
def program (depth : Nat) (src : SourceText) (root : Tree) : Result Node := do
  return .program (spanOf src root) (← (reading src depth).prologue src root.parts)

end Lowering

/-! ## statements of no known type -/

namespace Node

/-- the parts of a node in the order in which they are read -/
def readingOrder : Node → List Node
  | ifStatement _ test consequent alternate => alternate.toList ++ test.toList ++ [consequent]
  | switchStatement _ discriminant cases => cases ++ discriminant.toList
  | tryStatement _ body handler finalizer => handler.toList ++ body :: finalizer.toList
  | n => n.children

theorem mem_children_of_mem_readingOrder {n c : Node} (h : c ∈ n.readingOrder) : c ∈ n.children := by
  cases n <;> simp_all [readingOrder, children] <;> grind

/-- the type that a statement of no known type is kept under -/
def unknownType? : Node → Option String
  | expressionStatement _ (some (composite _ kind _)) false => some kind
  | _ => none

/-- the unknown statement types of a program, in the order in which they are met -/
def unknownTypes (n : Node) : List String :=
  n.unknownType?.toList ++ n.readingOrder.attach.flatMap fun ⟨c, _⟩ => c.unknownTypes
termination_by sizeOf n
decreasing_by exact sizeOf_lt_of_mem_children (mem_children_of_mem_readingOrder ‹_›)

end Node

end Turnstile
