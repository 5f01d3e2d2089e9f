/-
Expressions.

An operand is a primary expression with what follows it, or a prefix operator with its operand; an assignment, an arrow
function and `yield` may stand as any operand and then take all that follows. An expression is a chain of operands, which
may be the condition of a conditional one.
-/
import Turnstile.Grammar.Markup
import Turnstile.Grammar.Member

namespace Turnstile.Grammar

/-- a question mark that asks: no part of a longer operator, and on the line break side of no hard space -/
def question? (c : Cursor) : Option Cursor :=
  match (c.skipWhile isSpace).pass? "?" with
  | some d =>
    match d.rest with
    | '?' :: _ => none
    | '.' :: a :: _ => if a.isDigit then some d else none
    | '.' :: [] => none
    | _ => some d
  | none => none

/-- the last comment in front of the next token, or the last token -/
def behindComments (c : Cursor) : Cursor :=
  (betweenTokens? (fun d => (comment? (d.skipWhile isGap)).isNone) c).getD c

/-- what a character may begin an expression with, behind a word that may do without one -/
def beginsExpression (c : Cursor) : Bool :=
  match name? c with
  | some (w, _) => w ≠ "in" && w ≠ "instanceof" && w ≠ "of"
  | none =>
    match c.rest with
    | '.' :: a :: _ => a.isDigit
    | a :: _ => a.isDigit || "\"'`([\x7b!~+-/<@".contains a
    | [] => false

namespace Level

open Parse

variable (g : Level)

/-! ## templates -/

/-- the next substitution of a template, past the text in front of it -/
def nextSubstitution : Parse (Option Tree) := do
  let c ← ofOption (templateText? (← get))
  set c
  match c.pass? "$\x7b" with
  | none => return none
  | some d =>
    set d
    let inside ← g.expressions .inner
    discard (symbol "\x7d")
    return some (← since "template_substitution" c.offset [inside])

def template : Parse Tree := do
  let start ← symbol "`"
  let substitutions ← g.many g.nextSubstitution
  discard (symbol "`")
  since "template_string" start substitutions

/-! ## arrow functions -/

/-- a block that holds one labeled statement may be an object with one member in front -/
def mayBeObject (block : Tree) : Bool :=
  match block.children with
  | [t] => t.kind = "labeled_statement"
  | _ => false

/-- braces as a block, or as an object where they can only be that or the block holds a label -/
def blockOr (object : Parse Tree) : Parse Tree := do
  let c ← get
  match ← optional (g.block true) with
  | none => object
  | some block =>
    if mayBeObject block then
      let d ← get
      set c
      match ← optional object with
      | some t => return t
      | none =>
        set d
        return block
    else return block

/-- an expression in which nothing is misplaced -/
def soundExpression (ctx : Context) : Parse Tree := do
  let t ← g.expression ctx
  ensure (!t.hasError)
  return t

/-- the body of an arrow function -/
def arrowBody (ctx : Context) : Parse Tree := do
  if ← comesNext "\x7b" then g.blockOr (g.soundExpression ctx) else g.expression ctx

/-- an arrow function behind its parameters -/
def arrow (ctx : Context) (start : Nat) (parameters : Tree) : Parse Tree := do
  discard (symbol "=>")
  let body ← g.arrowBody ctx
  since "arrow_function" start [parameters, body.inField "body"]

/-- a name, or an arrow function with one parameter -/
def nameOrArrow (ctx : Context) : Parse Tree := do
  let t ← wordLeaf "identifier" isExpressionName
  if ← comesNext "=>" then g.arrow ctx t.start (t.inField "parameter") else return t

/-- expressions between parentheses, or the parameters of an arrow function -/
def parenthesized (ctx : Context) : Parse Tree := do
  let start ← symbol "("
  let found ← g.items ")" g.spreadable
  let stop ← offset
  if ← comesNext "=>" then
    let parameters ← ofOption (asParameters start stop found)
    g.arrow ctx start (parameters.inField "parameters")
  else
    ensure (found.closed && !found.elided && found.trees.all fun t => t.kind ≠ "spread_element")
    match found.trees with
    | [t] => return .node "parenthesized_expression" start stop [t]
    | ts =>
      let first := (ts.head?.map Tree.start).getD start
      let last := (ts.getLast?.map Tree.stop).getD stop
      return .node "parenthesized_expression" start stop [.node "sequence_expression" first last ts]

/-- an arrow function with one parameter behind `async` -/
def asyncArrow (ctx : Context) (start : Nat) : Parse Tree := do
  let t ← wordLeaf "identifier" isExpressionName
  g.arrow ctx start (t.inField "parameter")

/-- what begins with `async`: a function, a call of that name, or the name -/
def asyncPrimary (ctx : Context) : Parse Tree := do
  let c ← get
  let t ← wordLeaf "identifier" (· = "async")
  if ← ctx.endsHere then return t
  let w ← nextWord
  if w = "function" then
    set c
    g.functionExpression
  else if w ≠ "" then return (← optional (g.asyncArrow ctx t.start)).getD t
  else if ← comesNext "=>" then g.arrow ctx t.start (t.inField "parameter")
  else if ← comesNext "(" then
    let start ← symbol "("
    let found ← g.items ")" g.spreadable
    let stop ← offset
    if ← comesNext "=>" then
      let parameters ← ofOption (asParameters start stop found)
      g.arrow ctx t.start (parameters.inField "parameters")
    else
      let arguments := Tree.node "arguments" start stop found.trees
      return .node "call_expression" t.start stop [t.inField "function", arguments.inField "arguments"]
  else return t

/-! ## primary expressions -/

/-- a property of some object -/
def propertyOf (object : Tree) (optionalMark : List Tree) : Parse Tree := do
  let property ← if ← comesNext "#" then literal "private_property_identifier" privateName?
    else wordLeaf "property_identifier" fun _ => true
  since "member_expression" object.start (object.inField "object" :: optionalMark ++ [property.inField "property"])

/-- an element of some object -/
def elementOf (object : Tree) (optionalMark : List Tree) : Parse Tree := do
  discard (symbol "[")
  let index ← g.expressions .inner
  discard (symbol "]")
  since "subscript_expression" object.start (object.inField "object" :: optionalMark ++ [index.inField "index"])

def call (callee : Tree) (optionalMark : List Tree) : Parse Tree := do
  let arguments ← g.arguments
  since "call_expression" callee.start
    (callee.inField "function" :: optionalMark ++ [arguments.inField "arguments"])

/-- what may follow the mark of an optional chain -/
def chained (object : Tree) : Parse Tree := do
  let start ← symbol "?."
  let mark := (Tree.leaf "optional_chain" start (start + 2)).inField "optional_chain"
  if ← comesNext "(" then g.call object [mark]
  else if ← comesNext "[" then g.elementOf object [mark]
  else propertyOf object [mark]

/-- a property, an element, an optional chain or a template behind some expression -/
def access (t : Tree) : Parse (Option Tree) := do
  let c ← upcomingOperator
  match c.rest with
  | '.' :: _ =>
    discard (symbol ".")
    return some (← propertyOf t [])
  | '?' :: '.' :: r =>
    if (r.head?.map Char.isDigit).getD false then return none
    return some (← g.chained t)
  | '[' :: _ => return some (← g.elementOf t [])
  | '`' :: _ =>
    let arguments ← g.template
    return some (← since "call_expression" t.start [t.inField "function", arguments.inField "arguments"])
  | _ => return none

/-- whatever follows an expression and belongs to it -/
def suffix (ctx : Context) (t : Tree) : Parse (Option Tree) := do
  if ← ctx.endsHere then return none
  let c ← upcomingOperator
  match c.rest with
  | '(' :: _ => return some (← g.call t [])
  | '+' :: '+' :: _ | '-' :: '-' :: _ =>
    let text := String.ofList (c.rest.take 2)
    let start ← symbol text
    let operator := (Tree.token text start (start + 2)).inField "operator"
    return some (← since "update_expression" t.start [t.inField "argument", operator])
  | _ => g.access t

/-- `new` in front of what is constructed -/
def construct (start : Nat) (constructor : Tree) : Parse Tree := do
  let arguments ← if ← comesNext "(" then pure [(← g.arguments).inField "arguments"] else pure []
  since "new_expression" start (constructor.inField "constructor" :: arguments)

/-- what stands between a word and a property that it has by the grammar -/
def metaProperty (start : Nat) (property : String) : Parse Tree := do
  discard (symbol ".")
  discard (keyword property)
  since "meta_property" start []

/-- `import` as the function that loads a module, or as an object -/
def importPrimary : Parse Tree := do
  let start ← keyword "import"
  match ← optional (metaProperty start "meta") with
  | some t => return t
  | none =>
    ensure ((← comesNext "(") || (← comesNext "."))
    since "import" start []

/-- a class, decorated or not -/
def classExpression : Parse Tree := do
  let start := (← upcoming).offset
  let decorators ← g.decorators
  let parts ← g.classParts false
  since "class" start (decorators ++ parts)

/-- leaves that a word makes -/
def leafOfWord? (w : String) : Option String :=
  if ["this", "super", "null", "true", "false", "undefined"].contains w then some w else none

/-- an expression that begins with a word -/
def wordPrimary (ctx : Context) (w : String) : Parse Tree :=
  match leafOfWord? w with
  | some kind => wordLeaf kind fun _ => true
  | none =>
    match w with
    | "function" => g.functionExpression
    | "class" => g.classExpression
    | "async" => g.asyncPrimary ctx
    | "import" => importPrimary
    | _ => g.nameOrArrow ctx

/-- a primary expression other than one that `new` begins -/
def plainPrimary (ctx : Context) : Parse Tree := do
  let c ← upcoming
  match c.rest with
  | '(' :: _ => g.parenthesized ctx
  | '[' :: _ => g.array
  | '\x7b' :: _ => g.objectHere
  | '`' :: _ => g.template
  | '"' :: _ | '\'' :: _ => literal "string" string?
  | '/' :: _ => literal "regex" regex?
  | '<' :: _ => g.element
  | '@' :: _ => g.classExpression
  | '#' :: _ => return (← literal "private_property_identifier" privateName?).misplaced
  | _ =>
    match name? c with
    | some (w, _) => g.wordPrimary ctx w
    | none => literal "number" number?

/-- `new` with what it constructs, or a property of `new`; further ones around it come from `starts`, innermost first -/
def constructed (ctx : Context) : Parse Tree := do
  let openNew := fun (starts : List Nat) => do
    if (← nextWord) ≠ "new" then return none
    let start ← keyword "new"
    ensure (!(← comesNext "."))
    return some (start :: starts)
  let begun := fun (starts : List Nat) => do
    match ← optional (openNew starts) with
    | some starts => return starts
    | none => return none
  let starts ← iterate begun [] g.limit
  let base ← if (← nextWord) = "new" then metaProperty (← keyword "new") "target" else g.plainPrimary ctx
  starts.foldlM (fun t start => do g.construct start (← iterate g.access t g.limit)) base

/-- a primary expression -/
def primary (ctx : Context) : Parse Tree := do
  if (← nextWord) = "new" then g.constructed ctx else g.plainPrimary ctx

/-- a primary expression with all that belongs to it -/
def suffixed (ctx : Context) : Parse Tree := do
  iterate (g.suffix ctx) (← g.primary ctx) g.limit

/-! ## operands -/

/-- what may be assigned to -/
def assignmentTarget? (t : Tree) : Option Tree :=
  if t.kind = "parenthesized_expression" then some t else pattern? .target t

/-- what an operator that also assigns may be applied to -/
def isUpdateTarget (t : Tree) : Bool :=
  ["identifier", "member_expression", "subscript_expression", "parenthesized_expression"].contains t.kind

/-- an operand that begins with a primary expression, or an assignment to it -/
def assigned (ctx : Context) : Parse Tree := do
  let t ← g.suffixed ctx
  if ← ctx.endsHere then return t
  let c ← upcomingOperator
  match operatorAt? c with
  | some ("=", d) =>
    match assignmentTarget? t with
    | none => return t
    | some left =>
      set d
      let right ← g.expression ctx
      since "assignment_expression" t.start [left.inField "left", right.inField "right"]
  | some (operator, d) =>
    if isAssignment operator && isUpdateTarget t then
      set d
      let right ← g.expression ctx
      let mark := (Tree.token operator c.offset d.offset).inField "operator"
      since "augmented_assignment_expression" t.start [t.inField "left", mark, right.inField "right"]
    else return t
  | none => return t

/-- an operand behind a prefix operator -/
def prefixed (ctx : Context) (kind operator : String) (d : Cursor) : Parse Tree := do
  let start := (← upcoming).offset
  set d
  let mark := (Tree.token operator start d.offset).inField "operator"
  since kind start [mark, (← g.operand ctx).inField "argument"]

/-- `await` with an operand; without one it is a name -/
def awaited (ctx : Context) : Parse Tree := do
  let start ← keyword "await"
  since "await_expression" start [← g.operand ctx]

/-- `yield`, with an expression where one follows -/
def yielded (ctx : Context) : Parse Tree := do
  let start ← keyword "yield"
  if ← ctx.endsHere then since "yield_expression" start []
  else if ← symbol? "*" then since "yield_expression" start [← g.expression ctx]
  else if beginsExpression (← upcoming) then since "yield_expression" start [← g.expression ctx]
  else since "yield_expression" start []

/-- the prefix operator that stands here, with the kind of node it makes and where it ends -/
def prefixOperator? (c : Cursor) : Option (String × String × Cursor) :=
  match name? c with
  | some (w, d) =>
    if w = "typeof" || w = "void" || w = "delete" then some ("unary_expression", w, d) else none
  | none =>
    match ["++", "--"].findSome? fun s => (c.pass? s).map fun d => (s, d) with
    | some (s, d) => some ("update_expression", s, d)
    | none => (["!", "~", "+", "-"].findSome? fun s => (c.pass? s).map fun d => (s, d)).map fun (s, d) =>
      ("unary_expression", s, d)

def operandHere (ctx : Context) : Parse Tree := do
  let c ← upcoming
  match prefixOperator? c with
  | some (kind, operator, d) => g.prefixed ctx kind operator d
  | none =>
    match ← nextWord with
    | "await" => orElse (g.awaited ctx) (g.assigned ctx)
    | "yield" => g.yielded ctx
    | _ => g.assigned ctx

/-! ## chains -/

/-- one more operator and its right side, last first -/
def link (ctx : Context) (chain : List Link) : Parse (Option (List Link)) := do
  if ← ctx.endsHere then return none
  let c ← upcomingOperator
  match operatorAt? c with
  | none => return none
  | some (operator, d) =>
    match bindingPower? operator with
    | none => return none
    | some power =>
      if operator = "in" && !ctx.relates then return none
      set d
      return some (⟨.token operator c.offset d.offset, power, ← g.operandHere ctx⟩ :: chain)

/-- a chain of operands -/
def operands (ctx : Context) : Parse Tree := do
  let first ← g.operandHere ctx
  return assemble first (← iterate (g.link ctx) [] g.limit).reverse

/-- an expression without a comma -/
def expressionHere (ctx : Context) : Parse Tree := do
  let t ← g.operands ctx
  if ← ctx.endsHere then return t
  match question? (behindComments (← get)) with
  | none => return t
  | some d =>
    set d
    let consequence ← g.expression .inner
    discard (symbol ":")
    let alternative ← g.expression ctx
    return .node "ternary_expression" t.start alternative.stop
      [t.inField "condition", consequence.inField "consequence", alternative.inField "alternative"]

end Level

end Turnstile.Grammar
