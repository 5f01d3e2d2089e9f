/-
Levels of nesting, and what is built from any level.

A level says how the constructs are read that may hold each other. Productions are functions of a level: they read the parts
of a construct at the level they are given, so that a tower of levels bounds how deep constructs nest. Here are the
productions that expressions and statements share: lists, sequences, blocks and parameters.
-/
import Turnstile.Grammar.Operator
import Turnstile.Grammar.Parse
import Turnstile.Grammar.Pattern

namespace Turnstile.Grammar

/-- where an expression stands -/
structure Context where
  /-- a statement may end behind it -/
  ends : Bool
  /-- `in` is an operator in it -/
  relates : Bool
  deriving DecidableEq, Repr

/-- between brackets of some kind -/
def Context.inner : Context := ⟨false, true⟩

/-- at the end of a statement -/
def Context.last : Context := ⟨true, true⟩

/-- the expression ends here since a statement may end here and does -/
def Context.endsHere (ctx : Context) : Parse Bool := if ctx.ends then Parse.mayEnd true else pure false

structure Level where
  /-- more than any list in the text has items -/
  limit : Nat
  /-- an expression without a comma -/
  expression : Context → Parse Tree
  /-- an operand of an operator -/
  operand : Context → Parse Tree
  statement : Parse Tree
  object : Parse Tree
  /-- an element of markup -/
  element : Parse Tree

/-- the items of a list -/
structure Items where
  trees : List Tree
  /-- an item is left out somewhere -/
  elided : Bool
  /-- the last item has no comma behind it -/
  closed : Bool

namespace Level

open Parse

variable (g : Level)

/-! ## lists -/

/-- one more item or comma of a list, last item first -/
def itemOrComma (close : String) (item : Parse Tree) (found : Items) : Parse (Option Items) := do
  if ← comesNext close then return none
  if ← symbol? "," then return some { found with elided := found.elided || !found.closed, closed := false }
  ensure (!found.closed)
  return some { found with trees := (← item) :: found.trees, closed := true }

/-- items between brackets that have been opened, with commas between; any item may be left out -/
def items (close : String) (item : Parse Tree) : Parse Items := do
  let found ← iterate (itemOrComma close item) ⟨[], false, false⟩ g.limit
  discard (symbol close)
  return { found with trees := found.trees.reverse }

/-- at least one item, with commas between, last item first -/
def separated (item : Parse Tree) : Parse (List Tree) := do
  let more := fun found => do
    if ← symbol? "," then return some ((← item) :: found) else return none
  return (← iterate more [← item] g.limit).reverse

/-- everything that a parse gives until it gives nothing -/
def many (item : Parse (Option Tree)) : Parse (List Tree) := do
  let more := fun found => do
    match ← item with
    | some t => return some (t :: found)
    | none => return none
  return (← iterate more [] g.limit).reverse

/-- an expression behind dots -/
def spread : Parse Tree := do
  let start ← symbol "..."
  since "spread_element" start [← g.expression .inner]

/-- an expression, spread or not -/
def spreadable : Parse Tree := do
  if ← comesNext "..." then g.spread else g.expression .inner

def array : Parse Tree := do
  let start ← symbol "["
  let found ← g.items "]" g.spreadable
  since "array" start found.trees

def arguments : Parse Tree := do
  let start ← symbol "("
  let found ← g.items ")" g.spreadable
  since "arguments" start found.trees

/-- an expression, or several with commas between -/
def expressions (ctx : Context) : Parse Tree := do
  match ← g.separated (g.expression ctx) with
  | [t] => return t
  | ts => return .node "sequence_expression" ((ts.head?.map Tree.start).getD 0) (← offset) ts

/-- expressions between parentheses -/
def condition : Parse Tree := do
  let start ← symbol "("
  let inside ← g.expressions .inner
  discard (symbol ")")
  since "parenthesized_expression" start [inside]

/-! ## blocks -/

/-- the next statement, unless the block or clause ends here -/
def nextStatement : Parse (Option Tree) := do
  let c ← upcoming
  if c.rest.isEmpty || c.startsWith "\x7d" then return none
  let w ← nextWord
  if w = "case" || w = "default" then return none
  return some (← g.statement)

def statements : Parse (List Tree) := g.many g.nextStatement

/-- statements between braces; `operand` tells that the braces may end an operand -/
def block (operand : Bool) : Parse Tree := do
  let start ← symbol "\x7b"
  let body ← g.statements
  discard (symbol "\x7d")
  softEnd operand
  since "statement_block" start body

/-! ## parameters -/

/-- a name, or a pattern in an object or a list -/
def binding : Parse Tree := do
  if ← comesNext "\x7b" then ofOption (pattern? .target (← g.object))
  else if ← comesNext "[" then ofOption (pattern? .target (← g.array))
  else wordLeaf "identifier" isBindingName

/-- a parameter: the rest of all, or a binding that may have a default -/
def parameter : Parse Tree := do
  if ← comesNext "..." then
    let start ← symbol "..."
    since "rest_pattern" start [← g.binding]
  else
    let left ← g.binding
    if ← symbol? "=" then
      let right ← g.expression .inner
      since "assignment_pattern" left.start [left.inField "left", right.inField "right"]
    else return left

/-- parameters between parentheses -/
def parameters : Parse Tree := do
  let start ← symbol "("
  let found ← g.items ")" g.parameter
  ensure (!found.elided)
  since "formal_parameters" start found.trees

/-- the parameters that a list between parentheses turns out to be -/
def asParameters (start stop : Nat) (found : Items) : Option Tree :=
  if found.elided then none
  else (patterns? .element found.trees).map (Tree.node "formal_parameters" start stop)

/-- the parameters and the body of a function; `operand` tells that the function may be an operand -/
def signatureAndBody (operand : Bool) : Parse (List Tree) := do
  let parameters ← g.parameters
  let body ← g.block operand
  return [parameters.inField "parameters", body.inField "body"]

end Level

end Turnstile.Grammar
