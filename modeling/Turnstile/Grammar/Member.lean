/-
Members of objects and classes.

A member begins with words that modify it, each of which is the name of the member instead where no name follows. In a class
a member that is no method ends like a statement, so a line end may keep a word from being a modifier.
-/
import Turnstile.Grammar.Level

namespace Turnstile.Grammar

namespace Level

open Parse

variable (g : Level)

/-! ## names -/

/-- the name of a member -/
def propertyName : Parse Tree := do
  let c ← upcoming
  match c.rest with
  | '#' :: _ => literal "private_property_identifier" privateName?
  | '[' :: _ =>
    let start ← symbol "["
    let inside ← g.expression .inner
    discard (symbol "]")
    since "computed_property_name" start [inside]
  | '"' :: _ | '\'' :: _ => literal "string" string?
  | _ =>
    match name? c with
    | some _ => wordLeaf "property_identifier" fun _ => true
    | none => literal "number" number?

/-- the next token begins the name of a member -/
def namesMember (c : Cursor) : Bool :=
  (name? c).isSome || (number? c).isSome || c.startsWith "#" || c.startsWith "[" || c.startsWith "\"" || c.startsWith "'"

/-- reads a word that modifies a member; `strict` tells that a member may end behind its name -/
def modifier? (w : String) (strict starred : Bool) : Parse Bool := do
  let behind := do
    discard (keyword w)
    ensure (!(strict && (← mayEnd false)))
    let c ← upcoming
    ensure (namesMember c || (starred && c.startsWith "*"))
  return (← optional behind).isSome

/-- reads the words and the star in front of the name of a member; they are there or not -/
def modifiers (strict : Bool) : Parse Bool := do
  let static ← modifier? "static" strict true
  let async ← modifier? "async" strict true
  let accessor ← modifier? "get" (strict && !static) false <||> modifier? "set" strict false <||> symbol? "*"
  return static || async || accessor

/-! ## decorators -/

/-- one more name of a chain behind a decorator -/
def decoratorName (t : Tree) : Parse (Option Tree) := do
  if ← symbol? "." then
    let property ← wordLeaf "property_identifier" fun _ => true
    return some (← since "member_expression" t.start [t.inField "object", property.inField "property"])
  return none

def decorator : Parse Tree := do
  let start ← symbol "@"
  let name ← wordLeaf "identifier" isBindingName
  let callee ← iterate decoratorName name g.limit
  if ← comesNext "(" then
    let arguments ← g.arguments
    let call ← since "call_expression" callee.start [callee.inField "function", arguments.inField "arguments"]
    since "decorator" start [call]
  else since "decorator" start [callee]

def decorators : Parse (List Tree) :=
  g.many do
    if ← comesNext "@" then return some ((← g.decorator).inField "decorator") else return none

/-! ## objects -/

/-- a method behind its name -/
def method (start : Nat) (decorators : List Tree) (name : Tree) : Parse Tree := do
  let parts ← g.signatureAndBody false
  since "method_definition" start (decorators ++ name.inField "name" :: parts)

/-- a name alone in an object, or one with a default, which only a pattern may have -/
def shorthand (name : Tree) : Parse Tree := do
  ensure (name.kind = "property_identifier")
  if ← symbol? "=" then
    let left := Tree.leaf "shorthand_property_identifier_pattern" name.start name.stop
    let right ← g.expression .inner
    return (← since "object_assignment_pattern" name.start [left.inField "left", right.inField "right"]).misplaced
  else return .leaf "shorthand_property_identifier" name.start name.stop

def objectMember : Parse Tree := do
  if ← comesNext "..." then g.spread
  else
    let start := (← upcoming).offset
    let decorators ← g.decorators
    let modified ← modifiers false
    let name ← g.propertyName
    if ← comesNext "(" then g.method start decorators name
    else
      ensure (!modified && decorators.isEmpty)
      if ← symbol? ":" then
        let value ← g.expression .inner
        since "pair" start [name.inField "key", value.inField "value"]
      else g.shorthand name

def objectHere : Parse Tree := do
  let start ← symbol "\x7b"
  let found ← g.items "\x7d" g.objectMember
  since "object" start found.trees

/-! ## classes -/

/-- a block that runs when its class is made -/
def staticBlock : Parse Tree := do
  let start ← keyword "static"
  ensure (!(← mayEnd false))
  let body ← g.block false
  since "class_static_block" start [body.inField "body"]

/-- a field behind its name -/
def fieldDefinition (start : Nat) (decorators : List Tree) (name : Tree) : Parse Tree := do
  let value ← if ← symbol? "=" then pure [(← g.expression .last).inField "value"] else pure []
  let t ← since "field_definition" start (decorators ++ name.inField "property" :: value)
  semicolon !value.isEmpty
  return t

/-- a method or a field -/
def classMember : Parse Tree := do
  let start := (← upcoming).offset
  let decorators ← g.decorators
  discard (modifiers true)
  let name ← g.propertyName
  if ← comesNext "(" then
    let t ← g.method start decorators name
    discard (symbol? ";")
    return t
  else g.fieldDefinition start decorators name

/-- the next member of a class, past semicolons that stand alone -/
def nextMember : Parse (Option Tree) := do
  discard (iterate (fun _ => do if ← symbol? ";" then return some () else return none) () g.limit)
  if ← comesNext "\x7d" then return none
  return some (← orElse g.staticBlock g.classMember)

def classBody : Parse Tree := do
  let start ← symbol "\x7b"
  let members ← g.many g.nextMember
  discard (symbol "\x7d")
  since "class_body" start (members.map (·.inField "member"))

def heritage : Parse (List Tree) := do
  if (← nextWord) = "extends" then
    let start ← keyword "extends"
    return [← since "class_heritage" start [← g.expression .inner]]
  else return []

/-- the name, the heritage and the body of a class -/
def classParts (named : Bool) : Parse (List Tree) := do
  discard (keyword "class")
  let name ← if named then some <$> wordLeaf "identifier" isBindingName
    else optional (wordLeaf "identifier" isBindingName)
  let heritage ← g.heritage
  let body ← g.classBody
  return (name.map (·.inField "name")).toList ++ heritage ++ [body.inField "body"]

/-! ## functions -/

/-- reads what a function begins with and gives where it starts and whether it is a generator -/
def functionHead : Parse (Nat × Bool) := do
  let start := (← upcoming).offset
  discard (keyword? "async")
  discard (keyword "function")
  return (start, ← symbol? "*")

def functionExpression : Parse Tree := do
  let (start, generator) ← functionHead
  let name ← optional (wordLeaf "identifier" isBindingName)
  let parts ← g.signatureAndBody true
  since (if generator then "generator_function" else "function_expression") start
    ((name.map (·.inField "name")).toList ++ parts)

/-- a function with a name; `operand` tells that it might also be an operand -/
def functionDeclaration (operand : Bool) : Parse Tree := do
  let (start, generator) ← functionHead
  let name ← wordLeaf "identifier" isBindingName
  let parts ← g.signatureAndBody operand
  softEnd operand
  since (if generator then "generator_function_declaration" else "function_declaration") start
    (name.inField "name" :: parts)

end Level

end Turnstile.Grammar
