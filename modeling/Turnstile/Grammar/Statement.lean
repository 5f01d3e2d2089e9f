/-
Statements.

The first word of a statement decides what it is. A contextual word is a name where a semicolon may be left out behind it,
and braces are a block unless they can only be read as an object.
-/
import Turnstile.Grammar.Expression

namespace Turnstile.Grammar

namespace Level

open Parse

variable (g : Level)

/-! ## declarations -/

/-- the value of a name that is declared -/
def initializer (ctx : Context) : Parse (List Tree) := do
  if ← symbol? "=" then return [(← g.expression ctx).inField "value"] else return []

def declarator (ctx : Context) : Parse Tree := do
  let name ← g.binding
  let value ← g.initializer ctx
  since "variable_declarator" name.start (name.inField "name" :: value)

def hasValue (declarator : Tree) : Bool := (declarator.child? "value").isSome

/-- the declarators behind a keyword, up to the semicolon -/
def declaration (kind : String) (start : Nat) (keyword : List Tree) : Parse Tree := do
  let declarators ← g.separated (g.declarator .last)
  semicolon ((declarators.getLast?.map hasValue).getD false)
  since kind start (keyword ++ declarators)

def kindToken (w : String) : Parse Tree := return (← wordToken w).inField "kind"

/-- a name, or a bracket that opens a pattern, comes next -/
def bindingAhead : Parse Bool := do
  let c ← upcoming
  return c.startsWith "\x7b" || c.startsWith "[" || ((name? c).map fun (w, _) => isBindingName w).getD false

/-- a declaration of variables, if one comes next -/
def variables? : Parse (Option Tree) := do
  let start := (← upcoming).offset
  match ← nextWord with
  | "var" =>
    discard (keyword "var")
    some <$> g.declaration "variable_declaration" start []
  | "const" =>
    let kind ← kindToken "const"
    some <$> g.declaration "lexical_declaration" start [kind]
  | "let" => named "lexical_declaration" start (kindToken "let")
  | "using" => named "using_declaration" start (kindToken "using")
  | "await" =>
    named "using_declaration" start do
      let kind ← kindToken "await"
      discard (keyword "using")
      return kind
  | _ => return none
where
  /-- a declaration behind words that are names themselves unless a binding follows -/
  named (kind : String) (start : Nat) (words : Parse Tree) : Parse (Option Tree) := do
    match ← optional (do let token ← words; ensure (← bindingAhead); return token) with
    | some token => some <$> g.declaration kind start [token]
    | none => return none

/-- a class with a name; `operand` tells that it might also be an operand -/
def classDeclaration (operand : Bool) (start : Nat) (decorators : List Tree) : Parse Tree := do
  let parts ← g.classParts true
  softEnd operand
  since "class_declaration" start (decorators ++ parts)

/-- a function with a name comes next, `async` or not -/
def functionAhead : Parse Bool :=
  fits do
    if ← keyword? "async" then ensure (!(← mayEnd true))
    discard (keyword "function")
    discard (symbol? "*")
    wordLeaf "identifier" isBindingName

/-- a class with a name comes next, decorated or not -/
def classAhead : Parse Bool :=
  fits do
    discard g.decorators
    discard (keyword "class")
    wordLeaf "identifier" isBindingName

/-- any declaration, if one comes next -/
def declaration? (operand : Bool) : Parse (Option Tree) := do
  if ← functionAhead then some <$> g.functionDeclaration operand
  else if ← g.classAhead then
    let start := (← upcoming).offset
    some <$> g.classDeclaration operand start (← g.decorators)
  else g.variables?

/-! ## simple statements -/

def expressionStatement : Parse Tree := do
  let t ← g.expressions .last
  ensure (!t.hasError)
  semicolon true
  since "expression_statement" t.start [t]

/-- braces that hold names alone, before an operator that no statement begins with -/
def plainBeforeOperator (block : Tree) : Parse Bool := do
  let plain := block.children.all fun t =>
    t.kind = "expression_statement" && t.children.all fun e =>
      e.kind = "identifier" || (e.kind = "sequence_expression" && e.children.all fun n => n.kind = "identifier")
  if block.children.length ≤ 1 && plain then
    match (← upcoming).rest with
    | '.' :: a :: _ => return !a.isDigit && a ≠ '.'
    | a :: _ => return "=|&?*%^>,".contains a
    | [] => return false
  else return false

/-- braces where a statement begins -/
def braces : Parse Tree := do
  let first ← fits do
    discard (symbol "\x7b")
    let w ← nextWord
    ensure (w = "" || isLabel w)
  let object := do
    ensure first
    g.expressionStatement
  let c ← get
  let t ← g.blockOr object
  if t.kind = "statement_block" then
    if ← plainBeforeOperator t then
      let d ← get
      set c
      match ← optional object with
      | some t => return t
      | none =>
        set d
        return t
    else return t
  else return t

/-- a keyword that stands alone -/
def wordStatement (kind w : String) : Parse Tree := do
  let start ← keyword w
  semicolon false
  since kind start []

/-- a jump, to a label or not -/
def jump (kind w : String) : Parse Tree := do
  let start ← keyword w
  let label ← if ← mayEnd false then pure none else optional (wordLeaf "statement_identifier" isBindingName)
  semicolon false
  since kind start (label.map (·.inField "label")).toList

def returnStatement : Parse Tree := do
  let start ← keyword "return"
  if ← semicolon? false then since "return_statement" start []
  else
    let t ← g.expressions .last
    semicolon true
    since "return_statement" start [t]

def throwStatement : Parse Tree := do
  let start ← keyword "throw"
  let t ← g.expressions .last
  semicolon true
  since "throw_statement" start [t]

def labeled : Parse Tree := do
  let label ← wordLeaf "statement_identifier" isLabel
  discard (symbol ":")
  let body ← g.statement
  since "labeled_statement" label.start [label.inField "label", body.inField "body"]

/-! ## control flow -/

def ifStatement : Parse Tree := do
  let start ← keyword "if"
  let condition ← g.condition
  let consequence ← g.statement
  let alternative ← if (← nextWord) = "else" then
      let begun ← keyword "else"
      let t ← since "else_clause" begun [← g.statement]
      pure [t.inField "alternative"]
    else pure []
  since "if_statement" start (condition.inField "condition" :: consequence.inField "consequence" :: alternative)

/-- a clause of a switch, if one comes next -/
def nextClause : Parse (Option Tree) := do
  let colon := do
    let start ← symbol ":"
    return Tree.token ":" start (start + 1)
  match ← nextWord with
  | "case" =>
    let start ← keyword "case"
    let value ← g.expressions .inner
    let colon ← colon
    let body ← g.statements
    some <$> since "switch_case" start (value.inField "value" :: colon :: body.map (·.inField "body"))
  | "default" =>
    let start ← keyword "default"
    let colon ← colon
    let body ← g.statements
    some <$> since "switch_default" start (colon :: body.map (·.inField "body"))
  | _ => return none

def switchStatement : Parse Tree := do
  let start ← keyword "switch"
  let value ← g.condition
  let brace ← symbol "\x7b"
  let clauses ← g.many g.nextClause
  discard (symbol "\x7d")
  let body ← since "switch_body" brace clauses
  since "switch_statement" start [value.inField "value", body.inField "body"]

/-- a keyword, a condition and a statement -/
def guarded (kind w field : String) : Parse Tree := do
  let start ← keyword w
  let condition ← g.condition
  let body ← g.statement
  since kind start [condition.inField field, body.inField "body"]

def doStatement : Parse Tree := do
  let start ← keyword "do"
  let body ← g.statement
  discard (keyword "while")
  let condition ← g.condition
  discard (semicolon? false)
  since "do_statement" start [body.inField "body", condition.inField "condition"]

def catchClause : Parse Tree := do
  let start ← keyword "catch"
  let parameter ← if ← symbol? "(" then
      let t ← g.binding
      discard (symbol ")")
      pure [t.inField "parameter"]
    else pure []
  let body ← g.block false
  since "catch_clause" start (parameter ++ [body.inField "body"])

def finallyClause : Parse Tree := do
  let start ← keyword "finally"
  let body ← g.block false
  since "finally_clause" start [body.inField "body"]

def tryStatement : Parse Tree := do
  let start ← keyword "try"
  let body ← g.block false
  let handler ← if (← nextWord) = "catch" then pure [(← g.catchClause).inField "handler"] else pure []
  let finalizer ← if (← nextWord) = "finally" then pure [(← g.finallyClause).inField "finalizer"] else pure []
  since "try_statement" start (body.inField "body" :: handler ++ finalizer)

/-! ## loops with headers -/

/-- a variable of a loop over values, behind its keyword -/
def loopVariable : Parse (List Tree) := do
  let w ← nextWord
  ensure (["var", "let", "const", "using"].contains w)
  let kind ← kindToken w
  let left ← g.binding
  let value ← if w = "var" then g.initializer ⟨false, false⟩ else pure []
  ensure (w ≠ "var" || !(← mayEnd !value.isEmpty))
  return kind :: left.inField "left" :: value

/-- what a loop over values assigns to -/
def loopTarget : Parse (List Tree) := do
  let t ← g.suffixed .inner
  return [(← ofOption (assignmentTarget? t)).inField "left"]

/-- `in` or `of` and what is looped over -/
def loopValues : Parse (List Tree) := do
  let operator ← wordToken (if (← nextWord) = "in" then "in" else "of")
  let right ← g.expressions .inner
  discard (symbol ")")
  return [operator.inField "operator", right.inField "right"]

/-- the header of a loop over values, behind its parenthesis -/
def valuesHeader : Parse (List Tree) := do
  let declared := do
    let left ← g.loopVariable
    return left ++ (← g.loopValues)
  let assigned := do
    let left ← g.loopTarget
    return left ++ (← g.loopValues)
  orElse declared assigned

/-- expressions up to a semicolon, or a semicolon alone -/
def headerPart (field : String) : Parse Tree := do
  let c ← upcoming
  if ← symbol? ";" then return (Tree.leaf "empty_statement" c.offset (c.offset + 1)).inField field
  let t ← g.expressions .inner
  discard (symbol ";")
  return t.inField field

/-- the header of a loop with a counter, behind its parenthesis -/
def counterHeader : Parse (List Tree) := do
  let first ← match ← g.variables? with
    | some t => pure (t.inField "initializer")
    | none => g.headerPart "initializer"
  let condition ← g.headerPart "condition"
  let increment ← if ← comesNext ")" then pure [] else pure [(← g.expressions .inner).inField "increment"]
  discard (symbol ")")
  return first :: condition :: increment

def forStatement : Parse Tree := do
  let start ← keyword "for"
  let awaits ← keyword? "await"
  discard (symbol "(")
  match ← optional g.valuesHeader with
  | some header =>
    let body ← g.statement
    since "for_in_statement" start (header ++ [body.inField "body"])
  | none =>
    ensure (!awaits)
    let header ← g.counterHeader
    let body ← g.statement
    since "for_statement" start (header ++ [body.inField "body"])

/-! ## modules -/

/-- a name that a module exports -/
def exportedName : Parse Tree := do
  if (← comesNext "\"") || (← comesNext "'") then literal "string" string?
  else wordLeaf "identifier" fun w => w = "default" || isBindingName w

/-- a name, and maybe another one for it -/
def specifier (kind : String) (name other : Parse Tree) : Parse Tree := do
  let name ← name
  let other ← if ← keyword? "as" then pure [(← other).inField "alias"] else pure []
  since kind name.start (name.inField "name" :: other)

/-- specifiers between braces -/
def specifiers (kind : String) (item : Parse Tree) : Parse Tree := do
  let start ← symbol "\x7b"
  let found ← g.items "\x7d" item
  ensure (!found.elided)
  since kind start found.trees

/-- the module that names come from -/
def source : Parse Tree := return (← literal "string" string?).inField "source"

def fromClause : Parse Tree := do
  discard (keyword "from")
  source

/-- all names of a module under one name -/
def starAs (kind : String) (name : Parse Tree) : Parse Tree := do
  let start ← symbol "*"
  discard (keyword "as")
  since kind start [← name]

def importedNames : Parse Tree := do
  if ← comesNext "*" then starAs "namespace_import" (wordLeaf "identifier" isBindingName)
  else g.specifiers "named_imports" (specifier "import_specifier" exportedName (wordLeaf "identifier" isBindingName))

def importClause : Parse Tree := do
  let c ← upcoming
  if (name? c).isSome then
    let name ← wordLeaf "identifier" isBindingName
    let more ← if ← symbol? "," then pure [← g.importedNames] else pure []
    since "import_clause" c.offset (name :: more)
  else since "import_clause" c.offset [← g.importedNames]

def importStatement : Parse Tree := do
  let start ← keyword "import"
  let what ← if (← comesNext "\"") || (← comesNext "'") then pure [← source]
    else do
      let clause ← g.importClause
      pure [clause, ← fromClause]
  let attributes ← if (← nextWord) = "with" then do
      let begun ← keyword "with"
      pure [← since "import_attribute" begun [← g.objectHere]]
    else pure []
  semicolon false
  since "import_statement" start (what ++ attributes)

/-- what is exported under a name, or from another module -/
def exportedNames : Parse (List Tree) := do
  let parts ← if ← comesNext "*" then
      match ← optional (starAs "namespace_export" exportedName) with
      | some t => pure [t, ← fromClause]
      | none =>
        discard (symbol "*")
        pure [← fromClause]
    else do
      let clause ← g.specifiers "export_clause" (specifier "export_specifier" exportedName exportedName)
      if (← nextWord) = "from" then pure [clause, ← fromClause] else pure [clause]
  semicolon false
  return parts

/-- what is exported as the default of a module -/
def exportedDefault : Parse (List Tree) := do
  discard (keyword "default")
  let declared := do
    match ← g.declaration? true with
    | some t => return [t.inField "declaration"]
    | none => refuse
  let value := do
    let t ← g.expression .last
    semicolon true
    return [t.inField "value"]
  orElse declared value

def exportStatement : Parse Tree := do
  let start := (← upcoming).offset
  let decorators ← g.decorators
  discard (keyword "export")
  let parts ← if (← comesNext "*") || (← comesNext "\x7b") then g.exportedNames
    else if (← nextWord) = "default" then g.exportedDefault
    else
      match ← g.declaration? false with
      | some t => pure [t.inField "declaration"]
      | none => refuse
  since "export_statement" start (decorators ++ parts)

/-! ## any statement -/

/-- the word is a keyword here: it is not contextual, or no statement may end behind it -/
def leads (w : String) : Parse Bool := do
  if !isContextual w then return true
  fits do
    discard (keyword w)
    ensure (!(← mayEnd true))

/-- the next tokens are a label and its colon -/
def labelAhead : Parse Bool :=
  fits do
    discard (wordLeaf "statement_identifier" isLabel)
    symbol ":"

def declarationOrExpression : Parse Tree := do
  match ← g.declaration? true with
  | some t => return t
  | none => g.expressionStatement

/-- a statement that begins with a word -/
def wordStatementHere (w : String) : Parse Tree := do
  match w with
  | "if" => g.ifStatement
  | "switch" => g.switchStatement
  | "while" => g.guarded "while_statement" "while" "condition"
  | "with" => g.guarded "with_statement" "with" "object"
  | "do" => g.doStatement
  | "for" => g.forStatement
  | "try" => g.tryStatement
  | "break" => jump "break_statement" "break"
  | "continue" => jump "continue_statement" "continue"
  | "return" => g.returnStatement
  | "throw" => g.throwStatement
  | "debugger" => wordStatement "debugger_statement" "debugger"
  | "import" => orElse g.expressionStatement g.importStatement
  | "export" => if ← leads w then orElse g.exportStatement g.expressionStatement else g.expressionStatement
  | _ =>
    if ← labelAhead then g.labeled
    else if ← leads w then g.declarationOrExpression
    else g.expressionStatement

def statementHere : Parse Tree := do
  let c ← upcoming
  match c.rest with
  | ';' :: _ =>
    discard (symbol ";")
    return .leaf "empty_statement" c.offset (c.offset + 1)
  | '\x7b' :: _ => g.braces
  | '@' :: _ => orElse g.exportStatement g.declarationOrExpression
  | _ =>
    match ← nextWord with
    | "" => g.expressionStatement
    | w => g.wordStatementHere w

end Level

end Turnstile.Grammar
