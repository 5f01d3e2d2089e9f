/-
Choosing a handler by the class of a node.

A walker declares handlers for classes and inherits those of the walkers it extends; the nearest class of the node's ancestry
with a handler decides, and the default handler if there is none. A choice made once is kept in the table of the walker, and
a walker declared later starts from the tables above it as they then are. Handlers are methods, and so is the call that makes
the choice: a handler of its name takes its place.
-/
import Turnstile.OrderedMap
import Turnstile.Text.Quoted

namespace Turnstile

/-- the classes that handlers are declared for -/
structure NodeClass where
  name : String
  deriving DecidableEq, Repr

namespace NodeClass

/-- the classes of statements -/
def statementNames : List String :=
  ["Directive", "ExpressionStatement", "VariableDeclaration", "FunctionDeclaration", "ClassDeclaration", "Block", "Empty",
    "If", "Switch", "While", "DoWhile", "For", "ForIn", "Return", "Throw", "Break", "Continue", "Labeled", "Try", "With",
    "Debugger", "ModuleItem"]

/-- the classes of expressions -/
def expressionNames : List String :=
  ["Conditional", "Logical", "Function", "StaticBlock", "Composite"]

/-- the classes of nodes that are neither -/
def otherNames : List String := ["Program", "SwitchCase", "CatchClause"]

/-- the class of a name, if it is one of a node or of a family of nodes -/
def ofName? (name : String) : Option NodeClass :=
  if name = "JSNode" ∨ name = "Statement" ∨ name = "Expression" ∨ name ∈ statementNames ∨ name ∈ expressionNames
      ∨ name ∈ otherNames then some ⟨name⟩
  else none

/-- a class and those it derives from, nearest first -/
def ancestry (c : NodeClass) : List NodeClass :=
  if c.name ∈ statementNames then [c, ⟨"Statement"⟩, ⟨"JSNode"⟩]
  else if c.name ∈ expressionNames then [c, ⟨"Expression"⟩, ⟨"JSNode"⟩]
  else if c.name = "JSNode" then [c]
  else [c, ⟨"JSNode"⟩]

end NodeClass

/-- what a handler is declared for: a class, a list of declarations, or a name that is no class -/
inductive HandlerType where
  | cls (c : NodeClass)
  | unknown (name : String)
  | group (types : List HandlerType)
  deriving Inhabited

/-- what a handler is chosen by -/
inductive HandlerKey where
  | cls (c : NodeClass)
  | default
  deriving DecidableEq, Repr

/-- what a handler is declared for -/
inductive HandlerDeclaration where
  | handler (types : List HandlerType)
  | default

/-- a method that is declared as a handler; `η` is what a handler is -/
structure HandlerMethod (η : Type) where
  name : String
  handler : η
  declaration : HandlerDeclaration

/-- why a walker cannot be declared -/
inductive WalkerFault where
  | notClass (name : String)
  | twice (walker : String) (c : NodeClass)
  | defaultTwice
  deriving DecidableEq, Repr

/-- a second default is refused for want of a name of its class -/
def WalkerFault.message : WalkerFault → String
  | notClass name => "Expected a type, got " ++ Text.quoted name ++ " instead."
  | twice walker c => walker ++ " has declared with multiple handlers for type " ++ c.name
  | defaultTwice => "'NoneType' object has no attribute '__name__'"

mutual
/-- the classes in a declaration, groups opened -/
def HandlerType.classes : HandlerType → Except WalkerFault (List NodeClass)
  | .cls c => .ok [c]
  | .unknown name => .error (.notClass name)
  | .group types => HandlerType.classesOf types

def HandlerType.classesOf : List HandlerType → Except WalkerFault (List NodeClass)
  | [] => .ok []
  | t :: ts => do
    let cs ← t.classes
    return cs ++ (← HandlerType.classesOf ts)
end

/-- the keys a declaration stands for -/
def HandlerDeclaration.keys : HandlerDeclaration → Except WalkerFault (List HandlerKey)
  | handler types => do return (← HandlerType.classesOf types).map .cls
  | default => .ok [.default]

structure Walker (η : Type) where
  /-- handlers by key -/
  table : OrderedMap HandlerKey η
  /-- the handler that calls run in place of a choice -/
  entry : Option η

namespace Walker

variable {η : Type}

/-- a walker that only refuses -/
def refusing (refusal : η) : Walker η := ⟨.ofList [(.default, refusal)], none⟩

/-- the name of the method that calls run -/
def callName : String := "__call__"

/-- the handler that a walker itself puts in place of the choice -/
def entryOf (methods : List (HandlerMethod η)) : Option η := (methods.find? fun m => m.name = callName).map (·.handler)

/-- the fault of a key with two handlers in one walker -/
def repeated (name : String) : HandlerKey → WalkerFault
  | .cls c => .twice name c
  | .default => .defaultTwice

/-- one more handler of a walker being declared -/
def addHandler (name : String) (table : OrderedMap HandlerKey η) (e : HandlerKey × η) :
    Except WalkerFault (OrderedMap HandlerKey η) :=
  if table.contains e.1 then .error (repeated name e.1) else .ok (table.put e.1 e.2)

/-- a handler under each key it is declared for -/
def keyed (m : HandlerMethod η) : Except WalkerFault (List (HandlerKey × η)) := do
  return (← m.declaration.keys).map (·, m.handler)

/-- the handlers that a walker declares itself; the classes of all handlers are read before any is entered -/
def declared? (name : String) (methods : List (HandlerMethod η)) : Except WalkerFault (OrderedMap HandlerKey η) := do
  let entries ← methods.mapM keyed
  entries.flatten.foldlM (addHandler name) .empty

/-- the handlers of a base, for all that a walker has none for -/
def inherit (w base : Walker η) : Walker η :=
  ⟨base.table.entries.foldl (fun t e => if t.contains e.1 then t else t.put e.1 e.2) w.table, w.entry.or base.entry⟩

/-- a walker that extends others, nearest first, each as it is at the time -/
def extendAll (bases : List (Walker η)) (name : String) (methods : List (HandlerMethod η)) :
    Except WalkerFault (Walker η) := do
  return bases.foldl inherit ⟨← declared? name methods, entryOf methods⟩

/-- a walker that extends another one that has all there is above it -/
def extend (base : Walker η) (name : String) (methods : List (HandlerMethod η)) : Except WalkerFault (Walker η) :=
  extendAll [base] name methods

/-- the handler of the nearest class of an ancestry, or else the default -/
def nearest? (w : Walker η) (ancestry : List NodeClass) : Option η :=
  (ancestry.findSome? fun c => w.table.get? (.cls c)).or (w.table.get? .default)

/-- the handler for a class of a hierarchy, and the walker that remembers the choice -/
def chooseIn (ancestry : NodeClass → List NodeClass) (w : Walker η) (c : NodeClass) : Option η × Walker η :=
  match w.table.get? (.cls c) with
  | some h => (some h, w)
  | none =>
    match w.nearest? (ancestry c) with
    | some h => (some h, { w with table := w.table.put (.cls c) h })
    | none => (none, w)

/-- the handler that a call for a class of a hierarchy runs, and the walker after it -/
def callIn (ancestry : NodeClass → List NodeClass) (w : Walker η) (c : NodeClass) : Option η × Walker η :=
  match w.entry with
  | some h => (some h, w)
  | none => w.chooseIn ancestry c

/-- the handler that a call for a class of nodes runs -/
def call (w : Walker η) (c : NodeClass) : Option η × Walker η := w.callIn NodeClass.ancestry c

end Walker

end Turnstile
