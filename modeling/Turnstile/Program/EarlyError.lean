/-
Early errors: programs that parse and that no engine would run.

A jump needs a target, a label must not be declared inside a statement it already labels, `let` is no lexically bound
name, and a `const` needs a value. A function or a static block starts with no targets. The check goes through a program
in pre-order and stops at the first error.
-/
import Turnstile.Program.Node

namespace Turnstile

inductive EarlyErrorCause where
  | labelRedeclared (label : Option String)
  | breakWithoutTarget
  | continueWithoutLoop
  | undefinedLabel (label : Option String)
  | labelOfNoLoop (label : Option String)
  | letAsName
  | constWithoutValue
  deriving DecidableEq, Repr

/-- an error with the statement it is found at -/
structure EarlyError where
  cause : EarlyErrorCause
  location : Location
  deriving DecidableEq, Repr

namespace EarlyErrorCause

/-- a label as it is named in messages -/
def labelText (label : Option String) : String := label.getD "None"

def message : EarlyErrorCause → String
  | labelRedeclared label => "Label '" ++ labelText label ++ "' has already been declared"
  | breakWithoutTarget => "Illegal break statement"
  | continueWithoutLoop => "Illegal continue statement"
  | undefinedLabel label => "Undefined label '" ++ labelText label ++ "'"
  | labelOfNoLoop label =>
    "Illegal continue statement: '" ++ labelText label ++ "' does not denote an iteration statement"
  | letAsName => "let is disallowed as a lexically bound name"
  | constWithoutValue => "Missing initializer in const declaration"

end EarlyErrorCause

namespace EarlyError

/-- a label with whether it is on a loop -/
structure Label where
  name : Option String
  onLoop : Bool
  deriving DecidableEq, Repr

/-- the jump targets at one point of a program; `pending` are the labels right in front of the statement to come -/
structure Scope where
  labels : List Label
  pending : List (Option String)
  inLoop : Bool
  inBreakable : Bool

def Scope.top : Scope := ⟨[], [], false, false⟩

/-- whether the innermost label of a name is on a loop -/
def Scope.find? (s : Scope) (name : Option String) : Option Bool :=
  (s.labels.find? fun l => l.name == name).map (·.onLoop)

/-- inside a statement that takes the pending labels -/
def Scope.enter (s : Scope) (isLoop isBreakable : Bool) : Scope :=
  { labels := s.pending.map (⟨·, isLoop⟩) ++ s.labels
    pending := []
    inLoop := s.inLoop || isLoop
    inBreakable := s.inBreakable || isBreakable }

/-- what is wrong with the declarators of a declaration, the first first -/
def declaratorCause? (keyword : String) (d : Declarator) : Option EarlyErrorCause :=
  if d.name = some "let" then some .letAsName
  else if keyword = "const" && !d.initialized then some .constWithoutValue
  else none

/-- what is wrong at a node itself -/
def causeAt? (s : Scope) : Node → Option EarlyErrorCause
  | .labeled _ label _ =>
    if s.pending.contains label || (s.find? label).isSome then some (.labelRedeclared label) else none
  | .breakStatement _ none => if s.inBreakable then none else some .breakWithoutTarget
  | .breakStatement _ (some label) =>
    if (s.find? (some label)).isSome || s.pending.contains (some label) then none
    else some (.undefinedLabel (some label))
  | .continueStatement _ none => if s.inLoop then none else some .continueWithoutLoop
  | .continueStatement _ (some label) =>
    match s.find? (some label) with
    | none => some (.undefinedLabel (some label))
    | some false => some (.labelOfNoLoop (some label))
    | some true => none
  | .variableDeclaration _ keyword _ declarators =>
    if keyword = "let" || keyword = "const" then declarators.findSome? (declaratorCause? keyword) else none
  | _ => none

/-- the scope of the parts of a node -/
def Scope.within (s : Scope) (n : Node) : Scope :=
  match n with
  | .whileLoop .. | .doWhileLoop .. | .forLoop .. | .forInLoop .. => s.enter true true
  | .switchStatement .. => s.enter false true
  | .labeled _ label _ => { s with pending := label :: s.pending }
  | .function .. | .staticBlock .. => Scope.top
  | n => if n.isStatement then s.enter false false else s

/-- the first early error of a part of a program; the operands of a chain are gone through in a loop -/
def check (s : Scope) (n : Node) : Except EarlyError Unit :=
  match causeAt? s n with
  | some cause => .error ⟨cause, n.span.location⟩
  | none =>
    if _h : n.isLogical then
      (n.operands .root).attach.forM fun
        | ⟨(_, some m), _⟩ => check s m
        | ⟨(_, none), _⟩ => .ok ()
    else n.children.attach.forM fun ⟨c, _⟩ => check (s.within n) c
termination_by sizeOf n
decreasing_by
  · exact Node.operand_lt _h ‹_›
  · exact Node.sizeOf_lt_of_mem_children ‹_›

end EarlyError

/-- the first early error of a program -/
def Node.earlyError (n : Node) : Except EarlyError Unit := EarlyError.check EarlyError.Scope.top n

end Turnstile
