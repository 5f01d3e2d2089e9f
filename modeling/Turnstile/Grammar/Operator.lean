/-
Operators and the trees they form.

A chain of operands and operators is turned into a tree by power: a stack holds the operands whose operators wait for their
right sides, and an operator first takes from it all that bind at least as tightly.
-/
import Turnstile.Concrete.Tree
import Turnstile.Grammar.Literal

namespace Turnstile.Grammar

/-- the symbols that may follow an operand, longer ones first -/
def operatorSymbols : List String := [
  ">>>=", ">>>", ">>=", "<<=", "**=", "&&=", "||=", "??=", "===", "!==", "=>", "==", "!=", "<=", ">=", "&&", "||", "??",
  "?.", "++", "--", "**", "<<", ">>", "+=", "-=", "*=", "/=", "%=", "&=", "|=", "^=", "=", "<", ">", "+", "-", "*", "/",
  "%", "&", "|", "^"
]

/-- the longest operator that stands here, and where it ends -/
def operatorAt? (c : Cursor) : Option (String × Cursor) :=
  match name? c with
  | some (w, d) => if w = "in" || w = "instanceof" then some (w, d) else none
  | none => operatorSymbols.findSome? fun s => (c.pass? s).map fun d => (s, d)

/-- how tightly an operator binds its operands -/
def bindingPower? (operator : String) : Option Nat :=
  match operator with
  | "??" => some 1
  | "||" => some 2
  | "&&" => some 3
  | "|" => some 4
  | "^" => some 5
  | "&" => some 6
  | "==" | "!=" | "===" | "!==" => some 7
  | "<" | "<=" | ">" | ">=" | "in" | "instanceof" => some 8
  | "<<" | ">>" | ">>>" => some 9
  | "+" | "-" => some 10
  | "*" | "/" | "%" => some 11
  | "**" => some 12
  | _ => none

/-- the power whose operators group to the right -/
def rightwardPower : Nat := 12

/-- operators that assign -/
def isAssignment (operator : String) : Bool :=
  ["+=", "-=", "*=", "/=", "%=", "^=", "&=", "|=", ">>=", ">>>=", "<<=", "**=", "&&=", "||=", "??="].contains operator

/-- an operator and the operand to its right -/
structure Link where
  operator : Tree
  power : Nat
  right : Tree

/-- an operator that waits for its right side -/
structure Waiting where
  left : Tree
  operator : Tree
  power : Nat

/-- a private name fits only in front of `in` -/
def asLeftOf (operator : Tree) (left : Tree) : Tree :=
  if operator.kind = "in" && left.kind = "private_property_identifier" then
    { left with isError := false, hasError := false }
  else left

def binary (left operator right : Tree) : Tree :=
  .node "binary_expression" left.start right.stop
    [(asLeftOf operator left).inField "left", operator.inField "operator", right.inField "right"]

/-- gives a right side to the waiting operators that bind more tightly than what follows -/
def settle (power : Nat) (right : Tree) : List Waiting → Tree × List Waiting
  | [] => (right, [])
  | w :: ws =>
    if power < w.power || (power = w.power && power ≠ rightwardPower) then
      settle power (binary w.left w.operator right) ws
    else (right, w :: ws)

/-- the tree of a chain, behind the operators that wait -/
def assembleFrom (waiting : List Waiting) (last : Tree) : List Link → Tree
  | [] => (settle 0 last waiting).1
  | l :: ls =>
    let (left, waiting) := settle l.power last waiting
    assembleFrom (⟨left, l.operator, l.power⟩ :: waiting) l.right ls

/-- the tree of an operand and the operators behind it -/
def assemble (first : Tree) (chain : List Link) : Tree := assembleFrom [] first chain

end Turnstile.Grammar
