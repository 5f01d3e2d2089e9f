/-
Reading a text from left to right.

A parse moves a cursor and gives a result, or does not fit, or nests too deep. The cursor stays behind the last token, so
that semicolons may be left out by what follows it. `optional` takes a parse back that does not fit, but not one that nests
too deep.
-/
import Turnstile.Concrete.Reader
import Turnstile.Grammar.Literal
import Turnstile.Grammar.Semicolon
import Turnstile.Grammar.Word

namespace Turnstile.Grammar

abbrev Parse := StateT Cursor (Except ReadFault)

namespace Parse

/-- the text does not fit -/
def refuse {α : Type} : Parse α := throw .unreadable

/-- goes on only if a condition holds -/
def ensure (b : Bool) : Parse Unit := if b then pure () else refuse

def ofOption {α : Type} : Option α → Parse α
  | some a => pure a
  | none => refuse

/-- tries a parse; where it does not fit, nothing is read -/
def optional {α : Type} (p : Parse α) : Parse (Option α) := fun c =>
  match p c with
  | .ok (a, d) => .ok (some a, d)
  | .error .unreadable => .ok (none, c)
  | .error .tooDeep => .error .tooDeep

/-- tells whether a parse fits, and reads nothing -/
def fits {α : Type} (p : Parse α) : Parse Bool := fun c =>
  match p c with
  | .ok _ => .ok (true, c)
  | .error .unreadable => .ok (false, c)
  | .error .tooDeep => .error .tooDeep

/-- tries a parse and then another one -/
def orElse {α : Type} (p q : Parse α) : Parse α := fun c =>
  match p c with
  | .error .unreadable => q c
  | r => r

/-- repeats a step until it gives nothing, at most so many times -/
def iterate {α : Type} (step : α → Parse (Option α)) (a : α) : Nat → Parse α
  | 0 => pure a
  | n + 1 => do
    match ← step a with
    | some b => iterate step b n
    | none => pure a

/-! ## tokens -/

/-- in front of the next token -/
def upcoming : Parse Cursor := return nextToken false (← get)

/-- in front of the next token, behind an operand -/
def upcomingOperator : Parse Cursor := return nextToken true (← get)

/-- behind the last token -/
def offset : Parse Nat := return (← get).offset

/-- the next token starts with a text -/
def comesNext (s : String) : Parse Bool := return (← upcoming).startsWith s

/-- reads a symbol and gives where it starts -/
def symbol (s : String) : Parse Nat := do
  let c ← upcoming
  set (← ofOption (c.pass? s))
  return c.offset

/-- reads a symbol if it comes next -/
def symbol? (s : String) : Parse Bool := return (← optional (symbol s)).isSome

/-- the word that comes next; empty if none does -/
def nextWord : Parse String := return ((name? (← upcoming)).map (·.1)).getD ""

/-- reads any word that satisfies a condition, as a node of some kind -/
def wordLeaf (kind : String) (p : String → Bool) : Parse Tree := do
  let c ← upcoming
  let (w, d) ← ofOption (name? c)
  ensure (p w)
  set d
  return .leaf kind c.offset d.offset

/-- reads a word and gives where it starts -/
def keyword (w : String) : Parse Nat := return (← wordLeaf w (· = w)).start

/-- reads a word if it comes next -/
def keyword? (w : String) : Parse Bool := return (← optional (keyword w)).isSome

/-- reads a word as a token -/
def wordToken (w : String) : Parse Tree := do
  let t ← wordLeaf w (· = w)
  return .token w t.start t.stop

/-- reads a literal as a node of some kind -/
def literal (kind : String) (end? : Cursor → Option Cursor) : Parse Tree := do
  let c ← upcoming
  let d ← ofOption (end? c)
  set d
  return .leaf kind c.offset d.offset

/-- the node of some kind over what was read since `start` -/
def since (kind : String) (start : Nat) (children : List Tree) : Parse Tree :=
  return .node kind start (← offset) children

/-! ## semicolons -/

/-- a statement may end here, or behind comments on the same line, without a semicolon -/
def mayEnd (operand : Bool) : Parse Bool := return (semicolonPlace? operand (← get)).isSome

/-- reads a semicolon or a place where none is needed -/
def semicolon (operand : Bool) : Parse Unit := do
  match semicolonPlace? operand (← get) with
  | some d => set d
  | none => discard (symbol ";")

/-- moves to the place where a semicolon is not needed, if there is one -/
def softEnd (operand : Bool) : Parse Unit := do
  match semicolonPlace? operand (← get) with
  | some d => set d
  | none => pure ()

/-- reads a semicolon, or moves to a place where none is needed, if there is one -/
def semicolon? (operand : Bool) : Parse Bool := do
  match semicolonPlace? operand (← get) with
  | some d =>
    set d
    return true
  | none => symbol? ";"

end Parse

end Turnstile.Grammar
