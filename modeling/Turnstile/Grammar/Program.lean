/-
Reading whole programs.

The levels form a tower: at the bottom everything nests too deep, and each further level reads its constructs with the level
below. `readProgram` is the reader of concrete trees: a text has one exactly if the statements come to its end and nothing in
them is misplaced.
-/
import Turnstile.Grammar.Statement
import Turnstile.Program.Lowering

namespace Turnstile.Grammar

/-- the deepest nesting that is read -/
def maxDepth : Nat := 1000

namespace Level

/-- nothing can be read -/
def bottom (limit : Nat) : Level :=
  ⟨limit, fun _ => throw .tooDeep, fun _ => throw .tooDeep, throw .tooDeep, throw .tooDeep, throw .tooDeep⟩

/-- reads one level deeper than another one -/
def above (g : Level) : Level := ⟨g.limit, g.expressionHere, g.operandHere, g.statementHere, g.objectHere, g.elementHere⟩

def tower (limit : Nat) : Nat → Level
  | 0 => bottom limit
  | n + 1 => (tower limit n).above

end Level

/-- the statements of a whole text -/
def program (limit : Nat) : Parse Tree := do
  let start := nextItem (← get)
  let body ← (Level.tower limit maxDepth).statements
  let c ← Parse.upcoming
  Parse.ensure c.rest.isEmpty
  return .node "program" start.offset c.offset body
where
  /-- in front of the first token or comment -/
  nextItem (c : Cursor) : Cursor := c.skipWhile isGap

/-- the concrete tree of a text -/
def treeOf (src : SourceText) : Except ReadFault Tree :=
  match program (src.text.length + 1) (Cursor.ofString src.text) with
  | .ok (t, _) => if t.hasError then .error .unreadable else .ok t
  | .error e => .error e

/-- reads the language -/
def readProgram : TreeReader := ⟨treeOf, Lowering.usualDepth⟩

end Turnstile.Grammar
