/-
Where counters go in a program.

`edits` lists the insertions for a part of a program, outer ones before inner ones: what a node needs by itself, then part
by part what the part needs for its role and what is inside it. Counters refer to nodes by address; `resolve` replaces
addresses by the ids of an index. `generate?` writes the whole text, the preamble behind the directives at its start.
-/
import Turnstile.Coverage.Index
import Turnstile.Coverage.Trace
import Turnstile.Emit.Edits
import Turnstile.Emit.Snippet
import Turnstile.Source.Text

namespace Turnstile

/-- an insertion whose counter refers to a node by its address -/
abbrev Edit := Insertion (Snippet Address)

/-- what a part is to the node it belongs to -/
inductive Role where
  | plain
  /-- a statement that may have to become a block; counts an alternative of the node if it has one -/
  | arm (slot : Option Nat)
  /-- a clause of a switch, with the offset just past its colon -/
  | clause (slot offset : Nat)
  deriving DecidableEq, Repr

namespace Node

/-- the roles of the parts of a node, in the order of the parts -/
def roles : Node → List Role
  | ifStatement _ test _ alternate =>
    test.toList.map (fun _ => .plain) ++ .arm (some 0) :: alternate.toList.map fun _ => .arm (some 1)
  | whileLoop _ test _ => test.toList.map (fun _ => .plain) ++ [.arm none]
  | doWhileLoop _ _ test => .arm none :: test.toList.map fun _ => .plain
  | forLoop _ header _ => header.map (fun _ => .plain) ++ [.arm none]
  | forInLoop _ _ header _ => header.map (fun _ => .plain) ++ [.arm none]
  | withStatement _ object _ => object.toList.map (fun _ => .plain) ++ [.arm none]
  | switchStatement _ discriminant cases =>
    discriminant.toList.map (fun _ => .plain) ++ cases.zipIdx.map fun
      | (switchCase _ _ _ offset, slot) => .clause slot offset
      | _ => .plain
  | n => n.children.map fun _ => .plain

/-- a part as an arm: a block counts at its top, another statement is put into a block if it is counted or counts -/
def armEdits (counter : Option (Counter Address)) (part : Node) : List Edit :=
  match part with
  | block span _ => (counter.map fun c => .opening (span.start + 1 : Nat) (.count c)).toList
  | part =>
    if counter.isSome || part.isCounted then
      Insertion.wrap part.span.start part.span.stop (.openBlock counter) .closeBlock
    else []

/-- what a part of the node at address `a` needs for its role -/
def roleEdits (a : Address) (role : Role) (part : Node) : List Edit :=
  match role with
  | .plain => []
  | .arm slot => armEdits (slot.map fun i => .branch a i) part
  | .clause slot offset => [.opening offset (.count (.branch a slot))]

/-! ## directives -/

/-- where code can go after the directives that some statements start with, and what has to separate it from them -/
def afterDirectives (data : ByteArray) (statements : List Node) (default : Nat) : Nat × String :=
  match (statements.takeWhile isDirective).getLast? with
  | none => (default, "")
  | some last =>
    let stop := last.span.stop
    let terminated := 0 < stop && data[stop - 1]? == some 59
    (stop, if terminated then "" else ";")

/-- counters of the directives that the statements of the node at address `a` start with, all at one offset -/
def directiveEdits (a : Address) (statements : List Node) (offset : Nat) : List Edit :=
  (((placedFrom a 0 statements).takeWhile fun p => p.2.isDirective).filter fun p => p.2.isCounted).map fun p =>
    .opening offset (.count (.statement p.1))

/-! ## what a node needs by itself -/

/-- an alternative of an expression, counted before it is evaluated -/
def alternativeEdits (a : Address) (slot : Nat) : Option Node → List Edit
  | some part => Insertion.wrap part.span.start part.span.stop (.openSequence (.branch a slot)) .closeSequence
  | none => []

/-- both operands of an operator -/
def operatorEdits : Address × Node → List Edit
  | (a, logical _ _ left right) => alternativeEdits a 0 left ++ alternativeEdits a 1 right
  | _ => []

/-- the counter of a function, at the top of its block or in front of its expression -/
def bodyEdits (data : ByteArray) (a b : Address) (body : Node) : List Edit :=
  match body with
  | block span statements =>
    let (offset, separator) := afterDirectives data statements (span.start + 1)
    .opening offset (.countAfter separator (.function a)) :: directiveEdits b statements offset
  | body => Insertion.wrap body.span.start body.span.stop (.openSequence (.function a)) .closeSequence

/-- the offset of the counter of a statement: that of the labels in front of it if there are any -/
def counterOffset (hoist : Option Nat) (n : Node) : Nat := hoist.getD n.span.start

/-- the counter of a statement -/
def countEdits (hoist : Option Nat) (a : Address) (n : Node) : List Edit :=
  if n.isCounted then [.opening (counterOffset hoist n) (.count (.statement a))] else []

def ownEdits (data : ByteArray) (hoist : Option Nat) (a : Address) (n : Node) : List Edit :=
  match n with
  | directive .. => []
  | ifStatement span _ _ none => countEdits hoist a n ++ [.close span.stop (.elseBlock (.branch a 1))]
  | conditional _ _ consequent alternate => alternativeEdits a 0 consequent ++ alternativeEdits a 1 alternate
  | logical .. => (n.operators a).flatMap operatorEdits
  | function _ _ _ parameters (some body) => bodyEdits data a (a.child parameters.length) body
  | n => countEdits hoist a n

/-- where the counter of a part goes instead of its own start: a label takes it in front of itself -/
def partHoist (hoist : Option Nat) (n part : Node) : Option Nat :=
  match n with
  | labeled .. => if part.isCounted then some (counterOffset hoist n) else none
  | _ => none

/-- the insertions for the part of a program at address `a` -/
def edits (data : ByteArray) (hoist : Option Nat) (a : Address) (n : Node) : List Edit :=
  n.ownEdits data hoist a ++
    if _h : n.isLogical then
      (n.operands a).attach.flatMap fun
        | ⟨(b, some m), _⟩ => m.edits data none b
        | ⟨(_, none), _⟩ => []
    else
      ((n.placed a).attach.zip n.roles).flatMap fun (⟨(b, c), _⟩, role) =>
        roleEdits a role c ++ c.edits data (n.partHoist hoist c) b
termination_by sizeOf n
decreasing_by
  · exact operand_lt _h ‹_›
  · exact sizeOf_lt_of_mem_placed ‹_›

end Node

/-! ## ids for addresses -/

/-- a counted node has no id -/
structure Unnumbered where
  address : Address
  deriving DecidableEq, Repr

namespace CoverageIndex

def idOf (ids : List (Address × Nat)) (a : Address) : Except Unnumbered Nat :=
  match ids.lookup a with
  | some id => .ok id
  | none => .error ⟨a⟩

def resolveCounter (index : CoverageIndex) : Counter Address → Except Unnumbered (Counter Nat)
  | .statement a => .statement <$> idOf index.statementIds a
  | .function a => .function <$> idOf index.functionIds a
  | .branch a slot => (.branch · slot) <$> idOf index.branchIds a

def resolveSnippet (index : CoverageIndex) (s : Snippet Address) : Except Unnumbered (Snippet Nat) :=
  match s.counter with
  | some c => do return ⟨s.before, some (← index.resolveCounter c), s.after⟩
  | none => .ok ⟨s.before, none, s.after⟩

/-- the insertions with ids for addresses -/
def resolve (index : CoverageIndex) (edits : List Edit) : Except Unnumbered (List (Insertion (Snippet Nat))) :=
  edits.mapM fun e => do return ⟨e.offset, ← index.resolveSnippet e.payload, e.closing⟩

end CoverageIndex

/-! ## generated text -/

/-- how counters are written into a unit -/
structure EmitStyle where
  traceVariable : String
  embedSource : Bool
  compact : Bool
  deriving DecidableEq, Repr

/-- the statements of a whole program -/
def Node.programBody : Node → List Node
  | .program _ body => body
  | _ => []

/-- the source lines to put into a trace -/
def EmitStyle.code (style : EmitStyle) (src : SourceText) : Option (List String) :=
  if style.embedSource then some src.lines else none

/-- all insertions for a program; the preamble stands behind its directives -/
def programEdits (style : EmitStyle) (src : SourceText) (program : Node) (map : CoverageMap) (key : String) :
    List Edit :=
  let entry := (Trace.initial map (style.code src)).toJson
  let (offset, separator) := Node.afterDirectives src.data program.programBody 0
  let header := preamble style.traceVariable key entry style.compact
  .opening offset (.plain (separator ++ header)) :: Node.directiveEdits .root program.programBody offset
    ++ program.edits src.data none .root

/-- why no text can be written -/
inductive GenerateFault where
  | unnumbered (e : Unnumbered)
  /-- an insertion cuts a character -/
  | cutCharacter
  deriving DecidableEq, Repr

/-- the generated text of a unit and how many insertions it has -/
structure Generated where
  text : String
  insertions : Nat
  deriving DecidableEq, Repr

/-- the text of a unit with its counters -/
def generate? (style : EmitStyle) (src : SourceText) (program : Node) (index : CoverageIndex) (key : String) :
    Except GenerateFault Generated :=
  match index.resolve (programEdits style src program index.map key) with
  | .error e => .error (.unnumbered e)
  | .ok edits =>
    match insertAll? (Snippet.text (trackerName key)) src.data edits with
    | some text => .ok ⟨text, edits.length⟩
    | none => .error .cutCharacter

end Turnstile
