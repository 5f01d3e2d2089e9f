/-
Programs with counters, written recursively.

No insertion is sorted here: every node is written with its parts in it, and every part with what stands around it or at its
top. `Node.render` is the text of a node, `renderProgram` that of a program.
- `leading`: the counters directly in front of a statement, those of labeled statements in front of all their labels;
- `settings`: what encloses the parts of a node, or stands at their top;
- `stitch`: source text with rendered parts in it.
-/
import Turnstile.Emit.Generate
import Turnstile.Proofs.Emit.Weaving
import Turnstile.Proofs.Program.Preorder

namespace Turnstile

/-- a piece of a text with counters that refer to places in the program -/
abbrev CodePiece := Piece (Snippet Address)

/-- what is added to a part: a pair of brackets with the part and its leading counters between them, or code at its top -/
inductive Setting where
  | around (opener : Option (Snippet Address)) (counters : List (Snippet Address)) (closer : Option (Snippet Address))
  | atTop (code : List (Snippet Address))

namespace Node

/-- the counters directly in front of a node; a label has those of what is labeled in front of itself -/
def leading (a : Address) : Node → List (Snippet Address)
  | directive .. => []
  | labeled _ _ body => .count (.statement a) :: body.leading (a.child 0)
  | n => if n.isCounted then [.count (.statement a)] else []

/-- the counters of the directives that the statements of the node at address `a` start with -/
def directiveCounts (a : Address) (statements : List Node) : List (Snippet Address) :=
  (((placedFrom a 0 statements).takeWhile fun p => p.2.isDirective).filter fun p => p.2.isCounted).map fun p =>
    .count (.statement p.1)

end Node

/-! ## What is added to a part -/

namespace Setting

/-- a part with its counters in front -/
def bare (p : Address × Node) : Setting := .around none (p.2.leading p.1) none

def enclosed (opener closer : Snippet Address) (p : Address × Node) : Setting :=
  .around (some opener) (p.2.leading p.1) (some closer)

/-- a statement that may have to become a block, and may be counted as an alternative -/
def arm (counter : Option (Counter Address)) (p : Address × Node) : Setting :=
  match p.2 with
  | .block .. => .atTop (counter.map .count).toList
  | n => if counter.isSome || n.isCounted then enclosed (.openBlock counter) .closeBlock p else bare p

def clause (counter : Counter Address) (_ : Address × Node) : Setting := .atTop [.count counter]

/-- an expression that counts first -/
def counting (counter : Counter Address) (p : Address × Node) : Setting :=
  enclosed (.openSequence counter) .closeSequence p

/-- the body of a function: a block counts behind its directives -/
def body (data : ByteArray) (counter : Counter Address) (p : Address × Node) : Setting :=
  match p.2 with
  | .block span statements =>
    .atTop (.countAfter (Node.afterDirectives data statements (span.start + 1)).2 counter ::
      Node.directiveCounts p.1 statements)
  | _ => counting counter p

end Setting

namespace Node

/-- what is added to the parts of the node at address `a` -/
def settings (data : ByteArray) (a : Address) : Node → List (Address × Node → Setting)
  | labeled .. => [fun _ => .around none [] none]
  | ifStatement _ test _ alternate =>
    test.toList.map (fun _ => .bare) ++ .arm (some (.branch a 0)) ::
      alternate.toList.map fun _ => .arm (some (.branch a 1))
  | whileLoop _ test _ => test.toList.map (fun _ => .bare) ++ [.arm none]
  | doWhileLoop _ _ test => .arm none :: test.toList.map fun _ => .bare
  | forLoop _ header _ => header.map (fun _ => .bare) ++ [.arm none]
  | forInLoop _ _ header _ => header.map (fun _ => .bare) ++ [.arm none]
  | withStatement _ object _ => object.toList.map (fun _ => .bare) ++ [.arm none]
  | switchStatement _ discriminant cases =>
    discriminant.toList.map (fun _ => .bare) ++ (List.range cases.length).map fun slot => .clause (.branch a slot)
  | conditional _ test consequent alternate =>
    test.toList.map (fun _ => .bare) ++ consequent.toList.map (fun _ => .counting (.branch a 0)) ++
      alternate.toList.map fun _ => .counting (.branch a 1)
  | logical _ _ left right =>
    left.toList.map (fun _ => .counting (.branch a 0)) ++ right.toList.map fun _ => .counting (.branch a 1)
  | function _ _ _ parameters body =>
    parameters.map (fun _ => .bare) ++ body.toList.map fun _ => .body data (.function a)
  | n => n.children.map fun _ => .bare

/-- the parts of a node, each with what is added to it -/
def parts (data : ByteArray) (a : Address) (n : Node) : List ((Address × Node) × Setting) :=
  ((n.placed a).zip (n.settings data a)).map fun x => (x.1, x.2 x.1)

/-- where the top of a node is: how many parts stand in front of it, and the offset behind them. A block has it behind its
directives, a clause behind its colon. -/
def top? (data : ByteArray) : Node → Option (ℕ × ℕ)
  | block span body => some ((body.takeWhile isDirective).length, (afterDirectives data body (span.start + 1)).1)
  | switchCase _ test _ offset => some (test.toList.length, offset)
  | _ => none

/-- what follows an `if` without an else -/
def missingElse (a : Address) : Node → Option (Snippet Address)
  | ifStatement _ _ _ none => some (.elseBlock (.branch a 1))
  | _ => none

end Node

/-! ## Source text with rendered parts -/

/-- a byte range with what is written for it -/
structure Item where
  start : ℕ
  stop : ℕ
  pieces : List CodePiece

/-- the source up to `hi`, with items in place of their ranges -/
def stitch (hi : ℕ) : ℕ → List Item → List CodePiece
  | lo, [] => [.source lo hi]
  | lo, item :: items => .source lo item.start :: (item.pieces ++ stitch hi item.stop items)

/-- code at a place between items -/
def Item.code (offset : ℕ) (code : List (Snippet Address)) : Item := ⟨offset, offset, code.map .inserted⟩

/-- items with code behind the first `k` of them -/
def insertCode (k offset : ℕ) (code : List (Snippet Address)) (items : List Item) : List Item :=
  items.take k ++ .code offset code :: items.drop k

/-- a part with what is added to it, `write` being the part with code at its top -/
def Setting.item (write : List (Snippet Address) → List CodePiece) (n : Node) : Setting → Item
  | around opener counters closer => ⟨n.span.start, n.span.stop,
      (opener.toList ++ counters).map .inserted ++ write [] ++ closer.toList.map .inserted⟩
  | atTop code => ⟨n.span.start, n.span.stop, write code⟩

/-- a node with code at its top, and all that is inside it -/
def Node.render (data : ByteArray) (a : Address) (n : Node) (code : List (Snippet Address)) : List CodePiece :=
  let items := ((n.placed a).attach.zip (n.settings data a)).map fun (⟨(b, c), _⟩, setting) =>
    (setting (b, c)).item (fun code => c.render data b code) c
  let items := match n.top? data with
    | some (k, offset) => insertCode k offset code items
    | none => items
  stitch n.span.stop n.span.start items ++ (n.missingElse a).toList.map .inserted
termination_by sizeOf n
decreasing_by exact Node.sizeOf_lt_of_mem_placed ‹_›

/-- a whole text: the preamble and the counters of the directives stand behind the directives -/
def renderProgram (style : EmitStyle) (src : SourceText) (program : Node) (map : CoverageMap) (key : String) :
    List CodePiece :=
  let (offset, separator) := Node.afterDirectives src.data program.programBody 0
  let header := preamble style.traceVariable key (Trace.initial map (style.code src)).toJson style.compact
  let items := (Node.placedFrom .root 0 program.programBody).map fun p =>
    (Setting.bare p).item (fun code => p.2.render src.data p.1 code) p.2
  stitch src.data.size 0 (insertCode (program.programBody.takeWhile Node.isDirective).length offset
    (.plain (separator ++ header) :: Node.directiveCounts .root program.programBody) items)

/-! ## Spans that nest -/

/-- nodes one behind the other from `lo` to `hi`, none of them empty -/
def InOrder (hi : ℕ) : ℕ → List Node → Prop
  | lo, [] => lo ≤ hi
  | lo, n :: ns => lo ≤ n.span.start ∧ n.span.start < n.span.stop ∧ InOrder hi n.span.stop ns

instance decidableInOrder (hi : ℕ) : (lo : ℕ) → (ns : List Node) → Decidable (InOrder hi lo ns)
  | lo, [] => inferInstanceAs (Decidable (lo ≤ hi))
  | lo, n :: ns =>
    have := decidableInOrder hi n.span.stop ns
    inferInstanceAs (Decidable (lo ≤ n.span.start ∧ n.span.start < n.span.stop ∧ InOrder hi n.span.stop ns))

namespace Node

/-- a clause counts before an offset -/
def CountsBefore (hi : ℕ) : Node → Prop
  | switchCase _ _ _ offset => offset < hi
  | _ => True

instance (hi : ℕ) (n : Node) : Decidable (n.CountsBefore hi) := by
  cases n <;> dsimp only [CountsBefore] <;> infer_instance

/-- the parts of a node are inside it and in order: those of a block between its braces, those of a clause on their sides of
its colon -/
def PartsInOrder : Node → Prop
  | block span body => InOrder (span.stop - 1) (span.start + 1) body
  | switchCase span test body offset => InOrder offset span.start test.toList ∧ InOrder span.stop offset body
  | switchStatement span discriminant cases =>
    InOrder span.stop span.start (discriminant.toList ++ cases) ∧ ∀ c ∈ cases, c.CountsBefore span.stop
  | n => InOrder n.span.stop n.span.start n.children

instance (n : Node) : Decidable n.PartsInOrder := by
  cases n <;> dsimp only [PartsInOrder] <;> infer_instance

/-- the offsets that a node has: those of its span, of the inside of a block, and of the colon of a clause -/
def offsets : Node → List ℕ
  | block span _ => [span.start, span.start + 1, span.stop]
  | switchCase span _ _ offset => [span.start, offset, span.stop]
  | n => [n.span.start, n.span.stop]

/-- the nodes of a part nest, and their offsets cut no character -/
structure Laminar (text : String) (a : Address) (n : Node) : Prop where
  inOrder : ∀ p ∈ n.preorder a, p.2.PartsInOrder
  boundary : ∀ p ∈ n.preorder a, ∀ offset ∈ p.2.offsets, Boundary text offset

instance (text : String) (a : Address) (n : Node) : Decidable (n.Laminar text a) :=
  decidable_of_iff ((∀ p ∈ n.preorder a, p.2.PartsInOrder) ∧
    ∀ p ∈ n.preorder a, ∀ offset ∈ p.2.offsets, Boundary text offset) ⟨fun h => ⟨h.1, h.2⟩, fun h => ⟨h.1, h.2⟩⟩

end Node

end Turnstile
