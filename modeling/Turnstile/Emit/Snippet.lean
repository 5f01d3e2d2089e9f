/-
Pieces of generated code.

A counter is a statement, a function or one alternative of a branch; `ρ` is what it is referred to by, a place in a program
or an id. A snippet increments at most one counter and has fixed text around the increment. The preamble binds the tracker,
the variable through which a file reaches its counts.
-/
import Turnstile.Emit.Output
import Turnstile.Json.Writer
import Turnstile.Text.Digest

namespace Turnstile

inductive Counter (ρ : Type) where
  | statement (ref : ρ)
  | function (ref : ρ)
  | branch (ref : ρ) (slot : Nat)
  deriving DecidableEq, Repr

structure Snippet (ρ : Type) where
  before : String
  counter : Option (Counter ρ)
  after : String
  deriving DecidableEq, Repr

/-- the file key of a text that has none -/
def placeholderKey (code : String) : String := "<anonymous-" ++ Text.Digest.ofText 12 code ++ ">.js"

/-- the variable bound to the counts of a file -/
def trackerName (key : String) : String := "__trace_" ++ Text.Digest.ofText 16 key

namespace Tracker

variable (tracker : String)

/-- the expression that increments a statement counter -/
def statement (id : Int) : String := tracker ++ ".s['" ++ Text.integerText id ++ "']++"

/-- the expression that increments a function counter -/
def function (id : Int) : String := tracker ++ ".f['" ++ Text.integerText id ++ "']++"

/-- the expression that increments an alternative of a branch -/
def branch (id slot : Int) : String :=
  tracker ++ ".b['" ++ Text.integerText id ++ "'][" ++ Text.integerText slot ++ "]++"

end Tracker

/-- the expression that increments a counter -/
def Counter.text (tracker : String) : Counter Nat → String
  | statement id => Tracker.statement tracker id
  | function id => Tracker.function tracker id
  | branch id slot => Tracker.branch tracker id slot

def Snippet.text (tracker : String) (s : Snippet Nat) : String :=
  match s.counter with
  | some c => s.before ++ c.text tracker ++ s.after
  | none => s.before ++ s.after

namespace Snippet

variable {ρ : Type}

def plain (s : String) : Snippet ρ := ⟨s, none, ""⟩

/-- the increment as a statement -/
def count (c : Counter ρ) : Snippet ρ := ⟨"", some c, ";"⟩

/-- the increment as a statement behind a separator -/
def countAfter (separator : String) (c : Counter ρ) : Snippet ρ := ⟨separator, some c, ";"⟩

/-- opens a block, with an increment if there is one -/
def openBlock : Option (Counter ρ) → Snippet ρ
  | some c => ⟨"\x7b", some c, ";"⟩
  | none => plain "\x7b"

def closeBlock : Snippet ρ := plain "\x7d"

/-- an else block that only counts -/
def elseBlock (c : Counter ρ) : Snippet ρ := ⟨" else \x7b ", some c, "; \x7d"⟩

/-- opens a sequence expression that counts first -/
def openSequence (c : Counter ρ) : Snippet ρ := ⟨"(", some c, ", "⟩

def closeSequence : Snippet ρ := plain ")"

end Snippet

/-- a string literal of the generated code -/
def literalText {σ : Type} [Text.CodeText σ] (s : σ) : String := String.ofList (Json.literal s)

/-- how the entry of a file is laid out -/
def entryLayout (compact : Bool) : Json.Layout := if compact then .compact else .spaced

/-- the statements that bind the tracker, first making the record and the entry of the key where they are missing; the trace
variable, the key and the entry are given as texts -/
def preambleText (tracker slot name body : String) (compact : Bool) : String :=
  let o := Output.empty compact
  let o := o.statement ("var " ++ tracker ++ " = (Function('return this'))();")
  let o := o.startBlock ("if (!" ++ tracker ++ "[" ++ slot ++ "])")
  let o := o.statement (tracker ++ "[" ++ slot ++ "] = \x7b\x7d;")
  let o := o.endBlock
  let o := o.statement (tracker ++ " = " ++ tracker ++ "[" ++ slot ++ "];")
  let o := o.startBlock ("if (!(" ++ tracker ++ "[" ++ name ++ "]))")
  let o := o.statement (tracker ++ "[" ++ name ++ "] = " ++ body ++ ";")
  let o := o.endBlock
  let o := o.statement (tracker ++ " = " ++ tracker ++ "[" ++ name ++ "];")
  o.text

/-- the preamble of a file -/
def preamble (traceVariable key : String) (entry : Json) (compact : Bool) : String :=
  preambleText (trackerName key) (literalText traceVariable) (literalText key) (entry.render (entryLayout compact)) compact

/-- why there is no preamble -/
inductive PreambleFault where
  /-- surrogates in the key, of which no digest is taken, behind as many other code points -/
  | surrogates (position : Nat) (points : List Nat)
  /-- an integer with too many digits -/
  | longInteger
  deriving DecidableEq, Repr

/-- the preamble for texts of any code points and any entry -/
def preamble? {σ : Type} [Text.CodeText σ] (traceVariable key : σ) (entry : Json σ) (compact : Bool) :
    Except PreambleFault String := do
  let name ← (Text.CodeText.string? key).mapError fun (position, points) => .surrogates position points
  match entry.render? (entryLayout compact) with
  | some body => return preambleText (trackerName name) (literalText traceVariable) (literalText key) body compact
  | none => throw .longInteger

end Turnstile
