/-
Hit counts of one source file.

A trace counts how often each statement, branch alternative and function was reached, and may carry the source lines.
`initial` is the trace of a map with every count at zero; `merge` adds counts; `ofJson?` and `toJson?` are its wire form,
where ids are strings of decimal digits. A trace with an id of too many digits has no wire form.
-/
import Turnstile.Coverage.Map
import Turnstile.OrderedMap

namespace Turnstile

structure Trace (σ : Type := String) where
  statements : OrderedMap Int Int
  branches : OrderedMap Int (List Int)
  functions : OrderedMap Int Int
  code : Option (List (Json σ))
  deriving Inhabited

/-- covered counters and all counters -/
structure Tally where
  covered : Nat
  total : Nat
  deriving DecidableEq, Repr

def Tally.ofCounts (counts : List Int) : Tally := ⟨counts.countP (· ≠ 0), counts.length⟩

namespace Trace

def empty : Trace := ⟨.empty, .empty, .empty, none⟩

/-- counts at zero under the ids of some entries -/
def zeros {α β : Type} (zero : α → β) (xs : List α) : OrderedMap Int β :=
  OrderedMap.ofList ((numbered xs).map fun (id, x) => (id, zero x))

/-- every counter of a map at zero -/
def initial (m : CoverageMap) (code : Option (List String)) : Trace :=
  { statements := zeros (fun _ => 0) m.statements
    branches := zeros (fun b => List.replicate b.alternatives.length 0) m.branches
    functions := zeros (fun _ => 0) m.functions
    code := code.map fun lines => lines.map Json.string }

/-! ## merging -/

/-- slot by slot, the shorter list taken as if zeros followed -/
def addSlots : List Int → List Int → List Int
  | [], ys => ys
  | xs, [] => xs
  | x :: xs, y :: ys => (x + y) :: addSlots xs ys

def addCount (counts : OrderedMap Int Int) (e : Int × Int) : OrderedMap Int Int :=
  counts.put e.1 ((counts.get? e.1).getD 0 + e.2)

def addBranch (counts : OrderedMap Int (List Int)) (e : Int × List Int) : OrderedMap Int (List Int) :=
  counts.put e.1 (addSlots ((counts.get? e.1).getD []) e.2)

/-- the counts of both; the lines of the first that has some -/
def merge (a b : Trace) : Trace :=
  { statements := b.statements.entries.foldl addCount a.statements
    branches := b.branches.entries.foldl addBranch a.branches
    functions := b.functions.entries.foldl addCount a.functions
    code := a.code.or b.code }

/-! ## comparison -/

/-- the same counts under the same ids, and the same lines -/
def same (a b : Trace) : Bool :=
  a.statements.sameEntries b.statements && a.branches.sameEntries b.branches && a.functions.sameEntries b.functions
    && match a.code, b.code with
      | none, none => true
      | some xs, some ys => Json.sameItems xs ys
      | _, _ => false

/-! ## what is covered -/

def statementTally (t : Trace) : Tally := .ofCounts t.statements.values

/-- each alternative counts on its own -/
def branchTally (t : Trace) : Tally := .ofCounts t.branches.values.flatten

def functionTally (t : Trace) : Tally := .ofCounts t.functions.values

/-! ## text and wire form -/

/-- the counts of a trace in one line -/
def shown (t : Trace) : String :=
  let count := fun (e : Int × Int) => Text.integerText e.1 ++ ": " ++ Text.integerText e.2
  let slots := fun (e : Int × List Int) =>
    Text.integerText e.1 ++ ": [" ++ ", ".intercalate (e.2.map Text.integerText) ++ "]"
  let braces := fun (items : List String) => "\x7b" ++ ", ".intercalate items ++ "\x7d"
  "FileTrace(s=" ++ braces (t.statements.entries.map count) ++ ", b=" ++ braces (t.branches.entries.map slots)
    ++ ", f=" ++ braces (t.functions.entries.map count) ++ ")"

section WireForm

variable {σ : Type}

def countsJson {α : Type} (value : α → Json σ) (m : OrderedMap Int α) : Json σ :=
  .object (m.entries.map fun (id, v) => (Text.integerText id, value v))

def toJson (t : Trace σ) : Json σ :=
  .object ([("s", countsJson .int t.statements), ("b", countsJson (fun ns => .array (ns.map .int)) t.branches),
      ("f", countsJson .int t.functions)] ++ (t.code.map fun lines => ("code", Json.array lines)).toList)

/-- the ids of all tables -/
def ids (t : Trace σ) : List Int := t.statements.keys ++ t.branches.keys ++ t.functions.keys

/-- the counts of all tables -/
def counts (t : Trace σ) : List Int := t.statements.values ++ t.branches.values.flatten ++ t.functions.values

/-- a trace whose ids are all written -/
def IsWritable (t : Trace σ) : Prop := ∀ id ∈ t.ids, Text.IsWritable id

instance (t : Trace σ) : Decidable t.IsWritable := inferInstanceAs (Decidable (∀ id ∈ t.ids, _))

/-- the wire form of a trace, if all its ids are written -/
def toJson? (t : Trace σ) : Option (Json σ) := if t.IsWritable then some t.toJson else none

/-- why a value is no trace -/
inductive WireFault (σ : Type := String) where
  /-- neither an object nor absent -/
  | notObject
  /-- a value that is neither a number nor a text -/
  | notNumber
  /-- a text that is no integer -/
  | badInteger (s : σ)
  /-- an integer with too many digits -/
  | longInteger (digits : Nat)
  | infinite
  | nan
  /-- a value that holds no sequence -/
  | notSequence
  deriving DecidableEq, Repr

variable [Text.CodeText σ]

/-- the integer a value stands for; a fraction is cut off -/
def integerOf : Json σ → Except (WireFault σ) Int
  | .int n => .ok n
  | .bool b => .ok (if b then 1 else 0)
  | .float x =>
    match Number.Binary64.ofBits x.toBits, Number.truncate? x with
    | _, some n => .ok n
    | .nan, none => .error .nan
    | _, none => .error .infinite
  | .string s =>
    match Text.integer? (Text.CodeText.chars s) with
    | .ok n => .ok n
    | .error .malformed => .error (.badInteger s)
    | .error (.tooLong digits) => .error (.longInteger digits)
  | _ => .error .notNumber

/-- the items of a value: the characters of a text, the keys of an object -/
def itemsOf : Json σ → Except (WireFault σ) (List (Json σ))
  | .array items => .ok items
  | .string s => .ok ((Text.CodeText.points s).map fun n => .string (Text.CodeText.ofPoints [n]))
  | .object fields => .ok (fields.map fun f => .string (Text.CodeText.ofString f.1))
  | _ => .error .notSequence

/-- a table read entry by entry, first the id and then the value -/
def tableOf {α : Type} (value : Json σ → Except (WireFault σ) α) :
    Option (Json σ) → Except (WireFault σ) (OrderedMap Int α)
  | none => .ok .empty
  | some (.object fields) => do
    let entries ← fields.mapM fun (k, v) => do
      let id ← integerOf (.string (Text.CodeText.ofString k))
      return (id, ← value v)
    return .ofList entries
  | some _ => .error .notObject

/-- a trace in its wire form; missing tables are empty -/
def ofJson? (v : Json σ) : Except (WireFault σ) (Trace σ) :=
  match v with
  | .object fields => do
    let field := fun key => (Json.object fields).field? key
    let statements ← tableOf integerOf (field "s")
    let branches ← tableOf (fun v => do (← itemsOf v).mapM integerOf) (field "b")
    let functions ← tableOf integerOf (field "f")
    let code ← match field "code" with
      | none | some .null => pure none
      | some v => some <$> itemsOf v
    return ⟨statements, branches, functions, code⟩
  | _ => .error .notObject

end WireForm

end Trace

end Turnstile
