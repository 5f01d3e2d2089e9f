/-
Hit counts of many files.

A record holds one trace for each key, in the order in which keys came. A key is added by `ensure` or by merging and its
counts only change by hits and merging, until it is reset. `hit?` adds to a counter that is there already.
-/
import Turnstile.Coverage.Trace

namespace Turnstile

structure HitRecord (σ : Type := String) where
  files : OrderedMap String (Trace σ)
  deriving Inhabited

/-- which counter of a trace is hit -/
inductive Slot where
  | statement (id : Int)
  | function (id : Int)
  /-- a negative slot counts from the last alternative -/
  | branch (id : Int) (slot : Int)
  deriving DecidableEq, Repr

/-- why a hit finds no counter -/
inductive HitFault where
  | noKey (key : String)
  | noId (id : Int)
  | noSlot
  deriving DecidableEq, Repr

namespace HitRecord

def empty : HitRecord := ⟨.empty⟩

def keys {σ : Type} (r : HitRecord σ) : List String := r.files.keys

/-- the trace of a key, added from the template if there is none -/
def ensure (r : HitRecord) (key : String) (template : Trace) : HitRecord :=
  match r.files.get? key with
  | some _ => r
  | none => ⟨r.files.put key template⟩

/-- adds a trace under a key -/
def mergeEntry (r : HitRecord) (e : String × Trace) : HitRecord :=
  match r.files.get? e.1 with
  | some t => ⟨r.files.put e.1 (t.merge e.2)⟩
  | none => ⟨r.files.put e.1 e.2⟩

def merge (a b : HitRecord) : HitRecord := b.files.entries.foldl mergeEntry a

/-- forgets one key -/
def reset (r : HitRecord) (key : String) : HitRecord := ⟨r.files.erase key⟩

/-- the traces of an object, read key by key; a value that is not set holds none -/
def ofJson? {σ : Type} [Text.CodeText σ] (v : Json σ) : Except (Trace.WireFault σ) (HitRecord σ) :=
  if v.isSet then
    match v with
    | .object fields => do
      let entries ← fields.mapM fun (k, v) => do return (k, ← Trace.ofJson? v)
      return ⟨.ofList entries⟩
    | _ => .error .notObject
  else .ok ⟨.empty⟩

/-- merges the wire form of a record into the record where it stands: the whole of it is read before anything is added -/
def mergeWire (v : Json) : ExceptT Trace.WireFault (StateM HitRecord) Unit := do
  let other ← MonadExcept.ofExcept (ofJson? v)
  other.files.entries.forM fun e => modify (mergeEntry · e)

/-- the record that a wire form was merged into -/
def mergeJson? (r : HitRecord) (v : Json) : Except Trace.WireFault HitRecord :=
  match (mergeWire v).run r with
  | (.ok (), merged) => .ok merged
  | (.error e, _) => .error e

def toJson {σ : Type} (r : HitRecord σ) : Json σ := .object (r.files.entries.map fun (k, t) => (k, t.toJson))

/-- a record in which the ids of all traces are written -/
def IsWritable {σ : Type} (r : HitRecord σ) : Prop := ∀ t ∈ r.files.values, t.IsWritable

instance {σ : Type} (r : HitRecord σ) : Decidable r.IsWritable :=
  inferInstanceAs (Decidable (∀ t ∈ r.files.values, t.IsWritable))

/-- the wire form of a record, if all its traces have one -/
def toJson? {σ : Type} (r : HitRecord σ) : Option (Json σ) := if r.IsWritable then some r.toJson else none

/-- adds to a count that is there -/
def bump (counts : OrderedMap Int Int) (id amount : Int) : Except HitFault (OrderedMap Int Int) :=
  match counts.get? id with
  | some n => .ok (counts.put id (n + amount))
  | none => .error (.noId id)

/-- adds to one slot of a branch -/
def bumpSlot (counts : OrderedMap Int (List Int)) (id slot amount : Int) : Except HitFault (OrderedMap Int (List Int)) :=
  match counts.get? id with
  | some ns =>
    let i := if slot < 0 then slot + ns.length else slot
    if 0 ≤ i ∧ i < ns.length then .ok (counts.put id (ns.modify i.toNat (· + amount))) else .error .noSlot
  | none => .error (.noId id)

/-- adds `amount` to a counter of a trace -/
def hitTrace (t : Trace) (slot : Slot) (amount : Int) : Except HitFault Trace :=
  match slot with
  | .statement id => do return { t with statements := ← bump t.statements id amount }
  | .function id => do return { t with functions := ← bump t.functions id amount }
  | .branch id slot => do return { t with branches := ← bumpSlot t.branches id slot amount }

/-- adds `amount` to a counter of the trace of a key -/
def hit? (r : HitRecord) (key : String) (slot : Slot) (amount : Int) : Except HitFault HitRecord :=
  match r.files.get? key with
  | some t => do return ⟨r.files.put key (← hitTrace t slot amount)⟩
  | none => .error (.noKey key)

end HitRecord

end Turnstile
