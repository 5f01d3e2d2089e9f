/-
A wire form is merged as a whole or not at all.

A value is at fault where reading it first meets something that is not what it should be.
- `FirstFault`: in a list, the fault of the first element that has one;
- `CountFault`, `SlotsFault`, `TableFault`, `Trace.Fault`, `HitRecord.Fault`: the fault of a count, of the slots of a branch, of
  a table, of a trace and of a record, with `…_eq_error_iff` for each: reading fails with this fault and with no other;
- `run_mergeWire`: merging in place fails before anything is written, or writes all of it;
- `wireForm_merged_whole`: so the record is as before if there is a fault anywhere, and else what merging records gives.
-/
import Mathlib.Tactic
import Turnstile.Coverage.Record

namespace Turnstile

/-! ## The first fault -/

/-- the fault of the first element that has one; what is behind it does not matter -/
def FirstFault {α ε : Type} (Fault : α → ε → Prop) (xs : List α) (e : ε) : Prop :=
  ∃ before x after, xs = before ++ x :: after ∧ (∀ y ∈ before, ∀ e', ¬ Fault y e') ∧ Fault x e

theorem bind_eq_error_iff {ε α β : Type} {x : Except ε α} {f : α → Except ε β} {e : ε} :
    (x >>= f) = .error e ↔ x = .error e ∨ ∃ a, x = .ok a ∧ f a = .error e := by
  cases x <;> simp [bind, Except.bind]

/-- a step with a fault of its own, and steps behind it whose fault does not depend on its result -/
theorem bind_fault_iff {ε α β : Type} {x : Except ε α} {f : α → Except ε β} {Fault Behind : ε → Prop} {e : ε}
    (hx : ∀ e, x = .error e ↔ Fault e) (hf : ∀ a e, f a = .error e ↔ Behind e) :
    (x >>= f) = .error e ↔ Fault e ∨ (∀ e', ¬ Fault e') ∧ Behind e := by
  have hok : (∃ a, x = .ok a) ↔ ∀ e', ¬ Fault e' := by
    simp only [← hx]
    cases x <;> simp
  rw [bind_eq_error_iff, hx]
  simp only [hf, exists_and_right, hok]

section Lists

variable {α β ε : Type} {Fault : α → ε → Prop} {x : α} {xs : List α} {e : ε}

theorem not_firstFault_nil : ¬ FirstFault Fault [] e := by
  rintro ⟨before, x, after, hsplit, -⟩
  cases before <;> cases hsplit

theorem firstFault_cons_iff :
    FirstFault Fault (x :: xs) e ↔ Fault x e ∨ (∀ e', ¬ Fault x e') ∧ FirstFault Fault xs e := by
  constructor
  · rintro ⟨before, y, after, hsplit, hbefore, hy⟩
    cases before with
    | nil =>
      cases hsplit
      exact Or.inl hy
    | cons z before =>
      cases hsplit
      rw [List.forall_mem_cons] at hbefore
      exact Or.inr ⟨hbefore.1, before, y, after, rfl, hbefore.2, hy⟩
  · rintro (hx | ⟨hx, before, y, after, rfl, hbefore, hy⟩)
    · exact ⟨[], x, xs, rfl, by simp, hx⟩
    · exact ⟨x :: before, y, after, rfl, List.forall_mem_cons.2 ⟨hx, hbefore⟩, hy⟩

/-- reading item by item fails with the fault of the first item that has one -/
theorem mapM_eq_error_iff {read : α → Except ε β} (hread : ∀ x e, read x = .error e ↔ Fault x e) :
    xs.mapM read = .error e ↔ FirstFault Fault xs e := by
  induction xs generalizing e with
  | nil => exact iff_of_false nofun not_firstFault_nil
  | cons x xs ih =>
    rw [List.mapM_cons, firstFault_cons_iff]
    refine bind_fault_iff (hread x) fun y e => ?_
    rw [← ih, bind_eq_error_iff]
    exact or_iff_left nofun

end Lists

/-! ## Faults of a trace -/

namespace Trace

variable {v : Json} {e : WireFault}

/-- a value that stands for no count -/
inductive CountFault : Json → WireFault → Prop where
  | null : CountFault .null .notNumber
  | array (items : List Json) : CountFault (.array items) .notNumber
  | object (fields : List (String × Json)) : CountFault (.object fields) .notNumber
  | text {s : String} (malformed : Text.integer? s.toList = .error .malformed) : CountFault (.string s) (.badInteger s)
  | long {s : String} {digits : ℕ} (tooLong : Text.integer? s.toList = .error (.tooLong digits)) :
      CountFault (.string s) (.longInteger digits)
  | nan {x : Float} (notANumber : Number.Binary64.ofBits x.toBits = .nan) : CountFault (.float x) .nan
  | infinite {x : Float} {negative : Bool} (infinite : Number.Binary64.ofBits x.toBits = .infinite negative) :
      CountFault (.float x) .infinite

theorem integerOf_eq_error_iff : integerOf v = .error e ↔ CountFault v e := by
  constructor
  · intro h
    cases v with
    | null =>
      cases h
      exact .null
    | bool b => cases h
    | int n => cases h
    | array items =>
      cases h
      exact .array items
    | object fields =>
      cases h
      exact .object fields
    | string s =>
      rw [integerOf, Text.CodeText.chars_string] at h
      split at h
      · cases h
      · next hs =>
        cases h
        exact .text hs
      · next hs =>
        cases h
        exact .long hs
    | float x =>
      rw [integerOf] at h
      cases hx : Number.Binary64.ofBits x.toBits with
      | nan =>
        simp only [Number.truncate?, hx] at h
        cases h
        exact .nan hx
      | infinite negative =>
        simp only [Number.truncate?, hx] at h
        cases h
        exact .infinite hx
      | finite negative m p =>
        simp only [Number.truncate?, hx] at h
        cases h
  · intro h
    cases h with
    | null => rfl
    | array items => rfl
    | object fields => rfl
    | text hs => simp only [integerOf, Text.CodeText.chars_string, hs]
    | long hs => simp only [integerOf, Text.CodeText.chars_string, hs]
    | nan hx => simp only [integerOf, Number.truncate?, hx]
    | infinite hx => simp only [integerOf, Number.truncate?, hx]

/-- a text without a fault is that of an integer -/
theorem exists_integer?_iff {s : String} :
    (∃ n, Text.integer? s.toList = .ok n) ↔ ∀ e, ¬ CountFault (.string s) e := by
  constructor
  · rintro ⟨n, hn⟩ e hfault
    cases hfault with
    | text hs | long hs =>
      rw [hn] at hs
      cases hs
  · intro hnone
    cases hs : Text.integer? s.toList with
    | ok n => exact ⟨n, rfl⟩
    | error fault =>
      cases fault with
      | malformed => exact absurd (.text hs) (hnone _)
      | tooLong digits => exact absurd (.long hs) (hnone _)

/-- a value that holds no sequence -/
inductive SequenceFault : Json → WireFault → Prop where
  | null : SequenceFault .null .notSequence
  | bool (b : Bool) : SequenceFault (.bool b) .notSequence
  | int (n : ℤ) : SequenceFault (.int n) .notSequence
  | float (x : Float) : SequenceFault (.float x) .notSequence

theorem itemsOf_eq_error_iff : itemsOf v = .error e ↔ SequenceFault v e := by
  constructor
  · intro h
    cases v <;> cases h <;> constructor
  · intro h
    cases h <;> rfl

/-- a value that holds no counts of alternatives -/
inductive SlotsFault : Json → WireFault → Prop where
  | sequence {v : Json} {e : WireFault} (fault : SequenceFault v e) : SlotsFault v e
  | slot {v : Json} {items : List Json} {e : WireFault} (sequence : itemsOf v = .ok items)
      (fault : FirstFault CountFault items e) : SlotsFault v e

theorem slotsOf_eq_error_iff : (do (← itemsOf v).mapM integerOf) = .error e ↔ SlotsFault v e := by
  rw [bind_eq_error_iff, itemsOf_eq_error_iff]
  simp only [mapM_eq_error_iff fun v e => integerOf_eq_error_iff]
  constructor
  · rintro (hfault | ⟨items, hitems, hfault⟩)
    · exact .sequence hfault
    · exact .slot hitems hfault
  · rintro (hfault | ⟨hitems, hfault⟩)
    · exact Or.inl hfault
    · exact Or.inr ⟨_, hitems, hfault⟩

/-- an entry of a table whose id is no integer, or whose value is at fault -/
inductive FieldFault (ValueFault : Json → WireFault → Prop) : String × Json → WireFault → Prop where
  | id {k : String} {v : Json} {e : WireFault} (fault : CountFault (.string k) e) : FieldFault ValueFault (k, v) e
  | value {k : String} {v : Json} {e : WireFault} (integer : ∃ n, Text.integer? k.toList = .ok n) (fault : ValueFault v e) :
      FieldFault ValueFault (k, v) e

/-- what is neither a table nor left out, or a table with an entry that is at fault -/
inductive TableFault (ValueFault : Json → WireFault → Prop) : Option Json → WireFault → Prop where
  | noObject {v : Json} (noObject : ∀ fields, v ≠ .object fields) : TableFault ValueFault (some v) .notObject
  | field {fields : List (String × Json)} {e : WireFault} (fault : FirstFault (FieldFault ValueFault) fields e) :
      TableFault ValueFault (some (.object fields)) e

section Tables

variable {α : Type} {value : Json → Except WireFault α} {ValueFault : Json → WireFault → Prop}

theorem field_eq_error_iff (hvalue : ∀ v e, value v = .error e ↔ ValueFault v e) {f : String × Json} :
    (do return (← integerOf (.string f.1), ← value f.2)) = Except.error e ↔ FieldFault ValueFault f e := by
  obtain ⟨k, v⟩ := f
  have hsteps : (do return (← integerOf (.string k), ← value v)) = Except.error e ↔
      CountFault (.string k) e ∨ (∀ e', ¬ CountFault (.string k) e') ∧ ValueFault v e := by
    refine bind_fault_iff (fun e => integerOf_eq_error_iff) fun id e => ?_
    rw [← hvalue, bind_eq_error_iff]
    exact or_iff_left nofun
  rw [hsteps, ← exists_integer?_iff]
  constructor
  · rintro (hfault | ⟨hid, hfault⟩)
    · exact .id hfault
    · exact .value hid hfault
  · intro hfault
    cases hfault with
    | id hfault => exact Or.inl hfault
    | value hid hfault => exact Or.inr ⟨hid, hfault⟩

theorem tableOf_eq_error_iff (hvalue : ∀ v e, value v = .error e ↔ ValueFault v e) {o : Option Json} :
    tableOf value o = .error e ↔ TableFault ValueFault o e := by
  have hfields : ∀ fields : List (String × Json), tableOf value (some (.object fields)) = .error e ↔
      FirstFault (FieldFault ValueFault) fields e := by
    intro fields
    simp only [tableOf, Text.CodeText.ofString_string]
    rw [bind_eq_error_iff, mapM_eq_error_iff fun f e => field_eq_error_iff hvalue]
    exact or_iff_left nofun
  constructor
  · intro h
    match o with
    | none => cases h
    | some (.object fields) => exact .field ((hfields fields).1 h)
    | some .null | some (.bool _) | some (.int _) | some (.float _) | some (.string _) | some (.array _) =>
      cases h
      exact .noObject nofun
  · intro h
    cases h with
    | field hfault => exact (hfields _).2 hfault
    | @noObject v hv =>
      cases v with
      | object fields => exact absurd rfl (hv fields)
      | _ => rfl

end Tables

/-! ### The parts of a trace -/

/-- the parts that a trace is read from, in this order -/
inductive Part where
  | statements
  | branches
  | functions
  | code
  deriving DecidableEq, Repr

namespace Part

def all : List Part := [.statements, .branches, .functions, .code]

def key : Part → String
  | statements => "s"
  | branches => "b"
  | functions => "f"
  | code => "code"

/-- what is under the key of a part, if there is anything, is not what it should be -/
def Fault : Part → Option Json → WireFault → Prop
  | statements, o, e => TableFault CountFault o e
  | branches, o, e => TableFault SlotsFault o e
  | functions, o, e => TableFault CountFault o e
  | code, o, e => ∃ v, o = some v ∧ v ≠ .null ∧ SequenceFault v e

end Part

/-- what is no object, or has a part that is at fault -/
inductive Fault : Json → WireFault → Prop where
  | noObject {v : Json} (noObject : ∀ fields, v ≠ .object fields) : Fault v .notObject
  | part {fields : List (String × Json)} {e : WireFault}
      (fault : FirstFault (fun p e => Part.Fault p ((Json.object fields).field? p.key) e) Part.all e) :
      Fault (.object fields) e

/-- source lines that are left out or not set are none -/
def linesOf : Option Json → Except WireFault (Option (List Json))
  | none | some .null => .ok none
  | some v => some <$> itemsOf v

theorem linesOf_eq_error_iff {o : Option Json} : linesOf o = .error e ↔ Part.code.Fault o e := by
  have hset : ∀ v, v ≠ .null → (linesOf (some v) = .error e ↔ SequenceFault v e) := by
    intro v hv
    rw [← itemsOf_eq_error_iff, linesOf]
    · cases itemsOf v <;> simp [Functor.map, Except.map]
    · exact hv
  constructor
  · intro h
    cases o with
    | none => cases h
    | some v =>
      have hv : v ≠ .null := by
        rintro rfl
        cases h
      exact ⟨v, rfl, hv, (hset v hv).1 h⟩
  · rintro ⟨v, rfl, hv, hfault⟩
    exact (hset v hv).2 hfault

/-- a trace is read part by part -/
theorem ofJson?_object (fields : List (String × Json)) : ofJson? (.object fields) = (do
    let statements ← tableOf integerOf ((Json.object fields).field? Part.statements.key)
    let branches ← tableOf (fun v => do (← itemsOf v).mapM integerOf) ((Json.object fields).field? Part.branches.key)
    let functions ← tableOf integerOf ((Json.object fields).field? Part.functions.key)
    let code ← linesOf ((Json.object fields).field? Part.code.key)
    return ⟨statements, branches, functions, code⟩) := by
  rw [ofJson?]
  refine bind_congr fun statements => bind_congr fun branches => bind_congr fun functions => ?_
  simp only [Part.key]
  cases (Json.object fields).field? "code" with
  | none => rfl
  | some v => cases v <;> rfl

/-- **Reading a trace fails with the fault of its first part that has one**, and with no other. -/
theorem ofJson?_eq_error_iff : ofJson? v = .error e ↔ Fault v e := by
  have hparts : ∀ fields : List (String × Json), ofJson? (.object fields) = .error e ↔
      FirstFault (fun p e => Part.Fault p ((Json.object fields).field? p.key) e) Part.all e := by
    intro fields
    have hcounts := fun o e => tableOf_eq_error_iff (o := o) (e := e) fun v e => integerOf_eq_error_iff (v := v) (e := e)
    have hslots := fun o e => tableOf_eq_error_iff (o := o) (e := e) fun v e => slotsOf_eq_error_iff (v := v) (e := e)
    rw [ofJson?_object, Part.all, firstFault_cons_iff]
    refine bind_fault_iff (hcounts _) fun statements e => ?_
    rw [firstFault_cons_iff]
    refine bind_fault_iff (hslots _) fun branches e => ?_
    rw [firstFault_cons_iff]
    refine bind_fault_iff (hcounts _) fun functions e => ?_
    rw [firstFault_cons_iff]
    refine bind_fault_iff (fun e => linesOf_eq_error_iff) fun code e => ?_
    exact iff_of_false nofun not_firstFault_nil
  constructor
  · intro h
    cases v with
    | object fields => exact .part ((hparts fields).1 h)
    | _ =>
      cases h
      exact .noObject nofun
  · intro h
    cases h with
    | part hfault => exact (hparts _).2 hfault
    | noObject hv =>
      cases v with
      | object fields => exact absurd rfl (hv fields)
      | _ => rfl

end Trace

/-! ## Faults of a record -/

namespace HitRecord

variable {v : Json} {e : Trace.WireFault}

/-- what is set but no object, or has an entry that is at fault -/
inductive Fault : Json → Trace.WireFault → Prop where
  | noObject {v : Json} (set : v.isSet = true) (noObject : ∀ fields, v ≠ .object fields) : Fault v .notObject
  | entry {fields : List (String × Json)} {e : Trace.WireFault} (fault : FirstFault (fun f e => Trace.Fault f.2 e) fields e) :
      Fault (.object fields) e

theorem ofJson?_object_cons (f : String × Json) (fields : List (String × Json)) : ofJson? (.object (f :: fields)) = (do
    let entries ← (f :: fields).mapM fun f => do return (f.1, ← Trace.ofJson? f.2)
    return ⟨.ofList entries⟩) := rfl

theorem ofJson?_of_ne_object (hv : ∀ fields, v ≠ .object fields) :
    ofJson? v = if v.isSet = true then .error .notObject else .ok .empty := by
  cases v with
  | object fields => exact absurd rfl (hv fields)
  | _ => rfl

/-- **Reading a record fails with the fault of its first entry that has one**, and with no other. -/
theorem ofJson?_eq_error_iff : ofJson? v = .error e ↔ Fault v e := by
  have hentries : ∀ fields : List (String × Json), ofJson? (.object fields) = .error e ↔
      FirstFault (fun f e => Trace.Fault f.2 e) fields e := by
    intro fields
    cases fields with
    | nil => exact iff_of_false nofun not_firstFault_nil
    | cons f fields =>
      have hentry : ∀ (f : String × Json) e, (do return (f.1, ← Trace.ofJson? f.2)) = Except.error e ↔ Trace.Fault f.2 e := by
        intro f e
        rw [← Trace.ofJson?_eq_error_iff, bind_eq_error_iff]
        exact or_iff_left nofun
      rw [ofJson?_object_cons, bind_eq_error_iff, mapM_eq_error_iff hentry]
      exact or_iff_left nofun
  by_cases hv : ∃ fields, v = .object fields
  · obtain ⟨fields, rfl⟩ := hv
    rw [hentries]
    constructor
    · exact .entry
    · intro h
      cases h with
      | entry hfault => exact hfault
      | noObject _ hobject => exact absurd rfl (hobject fields)
  · have hobject : ∀ fields, v ≠ .object fields := not_exists.1 hv
    rw [ofJson?_of_ne_object hobject]
    constructor
    · intro h
      split at h
      · next hset =>
        cases h
        exact .noObject hset hobject
      · cases h
    · intro h
      cases h with
      | entry => exact absurd rfl (hobject _)
      | noObject hset => rw [if_pos hset]

/-! ## Merging in place -/

/-- to add traces one after the other never fails -/
theorem run_forM_mergeEntry (entries : List (String × Trace)) (r : HitRecord) :
    (entries.forM fun e => (modify (mergeEntry · e) : ExceptT Trace.WireFault (StateM HitRecord) Unit)).run r =
      (.ok (), entries.foldl mergeEntry r) := by
  induction entries generalizing r with
  | nil => rfl
  | cons e entries ih => exact ih (mergeEntry r e)

/-- **Merging in place fails before anything is written, or writes all of it.** -/
theorem run_mergeWire (v : Json) (r : HitRecord) : (mergeWire v).run r =
    match ofJson? v with
    | .error e => (.error e, r)
    | .ok other => (.ok (), r.merge other) := by
  cases hread : ofJson? v with
  | error e =>
    rw [mergeWire, hread]
    rfl
  | ok other =>
    rw [mergeWire, hread]
    exact run_forM_mergeEntry other.files.entries r

end HitRecord

/-- **A wire form is merged as a whole or not at all.** Take any record and any value. The value can be read as a record
unless it, an entry, a part of an entry, an id, or a count is at fault. If one is, merging the value in place fails with the
first fault, the one that reading fails with, and the record is just as it was before. If none is, the record is afterwards
what merging the record that was read into it gives. -/
theorem wireForm_merged_whole (r : HitRecord) (v : Json) :
    (∀ e, HitRecord.ofJson? v = .error e ↔ HitRecord.Fault v e) ∧
    match HitRecord.ofJson? v with
    | .error e => (HitRecord.mergeWire v).run r = (.error e, r) ∧ r.mergeJson? v = .error e
    | .ok other => (HitRecord.mergeWire v).run r = (.ok (), r.merge other) ∧ r.mergeJson? v = .ok (r.merge other) := by
  refine ⟨fun e => HitRecord.ofJson?_eq_error_iff, ?_⟩
  have hrun := HitRecord.run_mergeWire v r
  cases hread : HitRecord.ofJson? v with
  | error e =>
    rw [hread] at hrun
    exact ⟨hrun, by rw [HitRecord.mergeJson?, hrun]⟩
  | ok other =>
    rw [hread] at hrun
    exact ⟨hrun, by rw [HitRecord.mergeJson?, hrun]⟩

/-- a count that is not set stands behind a whole entry and a good slot -/
example : HitRecord.empty.mergeJson? (.object [("a.js", .object [("s", .object [("1", .int 2)])]),
    ("b.js", .object [("b", .object [("1", .array [.int 3, .null])])])]) = .error .notNumber := by rfl

end Turnstile
