/-
Traces and records in their wire form.

Ids are written in decimal digits, at most `Text.digitLimit` of them.
- `Trace.legible_toJson`: the wire form of a trace is a value that its text determines;
- `Trace.ofJson?_toJson`: a trace reads back from its wire form, tables in the same order, whatever counts it has;
- `HitRecord.ofJson?_toJson`: so does a record;
- `wireForms_read_back`: hence what has a wire form reads back from it, wire forms are just the values that reading and writing
  again leaves as they are, and no key occurs twice in them;
- `no_wireForm_with_long_id`: an id with one digit more has no wire form and is not read from one.
-/
import Turnstile.Coverage.Record
import Turnstile.Proofs.Coverage.InitialTrace
import Turnstile.Proofs.Json.ReadBack
import Turnstile.Proofs.Program.Reading

namespace Turnstile

variable {σ : Type}

/-! ## Traces -/

namespace Trace

variable [Text.CodeText σ]

section Tables

variable {α : Type} {value : α → Json σ} {m : OrderedMap ℤ α}

theorem legible_countsJson (h : ∀ x, (value x).Legible) (m : OrderedMap ℤ α) : (countsJson value m).Legible := by
  refine .object ?_ fun f hf => ?_
  · rw [List.map_map]
    have hkeys : (m.entries.map (·.1)).Nodup := m.nodup_keys
    have htexts := hkeys.map Text.integerText_injective
    rwa [List.map_map] at htexts
  · obtain ⟨e, -, rfl⟩ := List.mem_map.1 hf
    exact h e.2

/-- an id reads back from its text, if it is written -/
theorem integerOf_integerText {id : ℤ} (h : Text.IsWritable id) :
    integerOf (.string (Text.CodeText.ofString (Text.integerText id)) : Json σ) = .ok id := by
  simp only [integerOf, Text.CodeText.chars_ofString, Text.integer?_of_isWritable h]

/-- a table reads back from its wire form if its ids are written and its values read back -/
theorem tableOf_countsJson {read : Json σ → Except (WireFault σ) α} (hids : ∀ id ∈ m.keys, Text.IsWritable id)
    (h : ∀ x, read (value x) = .ok x) : tableOf read (some (countsJson value m)) = .ok m := by
  have hentries : (m.entries.map fun e => (Text.integerText e.1, value e.2)).mapM
      (fun f => do
        let id ← integerOf (.string (Text.CodeText.ofString f.1))
        return (id, ← read f.2)) = .ok m.entries := by
    refine mapM_map_eq_ok fun e he => ?_
    simp only [integerOf_integerText (hids e.1 (List.mem_map_of_mem he)), h]
    rfl
  have htable := congrArg (fun entries => entries >>= fun es => pure (OrderedMap.ofList es)) hentries
  exact htable.trans (congrArg Except.ok m.ofList_entries)

end Tables

theorem integerOf_int (n : ℤ) : integerOf (.int n : Json σ) = .ok n := rfl

theorem slotsOf_array (ns : List ℤ) : (do (← itemsOf (.array (ns.map .int) : Json σ)).mapM integerOf) = .ok ns :=
  mapM_map_eq_ok fun n _ => integerOf_int n

omit [Text.CodeText σ] in
/-- the fields of a wire form -/
theorem field?_toJson (t : Trace σ) :
    t.toJson.field? "s" = some (countsJson .int t.statements) ∧
    t.toJson.field? "b" = some (countsJson (fun ns => .array (ns.map .int)) t.branches) ∧
    t.toJson.field? "f" = some (countsJson .int t.functions) ∧ t.toJson.field? "code" = t.code.map Json.array := by
  cases h : t.code <;> simp [toJson, Json.field?, h]

omit [Text.CodeText σ] in
theorem IsWritable.tables {t : Trace σ} (h : t.IsWritable) : (∀ id ∈ t.statements.keys, Text.IsWritable id) ∧
    (∀ id ∈ t.branches.keys, Text.IsWritable id) ∧ ∀ id ∈ t.functions.keys, Text.IsWritable id := by
  simpa [IsWritable, ids, or_imp, forall_and] using h

/-- **A trace reads back from its wire form**, with its tables in the order they were written in. -/
theorem ofJson?_toJson {t : Trace σ} (h : t.IsWritable) : ofJson? t.toJson = .ok t := by
  obtain ⟨hstatements, hbranches, hfunctions⟩ := h.tables
  obtain ⟨hs, hb, hf, hcode⟩ := t.field?_toJson
  obtain ⟨fields, hfields⟩ : ∃ fields, t.toJson = .object fields := ⟨_, rfl⟩
  rw [hfields] at hs hb hf hcode ⊢
  rw [ofJson?]
  simp only [hs, hb, hf, hcode]
  rw [tableOf_countsJson hstatements integerOf_int, tableOf_countsJson hbranches slotsOf_array,
    tableOf_countsJson hfunctions integerOf_int]
  obtain ⟨statements, branches, functions, code⟩ := t
  cases code <;> rfl

/-- the wire form of a trace with source lines is legible -/
theorem legible_toJson {t : Trace σ} (hcode : ∀ lines ∈ t.code, ∀ line ∈ lines, line.Legible) : t.toJson.Legible := by
  have hslots : ∀ ns : List ℤ, (Json.array (ns.map .int) : Json σ).Legible := by
    intro ns
    refine .array fun v hv => ?_
    obtain ⟨n, -, rfl⟩ := List.mem_map.1 hv
    exact .int n
  refine .object ?_ fun f hf => ?_
  · cases t.code <;> simp
  · simp only [List.mem_append, List.mem_cons, List.not_mem_nil, or_false, Option.mem_toList,
      Option.map_eq_some_iff] at hf
    rcases hf with (rfl | rfl | rfl) | ⟨lines, hlines, rfl⟩
    · exact legible_countsJson .int t.statements
    · exact legible_countsJson hslots t.branches
    · exact legible_countsJson .int t.functions
    · exact .array (hcode lines hlines)

end Trace

/-! ## Records -/

namespace HitRecord

variable [Text.CodeText σ]

/-- **A record reads back from its wire form**, with its keys in the order they were written in. -/
theorem ofJson?_toJson {r : HitRecord σ} (h : r.IsWritable) : ofJson? r.toJson = .ok r := by
  obtain ⟨files⟩ := r
  have hentries : (files.entries.map fun e => (e.1, e.2.toJson)).mapM
      (fun f => do return (f.1, ← Trace.ofJson? f.2)) = .ok files.entries := by
    refine mapM_map_eq_ok fun e he => ?_
    rw [Trace.ofJson?_toJson (h e.2 (List.mem_map_of_mem he))]
    rfl
  rw [toJson, ofJson?]
  split
  · have hrecord := congrArg (fun entries => entries >>= fun es => pure (⟨OrderedMap.ofList es⟩ : HitRecord σ)) hentries
    exact hrecord.trans (congrArg (fun m => Except.ok (HitRecord.mk m)) files.ofList_entries)
  · next hunset =>
    -- only the record without keys has a wire form that is not set
    have hnone : files.entries = [] := by simpa [Json.isSet] using hunset
    have hempty : files = .empty := OrderedMap.ext hnone
    rw [hempty]

theorem legible_toJson {r : HitRecord σ}
    (h : ∀ t ∈ r.files.values, ∀ lines ∈ t.code, ∀ line ∈ lines, line.Legible) : r.toJson.Legible := by
  refine .object ?_ fun f hf => ?_
  · rw [List.map_map]
    exact r.files.nodup_keys
  · obtain ⟨e, he, rfl⟩ := List.mem_map.1 hf
    exact Trace.legible_toJson (h e.2 (List.mem_map_of_mem he))

end HitRecord

/-! ## Laws of wire forms -/

/-- `write` gives the wire forms of `writable` values and `read` reads them; `plain` values hold nothing but texts and
integers -/
structure WireLaws {α σ : Type} [Text.CodeText σ] (write : α → Option (Json σ)) (read : Json σ → Except (Trace.WireFault σ) α)
    (writable plain : α → Prop) : Prop where
  /-- which values have a wire form -/
  exists_iff : ∀ a, (∃ v, write a = some v) ↔ writable a
  /-- a value reads back, with everything in the order it was in -/
  read_write : ∀ a v, write a = some v → read v = .ok a
  /-- wire forms are just the values that reading and writing again leaves as they are, order included -/
  wireForm_iff : ∀ v, (∃ a, write a = some v) ↔ write <$> read v = .ok (some v)
  /-- no key is written twice -/
  legible : ∀ a v, plain a → write a = some v → v.Legible

/-- what reads back is written again just as it was -/
theorem WireLaws.of_read_write {α : Type} [Text.CodeText σ] {write : α → Option (Json σ)} {shape : α → Json σ}
    {read : Json σ → Except (Trace.WireFault σ) α} {writable plain : α → Prop} [DecidablePred writable]
    (write_eq : ∀ a, write a = if writable a then some (shape a) else none)
    (read_shape : ∀ a, writable a → read (shape a) = .ok a) (legible : ∀ a, plain a → (shape a).Legible) :
    WireLaws write read writable plain := by
  have hwrite : ∀ a v, write a = some v ↔ writable a ∧ shape a = v := by
    intro a v
    rw [write_eq]
    split <;> simp [*]
  have hread : ∀ a v, write a = some v → read v = .ok a := by
    intro a v h
    obtain ⟨ha, rfl⟩ := (hwrite a v).1 h
    exact read_shape a ha
  refine ⟨fun a => ?_, hread, fun v => ?_, fun a v ha h => ?_⟩
  · simp [hwrite]
  · constructor
    · rintro ⟨a, ha⟩
      rw [hread a v ha, ← ha]
      rfl
    · intro hv
      obtain ⟨a, -, ha⟩ := map_eq_ok_iff.1 hv
      exact ⟨a, ha⟩
  · obtain ⟨-, rfl⟩ := (hwrite a v).1 h
    exact legible a ha

/-- a trace whose source lines are texts that read back, if it has any -/
def Trace.IsPlain [Text.CodeText σ] (t : Trace σ) : Prop :=
  ∀ lines ∈ t.code, ∀ line ∈ lines, ∃ s, line = .string s ∧ Text.CodeText.NoPair s

theorem Trace.IsPlain.legible [Text.CodeText σ] {t : Trace σ} (h : t.IsPlain) :
    ∀ lines ∈ t.code, ∀ line ∈ lines, line.Legible := by
  intro lines hlines line hline
  obtain ⟨s, rfl, hs⟩ := h lines hlines line hline
  exact .string hs

/-- **Traces and records read back from their wire forms**, whatever counts and branch arrays they have. They have one if their
ids have at most `Text.digitLimit` digits; wire forms are just the values that reading and writing again leaves as they are, and
hold no key twice. -/
theorem wireForms_read_back [Text.CodeText σ] :
    WireLaws (σ := σ) Trace.toJson? Trace.ofJson? Trace.IsWritable Trace.IsPlain ∧
    WireLaws (σ := σ) HitRecord.toJson? HitRecord.ofJson? HitRecord.IsWritable fun r => ∀ t ∈ r.files.values, t.IsPlain :=
  ⟨.of_read_write (fun _ => rfl) (fun _ => Trace.ofJson?_toJson) fun _ h => Trace.legible_toJson h.legible,
    .of_read_write (fun _ => rfl) (fun _ => HitRecord.ofJson?_toJson) fun _ h =>
      HitRecord.legible_toJson fun t ht => (h t ht).legible⟩

/-! ## Ids that are too long -/

/-- a trace of one statement that is never reached -/
def Trace.ofStatement (id : ℤ) : Trace := ⟨⟨[(id, 0)], List.nodup_singleton _⟩, .empty, .empty, none⟩

/-- an id that is not written has no wire form, and in the shape of one it is not read -/
theorem Trace.no_wireForm {id : ℤ} (hlong : ¬ Text.IsWritable id) : (ofStatement id).toJson? = none ∧
    ofJson? (ofStatement id).toJson = .error (.longInteger (Nat.toDigits 10 id.natAbs).length) := by
  have hid : integerOf (.string (Text.CodeText.ofString (Text.integerText id)) : Json) =
      .error (.longInteger (Nat.toDigits 10 id.natAbs).length) := by
    simp only [integerOf, Text.CodeText.chars_ofString, Text.integer?_toList_integerText, if_neg hlong]
  have htable : tableOf integerOf (some (countsJson .int (ofStatement id).statements) : Option Json) =
      .error (.longInteger (Nat.toDigits 10 id.natAbs).length) := by
    simp only [ofStatement, countsJson, tableOf, List.map_cons, List.map_nil, List.mapM_cons, hid]
    rfl
  obtain ⟨hs, -⟩ := (ofStatement id).field?_toJson
  constructor
  · exact if_neg fun h => hlong (h _ (by simp [ids, ofStatement, OrderedMap.keys]))
  · rw [toJson] at hs ⊢
    rw [ofJson?]
    simp only [hs, htable]
    rfl

/-- an id with a digit too many has no wire form, and in the shape of one it is not read -/
theorem no_wireForm_with_long_id : (Trace.ofStatement (10 ^ 4300)).toJson? = none ∧
    Trace.ofJson? (Trace.ofStatement (10 ^ 4300)).toJson = .error (.longInteger 4301) := by
  have hnone := Trace.no_wireForm (Text.not_isWritable_pow (k := 4300) le_rfl)
  rwa [Text.length_toDigits_pow] at hnone

end Turnstile
