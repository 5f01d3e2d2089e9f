/-
The algebra of merging.

Traces and records of traces are merged table by table, down to the slots of a branch.
- `Json.Rearranged`: the same value, with the fields of its objects in another order;
- `Trace.mergeSelf`, `HitRecord.mergeSelf`: a trace or a record merged into itself where it stands, so that every count is
  read from the table that is being written;
- `MergeLaws`: merging is associative, has an identity, commutes up to the order of keys and doubles what is merged into
  itself. `merge_laws` proves this for traces and from it for records.
-/
import Turnstile.Proofs.Coverage.Counting

namespace Turnstile

/-! ## Values up to the order of fields -/

/-- the same value, with the fields of objects in any order; a pair or triple holds what stands for each other -/
inductive Json.Rearranged : Json → Json → Prop
  | refl (v : Json) : Rearranged v v
  | array {pairs : List (Json × Json)} (each : ∀ p ∈ pairs, Rearranged p.1 p.2) :
      Rearranged (.array (pairs.map Prod.fst)) (.array (pairs.map Prod.snd))
  | object (pairs : List (String × Json × Json)) (fields : List (String × Json)) (each : ∀ p ∈ pairs, Rearranged p.2.1 p.2.2)
      (order : (pairs.map fun p => (p.1, p.2.2)).Perm fields) :
      Rearranged (.object (pairs.map fun p => (p.1, p.2.1))) (.object fields)

/-- objects of maps that have the same keys, and under each key values that are the same up to the order of fields -/
theorem OrderedMap.rearranged {κ ν : Type} [DecidableEq κ] {a b : OrderedMap κ ν} (name : κ → String) (value : ν → Json)
    (hkeys : ∀ k, k ∈ a.keys ↔ k ∈ b.keys)
    (hvalues : ∀ k v w, a.get? k = some v → b.get? k = some w → (value v).Rearranged (value w)) :
    Json.Rearranged (.object (a.entries.map fun e => (name e.1, value e.2)))
      (.object (b.entries.map fun e => (name e.1, value e.2))) := by
  -- the entries of `a` with the values that `b` has under their keys
  have hperm : (a.mapWithKey fun k v => (b.get? k).getD v).entries.Perm b.entries := by
    refine perm_entries fun k => ?_
    rw [get?_mapWithKey]
    cases ha : a.get? k with
    | none =>
      have hb : k ∉ b.keys := fun h => get?_eq_none_iff.1 ha ((hkeys k).2 h)
      rw [get?_eq_none_iff.2 hb, Option.map_none]
    | some v =>
      obtain ⟨w, hw⟩ := mem_keys_iff.1 ((hkeys k).1 (mem_keys_iff.2 ⟨v, ha⟩))
      rw [hw, Option.map_some, Option.getD_some]
  have hfields := hperm.map fun e => (name e.1, value e.2)
  have hobject := Json.Rearranged.object
    (a.entries.map fun e => (name e.1, value e.2, value ((b.get? e.1).getD e.2)))
    (b.entries.map fun e => (name e.1, value e.2)) ?_ ?_
  · simpa only [List.map_map, Function.comp_def] using hobject
  · intro p hp
    obtain ⟨⟨k, v⟩, he, rfl⟩ := List.mem_map.1 hp
    have ha : a.get? k = some v := get?_eq_some_iff.2 he
    obtain ⟨w, hw⟩ := mem_keys_iff.1 ((hkeys k).1 (mem_keys_iff.2 ⟨v, ha⟩))
    simpa only [hw, Option.getD_some] using hvalues k v w ha hw
  · rw [List.map_map]
    rw [mapWithKey, List.map_map] at hfields
    exact hfields

/-! ## The laws -/

/-- merging with an identity; `mergeSelf` merges a value into itself where it stands, and `agree` says which values may be
merged in any order -/
structure MergeLaws {α : Type} (merge : α → α → α) (empty : α) (mergeSelf double : α → α) (agree : α → α → Prop)
    (toJson : α → Json) : Prop where
  assoc : ∀ a b c, merge (merge a b) c = merge a (merge b c)
  empty_merge : ∀ a, merge empty a = a
  merge_empty : ∀ a, merge a empty = a
  comm : ∀ a b, agree a b → (toJson (merge a b)).Rearranged (toJson (merge b a))
  self : ∀ a, mergeSelf a = merge a a
  self_doubles : ∀ a, merge a a = double a

/-! ## Traces -/

namespace Trace

theorem nil_addSlots (ys : List ℤ) : addSlots [] ys = ys := by
  rw [addSlots]

theorem addSlots_nil (xs : List ℤ) : addSlots xs [] = xs := by
  cases xs <;> rfl

theorem addSlots_comm (xs ys : List ℤ) : addSlots xs ys = addSlots ys xs := by
  induction xs generalizing ys with
  | nil => rw [nil_addSlots, addSlots_nil]
  | cons x xs ih =>
    cases ys with
    | nil => rw [nil_addSlots, addSlots_nil]
    | cons y ys => rw [addSlots, addSlots, ih, add_comm]

theorem addSlots_assoc (xs ys zs : List ℤ) : addSlots (addSlots xs ys) zs = addSlots xs (addSlots ys zs) := by
  induction xs generalizing ys zs with
  | nil => rw [nil_addSlots, nil_addSlots]
  | cons x xs ih =>
    cases ys with
    | nil => rw [addSlots_nil, nil_addSlots]
    | cons y ys =>
      cases zs with
      | nil => rw [addSlots_nil, addSlots_nil]
      | cons z zs => simp only [addSlots, ih, add_assoc]

theorem addSlots_self (xs : List ℤ) : addSlots xs xs = xs.map (2 * ·) := by
  induction xs with
  | nil => rfl
  | cons x xs ih => rw [addSlots, ih, List.map_cons, two_mul]

/-! ### In place -/

/-- one slot with the count added to it that stands there at that moment -/
def addSlotOnto (counts : List ℤ) (i : ℕ) : List ℤ := counts.set i (counts[i]?.getD 0 + counts[i]?.getD 0)

/-- slots added onto themselves from the first to the last -/
def addSlotsOnto (counts : List ℤ) : List ℤ := (List.range counts.length).foldl addSlotOnto counts

/-- when the turn of a slot comes, those in front of it are doubled -/
theorem foldl_addSlotOnto (counts : List ℤ) {i : ℕ} (hi : i ≤ counts.length) :
    (List.range i).foldl addSlotOnto counts = (counts.take i).map (2 * ·) ++ counts.drop i := by
  induction i with
  | zero => simp
  | succ i ih =>
    have hlt : i < counts.length := hi
    have hlen : ((counts.take i).map (2 * ·)).length = i := by simp [hlt.le]
    have hget : ((counts.take i).map (2 * ·) ++ counts[i] :: counts.drop (i + 1))[i]? = some counts[i] := by
      rw [List.getElem?_append_right hlen.le, hlen, Nat.sub_self, List.getElem?_cons_zero]
    rw [List.range_succ, List.foldl_append, ih hlt.le, List.foldl_cons, List.foldl_nil, List.drop_eq_getElem_cons hlt,
      addSlotOnto, hget, Option.getD_some, List.set_append_right _ _ hlen.le, hlen, Nat.sub_self, List.set_cons_zero,
      List.take_succ_eq_append_getElem hlt, List.map_append, List.append_assoc, ← two_mul]
    rfl

theorem addSlotsOnto_eq (counts : List ℤ) : addSlotsOnto counts = addSlots counts counts := by
  rw [addSlotsOnto, foldl_addSlotOnto counts le_rfl, List.take_length, List.drop_length, List.append_nil, addSlots_self]

/-- a trace merged into itself where it stands -/
def mergeSelf (t : Trace) : Trace :=
  { statements := t.statements.updateEach fun n => n + n
    branches := t.branches.updateEach addSlotsOnto
    functions := t.functions.updateEach fun n => n + n
    code := t.code }

/-- every count twice, all else as it is -/
def double (t : Trace) : Trace :=
  { statements := t.statements.mapWithKey fun _ n => 2 * n
    branches := t.branches.mapWithKey fun _ counts => counts.map (2 * ·)
    functions := t.functions.mapWithKey fun _ n => 2 * n
    code := t.code }

/-- not two different lists of lines -/
def AgreesOnCode (a b : Trace) : Prop := ∀ xs ∈ a.code, ∀ ys ∈ b.code, xs = ys

/-! ### Merging traces -/

theorem merge_assoc (a b c : Trace) : (a.merge b).merge c = a.merge (b.merge c) := by
  have hcounts := OrderedMap.absorb_assoc (κ := ℤ) (ν := ℤ) (c := fun o n => o.getD 0 + n) zero_add add_assoc
  have hslots := OrderedMap.absorb_assoc (κ := ℤ) (c := fun o counts => addSlots (o.getD []) counts) nil_addSlots
    addSlots_assoc
  simp only [merge_eq_absorb, hcounts, hslots, Option.or_assoc]

theorem empty_merge (t : Trace) : empty.merge t = t := by
  have hcounts := OrderedMap.empty_absorb (κ := ℤ) (ν := ℤ) (c := fun o n => o.getD 0 + n) zero_add
  have hslots := OrderedMap.empty_absorb (κ := ℤ) (c := fun o counts => addSlots (o.getD []) counts) nil_addSlots
  simp only [merge_eq_absorb, empty, hcounts, hslots, Option.none_or]

theorem merge_empty (t : Trace) : t.merge empty = t := by
  simp only [merge_eq_absorb, empty, OrderedMap.absorb_empty, Option.or_none]

/-- tables with the same values are written the same, up to the order of ids -/
theorem rearranged_countsJson {α : Type} (value : α → Json) {m m' : OrderedMap ℤ α} (h : ∀ k, m.get? k = m'.get? k) :
    (countsJson value m).Rearranged (countsJson value m') := by
  refine OrderedMap.rearranged Text.integerText value (fun k => ?_) fun k v w hv hw => ?_
  · rw [OrderedMap.mem_keys_iff, OrderedMap.mem_keys_iff, h]
  · obtain rfl : v = w := Option.some.inj (hv.symm.trans ((h k).trans hw))
    exact .refl _

/-- traces with the same counts and the same lines are written the same, up to the order of ids -/
theorem rearranged_toJson {a b : Trace} (hstatements : ∀ k, a.statements.get? k = b.statements.get? k)
    (hbranches : ∀ k, a.branches.get? k = b.branches.get? k) (hfunctions : ∀ k, a.functions.get? k = b.functions.get? k)
    (hcode : a.code = b.code) : a.toJson.Rearranged b.toJson := by
  let tables (t : Trace) : List (String × Json) := [("s", countsJson .int t.statements),
    ("b", countsJson (fun ns => .array (ns.map .int)) t.branches), ("f", countsJson .int t.functions)]
  let lines : List (String × Json) := (b.code.map fun lines => ("code", Json.array lines)).toList
  have hobject := Json.Rearranged.object
    (((tables a).zip (tables b)).map (fun p => (p.1.1, p.1.2, p.2.2)) ++ lines.map fun p => (p.1, p.2, p.2))
    (tables b ++ lines) ?_ ?_
  · simpa [toJson, tables, lines, hcode, Function.comp_def] using hobject
  · intro p hp
    simp only [tables, List.zip_cons_cons, List.zip_nil_right, List.map_cons, List.map_nil, List.mem_append, List.mem_cons,
      List.not_mem_nil, or_false, List.mem_map] at hp
    rcases hp with (rfl | rfl | rfl) | ⟨p, -, rfl⟩
    · exact rearranged_countsJson .int hstatements
    · exact rearranged_countsJson (fun ns => .array (ns.map .int)) hbranches
    · exact rearranged_countsJson .int hfunctions
    · exact .refl _
  · simp [tables, lines, Function.comp_def]

theorem merge_comm {a b : Trace} (h : a.AgreesOnCode b) : (a.merge b).toJson.Rearranged (b.merge a).toJson := by
  have hcounts := OrderedMap.get?_absorb_comm (κ := ℤ) (ν := ℤ) (c := fun o n => o.getD 0 + n) zero_add add_comm
  have hslots := OrderedMap.get?_absorb_comm (κ := ℤ) (c := fun o counts => addSlots (o.getD []) counts) nil_addSlots
    addSlots_comm
  refine rearranged_toJson (hcounts _ _) (hslots _ _) (hcounts _ _) ?_
  simp only [merge_eq_absorb]
  cases ha : a.code with
  | none => simp
  | some xs =>
    cases hb : b.code with
    | none => simp
    | some ys => simp [h xs ha ys hb]

theorem merge_self (t : Trace) : t.merge t = t.double := by
  simp only [merge_eq_absorb, OrderedMap.absorb_self, Option.getD_some, addSlots_self, ← two_mul, Option.or_self, double]

theorem mergeSelf_eq (t : Trace) : t.mergeSelf = t.merge t := by
  simp only [merge_self, mergeSelf, double, OrderedMap.updateEach_eq, funext addSlotsOnto_eq, addSlots_self, ← two_mul]

end Trace

/-! ## Records -/

namespace HitRecord

/-- a record merged into itself where it stands -/
def mergeSelf (r : HitRecord) : HitRecord := ⟨r.files.updateEach Trace.mergeSelf⟩

def double (r : HitRecord) : HitRecord := ⟨r.files.mapWithKey fun _ t => t.double⟩

/-- under no key two different lists of lines -/
def AgreesOnCode (a b : HitRecord) : Prop :=
  ∀ key t t', a.files.get? key = some t → b.files.get? key = some t' → t.AgreesOnCode t'

theorem eq_of_files {a b : HitRecord} (h : a.files = b.files) : a = b := by
  cases a
  cases b
  exact congrArg mk h

theorem merge_assoc (a b c : HitRecord) : (a.merge b).merge c = a.merge (b.merge c) := by
  refine eq_of_files ?_
  simp only [files_merge]
  exact OrderedMap.absorb_assoc (fun _ => rfl) Trace.merge_assoc _ _ _

theorem empty_merge (r : HitRecord) : empty.merge r = r := by
  refine eq_of_files ?_
  rw [files_merge]
  exact OrderedMap.empty_absorb (fun _ => rfl) _

theorem merge_empty (r : HitRecord) : r.merge empty = r := rfl

theorem merge_comm {a b : HitRecord} (h : a.AgreesOnCode b) : (a.merge b).toJson.Rearranged (b.merge a).toJson := by
  refine OrderedMap.rearranged id Trace.toJson (fun key => ?_) fun key t t' ht ht' => ?_
  · rw [files_merge, files_merge, OrderedMap.mem_keys_absorb_iff, OrderedMap.mem_keys_absorb_iff, or_comm]
  · rw [files_merge, OrderedMap.get?_absorb] at ht ht'
    cases ha : a.files.get? key with
    | none =>
      cases hb : b.files.get? key with
      | none => simp [ha, hb] at ht
      | some y =>
        simp only [ha, hb, Option.map_none, Option.getD_none, Option.some.injEq] at ht ht'
        exact ht ▸ ht' ▸ .refl _
    | some x =>
      cases hb : b.files.get? key with
      | none =>
        simp only [ha, hb, Option.map_none, Option.getD_none, Option.some.injEq] at ht ht'
        exact ht ▸ ht' ▸ .refl _
      | some y =>
        simp only [ha, hb, Option.map_some, Option.getD_some, Option.some.injEq] at ht ht'
        exact ht ▸ ht' ▸ Trace.merge_comm (h key x y ha hb)

theorem merge_self (r : HitRecord) : r.merge r = r.double := by
  refine eq_of_files ?_
  rw [files_merge, OrderedMap.absorb_self]
  simp only [Option.map_some, Option.getD_some, Trace.merge_self, double]

theorem mergeSelf_eq (r : HitRecord) : r.mergeSelf = r.merge r := by
  have hdouble : Trace.mergeSelf = Trace.double := funext fun t => t.mergeSelf_eq.trans t.merge_self
  rw [merge_self, mergeSelf, double, OrderedMap.updateEach_eq, hdouble]

end HitRecord

/-- **Traces and records merge alike.** Merging is associative, also in the order of keys and in the lines that are kept. What
is empty changes nothing on either side. In the other order the same is written, up to the order of fields, unless there are
two different lists of lines for one key. What is merged into itself where it stands has every count doubled and keeps all
else. -/
theorem merge_laws :
    MergeLaws Trace.merge .empty Trace.mergeSelf Trace.double Trace.AgreesOnCode Trace.toJson ∧
    MergeLaws HitRecord.merge .empty HitRecord.mergeSelf HitRecord.double HitRecord.AgreesOnCode HitRecord.toJson :=
  ⟨⟨Trace.merge_assoc, Trace.empty_merge, Trace.merge_empty, fun _ _ => Trace.merge_comm, Trace.mergeSelf_eq,
      Trace.merge_self⟩,
    ⟨HitRecord.merge_assoc, HitRecord.empty_merge, HitRecord.merge_empty, fun _ _ => HitRecord.merge_comm,
      HitRecord.mergeSelf_eq, HitRecord.merge_self⟩⟩

/-- the slots of the longer array are kept, and the ids of the first trace stay in front -/
example : ((⟨.empty, .ofList [(1, [1])], .empty, none⟩ : Trace).merge
    ⟨.empty, .ofList [(2, [5]), (1, [2, -3])], .empty, none⟩).branches.entries = [(1, [3, -3]), (2, [5])] := by decide

end Turnstile
