/-
Counting hits.

- `Trace.plus`: a trace with more on each of its counters;
- `Trace.hitTrace_plus`: a hit adds to one counter;
- `Trace.merge_eq_absorb`, `HitRecord.files_merge`: merging is adding table to table and trace to trace;
- `Trace.merge_plus`: traces that have counted from the same zeros merge to what both have counted.
-/
import Turnstile.Coverage.Record
import Turnstile.Emit.Snippet
import Turnstile.Proofs.Coverage.Tables

namespace Turnstile

/-! ## Traces -/

namespace Trace

/-- the counter that a slot of a trace names; a negative slot of a branch counts from the end -/
def counter? (t : Trace) : Slot → Option (Counter ℤ)
  | .statement id => if id ∈ t.statements.keys then some (.statement id) else none
  | .function id => if id ∈ t.functions.keys then some (.function id) else none
  | .branch id slot => do
    let counts ← t.branches.get? id
    let i := if slot < 0 then slot + counts.length else slot
    if 0 ≤ i ∧ i < counts.length then some (.branch id i.toNat) else none

/-- every count is zero -/
structure Zeroed (t : Trace) : Prop where
  statements : ∀ e ∈ t.statements.entries, e.2 = 0
  branches : ∀ e ∈ t.branches.entries, ∀ n ∈ e.2, n = 0
  functions : ∀ e ∈ t.functions.entries, e.2 = 0

/-- the trace with `f c` more on each counter `c` -/
def plus (t : Trace) (f : Counter ℤ → ℤ) : Trace :=
  { statements := t.statements.mapWithKey fun id n => n + f (.statement id)
    branches := t.branches.mapWithKey fun id counts => counts.mapIdx fun i n => n + f (.branch id i)
    functions := t.functions.mapWithKey fun id n => n + f (.function id)
    code := t.code }

variable {t : Trace} {f g : Counter ℤ → ℤ}

theorem plus_zero (t : Trace) : t.plus 0 = t := by
  have hcount : ∀ n : ℤ, n + 0 = n := add_zero
  have hslots : ∀ counts : List ℤ, (counts.mapIdx fun _ n => n + 0) = counts := fun counts => by
    rw [List.mapIdx_eq_zipIdx_map]
    simp
  rw [plus]
  simp only [Pi.zero_apply]
  rw [OrderedMap.mapWithKey_eq_self fun _ => hcount, OrderedMap.mapWithKey_eq_self fun _ => hslots,
    OrderedMap.mapWithKey_eq_self fun _ => hcount]

/-! ### Hits -/

theorem bump_mapWithKey {counts : OrderedMap ℤ ℤ} {F G : ℤ → ℤ} {id amount : ℤ} (hid : id ∈ counts.keys)
    (hG : G id = F id + amount) (hother : ∀ j, j ≠ id → G j = F j) :
    HitRecord.bump (counts.mapWithKey fun j n => n + F j) id amount = .ok (counts.mapWithKey fun j n => n + G j) := by
  obtain ⟨n, hn⟩ := OrderedMap.mem_keys_iff.1 hid
  have hput : (counts.mapWithKey fun j n => n + F j).put id (n + F id + amount) = counts.mapWithKey fun j n => n + G j := by
    refine OrderedMap.put_mapWithKey hn (by rw [hG, add_assoc]) ?_
    intro j hj
    funext n
    rw [hother j hj]
  rw [HitRecord.bump, OrderedMap.get?_mapWithKey, hn]
  exact congrArg Except.ok hput

theorem modify_mapIdx {counts : List ℤ} {F G : ℕ → ℤ} {i : ℕ} {amount : ℤ} (hG : G i = F i + amount)
    (hother : ∀ j, j ≠ i → G j = F j) :
    (counts.mapIdx fun j n => n + F j).modify i (· + amount) = counts.mapIdx fun j n => n + G j := by
  refine List.ext_getElem (by simp) ?_
  intro j hj _
  rw [List.getElem_modify, List.getElem_mapIdx, List.getElem_mapIdx]
  by_cases hij : i = j
  · subst hij
    simp [hG, add_assoc]
  · simp [hij, hother j (Ne.symm hij)]

theorem bumpSlot_mapWithKey {table : OrderedMap ℤ (List ℤ)} {F G : ℤ → ℕ → ℤ} {id slot i amount : ℤ} {counts : List ℤ}
    (hid : table.get? id = some counts) (hi : i = if slot < 0 then slot + counts.length else slot)
    (hrange : 0 ≤ i ∧ i < counts.length) (hG : G id i.toNat = F id i.toNat + amount)
    (hslots : ∀ j, j ≠ i.toNat → G id j = F id j) (hother : ∀ j, j ≠ id → G j = F j) :
    HitRecord.bumpSlot (table.mapWithKey fun j counts => counts.mapIdx fun k n => n + F j k) id slot amount =
      .ok (table.mapWithKey fun j counts => counts.mapIdx fun k n => n + G j k) := by
  have hput : (table.mapWithKey fun j counts => counts.mapIdx fun k n => n + F j k).put id
      ((counts.mapIdx fun k n => n + F id k).modify i.toNat (· + amount)) =
      table.mapWithKey fun j counts => counts.mapIdx fun k n => n + G j k := by
    refine OrderedMap.put_mapWithKey hid (modify_mapIdx hG hslots).symm ?_
    intro j hj
    funext counts
    rw [hother j hj]
  rw [HitRecord.bumpSlot, OrderedMap.get?_mapWithKey, hid]
  simp only [Option.map_some, List.length_mapIdx, ← hi]
  rw [if_pos hrange, hput]

theorem counter?_branch {id slot : ℤ} {c : Counter ℤ} (hc : t.counter? (.branch id slot) = some c) :
    ∃ counts i, t.branches.get? id = some counts ∧ (i = if slot < 0 then slot + counts.length else slot) ∧
      (0 ≤ i ∧ i < counts.length) ∧ c = .branch id i.toNat := by
  obtain ⟨counts, hid, hslot⟩ := Option.bind_eq_some_iff.1 hc
  obtain ⟨hrange, hcounter⟩ := Option.ite_none_right_eq_some.1 hslot
  exact ⟨counts, _, hid, rfl, hrange, (Option.some.inj hcounter).symm⟩

/-- **A hit adds to the counter of its slot and to no other.** -/
theorem hitTrace_plus {slot : Slot} {c : Counter ℤ} (hc : t.counter? slot = some c) (amount : ℤ) :
    HitRecord.hitTrace (t.plus f) slot amount = .ok (t.plus (f + Pi.single c amount)) := by
  obtain ⟨g, hg⟩ : ∃ g : Counter ℤ → ℤ, g = f + Pi.single c amount := ⟨_, rfl⟩
  have hself : g c = f c + amount := by simp [hg]
  have hother : ∀ c', c' ≠ c → g c' = f c' := by
    intro c' hne
    simp [hg, hne]
  rw [← hg]
  cases slot with
  | statement id =>
    obtain ⟨hid, rfl⟩ : id ∈ t.statements.keys ∧ Counter.statement id = c := by simpa [counter?] using hc
    have hbump := bump_mapWithKey hid hself fun j hj => hother (.statement j) (by simpa using hj)
    simp only [HitRecord.hitTrace, plus, hbump]
    simp [hother]
  | function id =>
    obtain ⟨hid, rfl⟩ : id ∈ t.functions.keys ∧ Counter.function id = c := by simpa [counter?] using hc
    have hbump := bump_mapWithKey hid hself fun j hj => hother (.function j) (by simpa using hj)
    simp only [HitRecord.hitTrace, plus, hbump]
    simp [hother]
  | branch id slot =>
    obtain ⟨counts, i, hid, hi, hrange, rfl⟩ := counter?_branch hc
    have hbump := bumpSlot_mapWithKey hid hi hrange hself (fun j hj => hother (.branch id j) (by simpa using hj))
      fun j hj => funext fun k => hother (.branch j k) (by simp [hj])
    simp only [HitRecord.hitTrace, plus, hbump]
    simp [hother]

/-! ### Merging -/

theorem addSlots_mapIdx {counts : List ℤ} {F G : ℕ → ℤ → ℤ} :
    addSlots (counts.mapIdx F) (counts.mapIdx G) = counts.mapIdx fun i n => F i n + G i n := by
  induction counts generalizing F G with
  | nil => rfl
  | cons n counts ih => simp only [List.mapIdx_cons, addSlots, ih]

/-- merging adds table to table, missing counts and slots taken as zero -/
theorem merge_eq_absorb (a b : Trace) : a.merge b =
    { statements := .absorb (fun o n => o.getD 0 + n) a.statements b.statements
      branches := .absorb (fun o counts => addSlots (o.getD []) counts) a.branches b.branches
      functions := .absorb (fun o n => o.getD 0 + n) a.functions b.functions
      code := a.code.or b.code } := rfl

/-- **Merging adds what both count**, on top of a trace that counts nothing. -/
theorem merge_plus (ht : t.Zeroed) : (t.plus f).merge (t.plus g) = t.plus (f + g) := by
  have hcounts : ∀ (m : OrderedMap ℤ ℤ) (F G : ℤ → ℤ), (∀ e ∈ m.entries, e.2 = 0) →
      OrderedMap.absorb (fun o n => o.getD 0 + n) (m.mapWithKey fun j n => n + F j) (m.mapWithKey fun j n => n + G j) =
        m.mapWithKey fun j n => n + (F j + G j) := by
    intro m F G hzero
    refine OrderedMap.absorb_mapWithKey _ ?_
    intro k n hn
    have hn : n = 0 := hzero (k, n) (OrderedMap.get?_eq_some_iff.1 hn)
    simp [hn]
  have hslots : ∀ (m : OrderedMap ℤ (List ℤ)) (F G : ℤ → ℕ → ℤ), (∀ e ∈ m.entries, ∀ n ∈ e.2, n = 0) →
      OrderedMap.absorb (fun o counts => addSlots (o.getD []) counts)
        (m.mapWithKey fun j counts => counts.mapIdx fun i n => n + F j i)
        (m.mapWithKey fun j counts => counts.mapIdx fun i n => n + G j i) =
        m.mapWithKey fun j counts => counts.mapIdx fun i n => n + (F j i + G j i) := by
    intro m F G hzero
    refine OrderedMap.absorb_mapWithKey _ ?_
    intro k counts hcounts
    rw [Option.getD_some, addSlots_mapIdx]
    refine List.mapIdx_eq_mapIdx_iff.2 ?_
    intro i hi
    have hn : counts[i] = 0 := hzero (k, counts) (OrderedMap.get?_eq_some_iff.1 hcounts) _ (List.getElem_mem hi)
    simp [hn]
  rw [merge_eq_absorb]
  simp only [plus, hcounts _ _ _ ht.statements, hcounts _ _ _ ht.functions, hslots _ _ _ ht.branches, Option.or_self,
    Pi.add_apply]

end Trace

/-! ## Records -/

/-- merging adds the traces of the second record key by key -/
theorem HitRecord.files_merge (a b : HitRecord) :
    (a.merge b).files = .absorb (fun o t => (o.map (·.merge t)).getD t) a.files b.files := by
  refine (List.foldl_hom HitRecord.files ?_).symm
  intro r e
  rw [mergeEntry]
  split
  · next h => simp [h]
  · next h => simp [h]

end Turnstile
