/-
Hits collected in several records and merged.

Collectors share the traces that they start from, one for each key with every count at zero. Each works on a record of its
own, and the records are merged in some order and grouping.
- `HitRecord.Tallies`: a record has the keys ensured and counts the hits made, with `Tallies.ensure`, `Tallies.exists_hit?` and
  `Tallies.merge` for its steps, and from them `exists_collect?` for a run of one collector;
- `merged_shards_count_every_hit`: merged records count what one record that took every hit counts.
-/
import Turnstile.Proofs.Coverage.Counting

namespace Turnstile

/-! ## Records -/

/-- how many hits were made on each counter of a key -/
def hitTally (template : String → Trace) (hits : List (String × Slot)) (key : String) : Counter ℤ → ℤ := fun c =>
  hits.countP fun h => h.1 = key ∧ (template key).counter? h.2 = some c

section Tally

variable {template : String → Trace} {hits hits' : List (String × Slot)} {key : String}

theorem hitTally_append : hitTally template (hits ++ hits') key = hitTally template hits key + hitTally template hits' key := by
  funext c
  simp [hitTally]

theorem hitTally_of_perm (h : hits.Perm hits') : hitTally template hits key = hitTally template hits' key := by
  funext c
  rw [hitTally, hitTally, h.countP_eq]

theorem hitTally_eq_zero (h : ∀ hit ∈ hits, hit.1 ≠ key) : hitTally template hits key = 0 := by
  funext c
  rw [hitTally, List.countP_eq_zero.2, Nat.cast_zero, Pi.zero_apply]
  intro hit hmem
  simp [h hit hmem]

theorem hitTally_single {slot : Slot} {c : Counter ℤ} (hc : (template key).counter? slot = some c) :
    hitTally template [(key, slot)] key = Pi.single c 1 := by
  funext c'
  by_cases h : c' = c
  · simp [hitTally, hc, h]
  · simp [hitTally, hc, h, Ne.symm h]

end Tally

namespace HitRecord

/-- the keys of `r` are those ensured, and the trace of a key is its template with the hits made on it -/
structure Tallies (template : String → Trace) (ensured : List String) (hits : List (String × Slot)) (r : HitRecord) :
    Prop where
  mem_keys : ∀ key, key ∈ r.keys ↔ key ∈ ensured
  known : ∀ hit ∈ hits, hit.1 ∈ ensured
  counts : ∀ key ∈ ensured, r.files.get? key = some ((template key).plus (hitTally template hits key))

section Tallies

variable {template : String → Trace} {ensured ensured' : List String} {hits hits' : List (String × Slot)}
  {r a b : HitRecord}

theorem tallies_empty : empty.Tallies template [] [] where
  mem_keys := fun _ => Iff.rfl
  known := fun _ h => absurd h List.not_mem_nil
  counts := fun _ h => absurd h List.not_mem_nil

theorem Tallies.get?_eq_none (h : r.Tallies template ensured hits) {key : String} (hkey : key ∉ ensured) :
    r.files.get? key = none := OrderedMap.get?_eq_none_iff.2 fun hmem => hkey ((h.mem_keys key).1 hmem)

theorem Tallies.hitTally_eq_zero (h : r.Tallies template ensured hits) {key : String} (hkey : key ∉ ensured) :
    hitTally template hits key = 0 :=
  Turnstile.hitTally_eq_zero fun hit hmem he => hkey (he ▸ h.known hit hmem)

/-- **Ensuring a key loses nothing**: a new key starts from its template, a known one keeps its counts. -/
theorem Tallies.ensure (h : r.Tallies template ensured hits) (key : String) :
    (r.ensure key (template key)).Tallies template (ensured ++ [key]) hits := by
  by_cases hkey : key ∈ ensured
  · have hkeep : r.ensure key (template key) = r := by rw [HitRecord.ensure, h.counts key hkey]
    have hmem : ∀ j, j ∈ ensured ++ [key] ↔ j ∈ ensured := by
      intro j
      simp only [List.mem_append, List.mem_singleton, or_iff_left_iff_imp]
      rintro rfl
      exact hkey
    rw [hkeep]
    exact ⟨fun j => (h.mem_keys j).trans (hmem j).symm, fun hit hh => (hmem _).2 (h.known hit hh),
      fun j hj => h.counts j ((hmem j).1 hj)⟩
  · have hnew : r.ensure key (template key) = ⟨r.files.put key (template key)⟩ := by
      rw [HitRecord.ensure, h.get?_eq_none hkey]
    rw [hnew]
    refine ⟨fun j => ?_, fun hit hh => List.mem_append_left _ (h.known hit hh), fun j hj => ?_⟩
    · have hnot : key ∉ r.files.keys := fun hmem => hkey ((h.mem_keys key).1 hmem)
      have hj := h.mem_keys j
      simp only [keys] at hj ⊢
      simp [OrderedMap.keys_put, hnot, hj]
    · rw [OrderedMap.get?_put]
      by_cases hjk : j = key
      · rw [if_pos hjk, hjk, h.hitTally_eq_zero hkey, Trace.plus_zero]
      · have hj : j ∈ ensured := by simpa [hjk] using hj
        rw [if_neg hjk, h.counts j hj]

/-- **A hit on a key that was ensured is counted**, once and under its own counter. -/
theorem Tallies.exists_hit? (h : r.Tallies template ensured hits) {key : String} {slot : Slot} {c : Counter ℤ}
    (hkey : key ∈ ensured) (hc : (template key).counter? slot = some c) :
    ∃ r', r.hit? key slot 1 = .ok r' ∧ r'.Tallies template ensured (hits ++ [(key, slot)]) := by
  have hget := h.counts key hkey
  have hmem : key ∈ r.files.keys := (h.mem_keys key).2 hkey
  refine ⟨⟨r.files.put key ((template key).plus (hitTally template hits key + Pi.single c 1))⟩, ?_, ?_, ?_, ?_⟩
  · rw [hit?, hget]
    simp only [Trace.hitTrace_plus hc]
    rfl
  · intro j
    rw [keys, OrderedMap.keys_put, if_pos hmem]
    exact h.mem_keys j
  · intro hit hh
    rcases List.mem_append.1 hh with hh | hh
    · exact h.known hit hh
    · rw [List.mem_singleton.1 hh]
      exact hkey
  · intro j hj
    rw [OrderedMap.get?_put, hitTally_append]
    by_cases hjk : j = key
    · rw [if_pos hjk, hjk, hitTally_single hc]
    · have hother : hitTally template [(key, slot)] j = 0 := Turnstile.hitTally_eq_zero (by simpa using Ne.symm hjk)
      rw [if_neg hjk, h.counts j hj, hother, add_zero]

/-- **Merging counts the hits of both records.** -/
theorem Tallies.merge (hzero : ∀ key, (template key).Zeroed) (ha : a.Tallies template ensured hits)
    (hb : b.Tallies template ensured' hits') : (a.merge b).Tallies template (ensured ++ ensured') (hits ++ hits') := by
  refine ⟨fun key => ?_, fun hit hh => ?_, fun key hkey => ?_⟩
  · rw [keys, files_merge, OrderedMap.mem_keys_absorb_iff, List.mem_append]
    exact or_congr (ha.mem_keys key) (hb.mem_keys key)
  · rcases List.mem_append.1 hh with hh | hh
    · exact List.mem_append_left _ (ha.known hit hh)
    · exact List.mem_append_right _ (hb.known hit hh)
  · rw [files_merge, OrderedMap.get?_absorb, hitTally_append]
    by_cases hb' : key ∈ ensured'
    · by_cases ha' : key ∈ ensured
      · simp only [hb.counts key hb', ha.counts key ha', Option.map_some, Option.getD_some,
          Trace.merge_plus (hzero key)]
      · simp only [hb.counts key hb', ha.get?_eq_none ha', Option.map_none, Option.getD_none,
          ha.hitTally_eq_zero ha', zero_add]
    · have ha' : key ∈ ensured := (List.mem_append.1 hkey).resolve_right hb'
      simp only [hb.get?_eq_none hb', ha.counts key ha', hb.hitTally_eq_zero hb', add_zero]

/-- records that count the same hits under the same keys have the same traces -/
theorem Tallies.get?_eq (ha : a.Tallies template ensured hits) (hb : b.Tallies template ensured' hits')
    (hkeys : ∀ key, key ∈ ensured ↔ key ∈ ensured') (hhits : hits.Perm hits') (key : String) :
    a.files.get? key = b.files.get? key := by
  by_cases hkey : key ∈ ensured
  · rw [ha.counts key hkey, hb.counts key ((hkeys key).1 hkey), hitTally_of_perm hhits]
  · rw [ha.get?_eq_none hkey, hb.get?_eq_none fun h => hkey ((hkeys key).2 h)]

end Tallies

end HitRecord

/-! ## Collectors -/

/-- what a collector does with its record -/
inductive CollectorStep where
  | ensure (key : String)
  | hit (key : String) (slot : Slot)
  deriving DecidableEq, Repr

section Collectors

variable (template : String → Trace)

def CollectorStep.perform? (r : HitRecord) : CollectorStep → Except HitFault HitRecord
  | ensure key => .ok (r.ensure key (template key))
  | hit key slot => r.hit? key slot 1

/-- the record of a collector that starts with nothing -/
def collect? (steps : List CollectorStep) : Except HitFault HitRecord :=
  steps.foldlM (CollectorStep.perform? template) .empty

def ensuredKeys (steps : List CollectorStep) : List String :=
  steps.filterMap fun
    | .ensure key => some key
    | .hit _ _ => none

def hitsOf (steps : List CollectorStep) : List (String × Slot) :=
  steps.filterMap fun
    | .ensure _ => none
    | .hit key slot => some (key, slot)

/-- steps that hit a key only after it was ensured, and only counters that its template has -/
inductive Orderly : List CollectorStep → Prop
  | start : Orderly []
  | ensure {steps : List CollectorStep} {key : String} : Orderly steps → Orderly (steps ++ [.ensure key])
  | hit {steps : List CollectorStep} {key : String} {slot : Slot} {c : Counter ℤ} : Orderly steps →
      key ∈ ensuredKeys steps → (template key).counter? slot = some c → Orderly (steps ++ [.hit key slot])

/-- records of collectors merged in some order and grouping -/
inductive Collection where
  | shard (steps : List CollectorStep)
  | merged (into added : Collection)

namespace Collection

def shards : Collection → List (List CollectorStep)
  | shard steps => [steps]
  | merged into added => into.shards ++ added.shards

def record? : Collection → Except HitFault HitRecord
  | shard steps => collect? template steps
  | merged into added => do return (← into.record?).merge (← added.record?)

end Collection

variable {template}

theorem collect?_append_singleton (steps : List CollectorStep) (step : CollectorStep) :
    collect? template (steps ++ [step]) = collect? template steps >>= step.perform? template := by
  rw [collect?, List.foldlM_append, ← collect?]
  refine bind_congr fun r => ?_
  rw [List.foldlM_cons]
  exact bind_pure _

/-- **A collector never fails and counts each of its hits.** -/
theorem exists_collect? {steps : List CollectorStep} (h : Orderly template steps) :
    ∃ r, collect? template steps = .ok r ∧ r.Tallies template (ensuredKeys steps) (hitsOf steps) := by
  induction h with
  | start => exact ⟨.empty, rfl, HitRecord.tallies_empty⟩
  | @ensure steps key _ ih =>
    obtain ⟨r, hr, hcounts⟩ := ih
    refine ⟨r.ensure key (template key), ?_, ?_⟩
    · rw [collect?_append_singleton, hr]
      rfl
    · simpa [ensuredKeys, hitsOf] using hcounts.ensure key
  | @hit steps key slot c _ hkey hc ih =>
    obtain ⟨r, hr, hcounts⟩ := ih
    obtain ⟨r', hr', hcounts'⟩ := hcounts.exists_hit? hkey hc
    refine ⟨r', ?_, ?_⟩
    · rw [collect?_append_singleton, hr]
      exact hr'
    · simpa [ensuredKeys, hitsOf] using hcounts'

/-- merging never fails and counts each hit of each collector -/
theorem Collection.exists_record? (hzero : ∀ key, (template key).Zeroed) {c : Collection}
    (h : ∀ steps ∈ c.shards, Orderly template steps) :
    ∃ r, c.record? template = .ok r ∧
      r.Tallies template (c.shards.flatMap ensuredKeys) (c.shards.flatMap hitsOf) := by
  induction c with
  | shard steps => simpa [shards, record?] using exists_collect? (h steps List.mem_cons_self)
  | merged into added ihInto ihAdded =>
    obtain ⟨a, ha, hcountsA⟩ := ihInto fun steps hs => h steps (List.mem_append_left _ hs)
    obtain ⟨b, hb, hcountsB⟩ := ihAdded fun steps hs => h steps (List.mem_append_right _ hs)
    refine ⟨a.merge b, ?_, ?_⟩
    · rw [record?, ha, hb]
      rfl
    · rw [shards, List.flatMap_append, List.flatMap_append]
      exact hcountsA.merge hzero hcountsB

/-- **Merged shards count every hit.** Some collectors start from the same zero-filled templates and share out the hits
that one collector `whole` makes; each ensures a key before it first hits it, and as often as it likes after. However
their records are merged, every collector succeeds, the outcome has the fields of the record of `whole` in some order, and
the trace of a key that was ensured is its template with the number of hits on each counter. -/
theorem merged_shards_count_every_hit (hzero : ∀ key, (template key).Zeroed) {c : Collection} {whole : List CollectorStep}
    (hshards : ∀ steps ∈ c.shards, Orderly template steps) (hwhole : Orderly template whole)
    (hkeys : ∀ key, key ∈ c.shards.flatMap ensuredKeys ↔ key ∈ ensuredKeys whole)
    (hhits : (c.shards.flatMap hitsOf).Perm (hitsOf whole)) :
    ∃ merged single fields fields', c.record? template = .ok merged ∧ collect? template whole = .ok single ∧
      merged.toJson = .object fields ∧ single.toJson = .object fields' ∧ fields.Perm fields' ∧
      ∀ key, merged.files.get? key =
        if key ∈ ensuredKeys whole then some ((template key).plus (hitTally template (hitsOf whole) key)) else none := by
  obtain ⟨merged, hmerged, hcounts⟩ := Collection.exists_record? hzero hshards
  obtain ⟨single, hsingle, hcounts'⟩ := exists_collect? hwhole
  have hget := hcounts.get?_eq hcounts' hkeys hhits
  refine ⟨merged, single, _, _, hmerged, hsingle, rfl, rfl, (OrderedMap.perm_entries hget).map _, fun key => ?_⟩
  rw [hget]
  split
  · next hkey => exact hcounts'.counts key hkey
  · next hkey => exact hcounts'.get?_eq_none hkey

/-! ### Two collectors that share three hits -/

/-- a statement and a branch of two alternatives, none of them reached -/
def unreached : Trace := ⟨.ofList [(1, 0)], .ofList [(2, [0, 0])], .empty, none⟩

theorem zeroed_unreached : unreached.Zeroed := ⟨by decide, by decide, by decide⟩

def firstCollector : List CollectorStep :=
  [.ensure "a.js", .hit "a.js" (.branch 2 (-1)), .ensure "a.js", .hit "a.js" (.statement 1)]

def secondCollector : List CollectorStep := [.ensure "b.js", .ensure "a.js", .hit "a.js" (.branch 2 1)]

def onlyCollector : List CollectorStep :=
  [.ensure "a.js", .ensure "b.js", .hit "a.js" (.branch 2 1), .hit "a.js" (.statement 1), .hit "a.js" (.branch 2 (-1))]

theorem orderly_firstCollector : Orderly (fun _ => unreached) firstCollector := by
  have hfirst : Orderly (fun _ => unreached) [.ensure "a.js", .hit "a.js" (.branch 2 (-1))] :=
    .hit (.ensure .start) (by decide) rfl
  exact .hit (.ensure hfirst) (by decide) rfl

theorem orderly_secondCollector : Orderly (fun _ => unreached) secondCollector :=
  .hit (.ensure (.ensure .start)) (by decide) rfl

theorem orderly_onlyCollector : Orderly (fun _ => unreached) onlyCollector := by
  have hensured : Orderly (fun _ => unreached) [.ensure "a.js", .ensure "b.js"] := .ensure (.ensure .start)
  have hbranch : Orderly (fun _ => unreached) [.ensure "a.js", .ensure "b.js", .hit "a.js" (.branch 2 1)] :=
    .hit hensured (by decide) rfl
  exact .hit (.hit hbranch (by decide) rfl) (by decide) rfl

theorem two_collectors_merged : ∃ merged single fields fields',
    (Collection.merged (.shard secondCollector) (.shard firstCollector)).record? (fun _ => unreached) = .ok merged ∧
    collect? (fun _ => unreached) onlyCollector = .ok single ∧ merged.toJson = .object fields ∧
    single.toJson = .object fields' ∧ fields.Perm fields' ∧
    merged.files.get? "a.js" = some ⟨.ofList [(1, 1)], .ofList [(2, [0, 2])], .empty, none⟩ ∧
    merged.files.get? "b.js" = some unreached := by
  let collection : Collection := .merged (.shard secondCollector) (.shard firstCollector)
  have hzero : ∀ key : String, ((fun _ => unreached) key).Zeroed := fun _ => zeroed_unreached
  have hshards : ∀ steps ∈ collection.shards, Orderly (fun _ => unreached) steps := by
    simp [collection, Collection.shards, orderly_firstCollector, orderly_secondCollector]
  have hkeys : ∀ key, key ∈ collection.shards.flatMap ensuredKeys ↔ key ∈ ensuredKeys onlyCollector := by
    intro key
    show key ∈ ["b.js", "a.js", "a.js", "a.js"] ↔ key ∈ ["a.js", "b.js"]
    simp only [List.mem_cons, List.not_mem_nil]
    tauto
  obtain ⟨merged, single, fields, fields', hmerged, hsingle, hfields, hfields', hperm, hget⟩ :=
    merged_shards_count_every_hit hzero hshards orderly_onlyCollector hkeys (by decide)
  refine ⟨merged, single, fields, fields', hmerged, hsingle, hfields, hfields', hperm, ?_, ?_⟩
  · rw [hget, if_pos (by decide)]
    rfl
  · rw [hget, if_pos (by decide)]
    rfl

end Collectors

end Turnstile
