/-
Maps in the order of their keys, as tables of counts use them.

- `get?_eq_some_iff`, `eq_of_get?`: a map is given by its keys in their order and the value of each;
- `mapWithKey`: every value changed in a way that may depend on its key;
- `absorb`: the entries of one map added into another, with `keys_absorb` and `get?_absorb`: the keys of the first stay in
  front, and each value is made from what both have. `absorb_assoc`, `empty_absorb`, `get?_absorb_comm` and `absorb_self` are
  its laws, by those of the values;
- `updateEach`: every value changed where it stands, one after the other.
-/
import Mathlib.Tactic
import Turnstile.OrderedMap

namespace Turnstile.OrderedMap

variable {κ ν μ : Type}

@[ext]
theorem ext {a b : OrderedMap κ ν} (h : a.entries = b.entries) : a = b := by
  cases a
  cases b
  congr

/-- every value changed, no key -/
def mapWithKey (f : κ → ν → μ) (m : OrderedMap κ ν) : OrderedMap κ μ :=
  ⟨m.entries.map fun e => (e.1, f e.1 e.2), by
    rw [List.map_map]
    exact m.nodup_keys⟩

theorem keys_mapWithKey (f : κ → ν → μ) (m : OrderedMap κ ν) : (m.mapWithKey f).keys = m.keys := by
  simp [keys, mapWithKey]

variable [DecidableEq κ]

/-! ## Entries under different keys -/

theorem putEntry_of_not_mem {k : κ} {v : ν} {es : List (κ × ν)} (h : k ∉ es.map (·.1)) :
    putEntry k v es = es ++ [(k, v)] := by
  induction es with
  | nil => rfl
  | cons e es ih =>
    rw [List.map_cons, List.mem_cons, not_or] at h
    rw [putEntry, if_neg (Ne.symm h.1), ih h.2, List.cons_append]

/-- entries under new keys go to the end in their order -/
theorem entries_foldl_put {m : OrderedMap κ ν} {es : List (κ × ν)} (h : ((m.entries ++ es).map (·.1)).Nodup) :
    (es.foldl (fun m e => m.put e.1 e.2) m).entries = m.entries ++ es := by
  induction es generalizing m with
  | nil => simp
  | cons e es ih =>
    have hnew : e.1 ∉ m.entries.map (·.1) := by
      rw [List.map_append, List.map_cons] at h
      exact fun hm => (List.nodup_append.1 h).2.2 e.1 hm e.1 List.mem_cons_self rfl
    have hput : (m.put e.1 e.2).entries = m.entries ++ [e] := putEntry_of_not_mem hnew
    rw [List.foldl_cons, ih, hput, List.append_assoc, List.singleton_append]
    rwa [hput, List.append_assoc, List.singleton_append]

/-- entries under different keys are kept as they are -/
theorem entries_ofList {es : List (κ × ν)} (h : (es.map (·.1)).Nodup) : (ofList es).entries = es :=
  entries_foldl_put (m := empty) h

/-- a map is what its entries make -/
theorem ofList_entries (m : OrderedMap κ ν) : ofList m.entries = m := ext (entries_ofList m.nodup_keys)

/-! ## Entries and values -/

variable {m a b : OrderedMap κ ν} {k : κ} {v : ν}

theorem find?_of_mem {es : List (κ × ν)} (hnodup : (es.map (·.1)).Nodup) (h : (k, v) ∈ es) :
    es.find? (fun e => e.1 = k) = some (k, v) := by
  induction es with
  | nil => cases h
  | cons e es ih =>
    rw [List.map_cons, List.nodup_cons] at hnodup
    rcases List.mem_cons.1 h with rfl | h
    · simp
    · have hne : e.1 ≠ k := fun he => hnodup.1 (he ▸ List.mem_map_of_mem h)
      rw [List.find?_cons_of_neg (by simpa using hne), ih hnodup.2 h]

theorem get?_eq_some_iff : m.get? k = some v ↔ (k, v) ∈ m.entries := by
  constructor
  · intro h
    obtain ⟨e, he, rfl⟩ := Option.map_eq_some_iff.1 h
    have hk : e.1 = k := by simpa using List.find?_some he
    exact hk ▸ List.mem_of_find?_eq_some he
  · intro h
    rw [get?, find?_of_mem m.nodup_keys h]
    rfl

theorem mem_keys_iff : k ∈ m.keys ↔ ∃ v, m.get? k = some v := by
  simp [keys, get?_eq_some_iff]

theorem get?_eq_none_iff : m.get? k = none ↔ k ∉ m.keys := by
  rw [mem_keys_iff, Option.eq_none_iff_forall_ne_some, not_exists]

/-- the entries are the keys with their values -/
theorem entries_eq (m : OrderedMap κ ν) : m.entries = m.keys.filterMap fun k => (m.get? k).map (k, ·) := by
  have hentry : ∀ e ∈ m.entries, ((fun k => (m.get? k).map (k, ·)) ∘ Prod.fst) e = some e := fun e he => by
    rw [Function.comp_apply, get?_eq_some_iff.2 he, Option.map_some]
  rw [keys, List.filterMap_map, List.filterMap_congr hentry, List.filterMap_some]

/-- maps with the same keys in the same order and the same values are equal -/
theorem eq_of_get? (hkeys : a.keys = b.keys) (hget : ∀ k ∈ a.keys, a.get? k = b.get? k) : a = b := by
  refine ext ?_
  rw [entries_eq a, entries_eq b, ← hkeys]
  exact List.filterMap_congr fun k hk => by rw [hget k hk]

/-- maps with the same values have the same entries, maybe in another order -/
theorem perm_entries (hget : ∀ k, a.get? k = b.get? k) : a.entries.Perm b.entries := by
  refine (List.perm_ext_iff_of_nodup (.of_map _ a.nodup_keys) (.of_map _ b.nodup_keys)).2 fun e => ?_
  rw [← Prod.eta e, ← get?_eq_some_iff, ← get?_eq_some_iff, hget]

/-! ## Changing every value -/

theorem get?_mapWithKey (f : κ → ν → μ) (m : OrderedMap κ ν) (k : κ) :
    (m.mapWithKey f).get? k = (m.get? k).map (f k) := by
  cases h : m.get? k with
  | none => rwa [Option.map_none, get?_eq_none_iff, keys_mapWithKey, ← get?_eq_none_iff]
  | some v => exact get?_eq_some_iff.2 (List.mem_map_of_mem (get?_eq_some_iff.1 h))

theorem mapWithKey_eq_self {f : κ → ν → ν} (h : ∀ k v, f k v = v) : m.mapWithKey f = m := by
  refine eq_of_get? (keys_mapWithKey f m) fun k _ => ?_
  rw [get?_mapWithKey, funext (h k), Option.map_id_fun']
  rfl

/-- to write one value is to change only that value -/
theorem put_mapWithKey {f g : κ → ν → μ} {w : μ} (hget : m.get? k = some v) (hw : g k v = w)
    (hother : ∀ j, j ≠ k → g j = f j) : (m.mapWithKey f).put k w = m.mapWithKey g := by
  have hmem : k ∈ (m.mapWithKey f).keys := by
    rw [keys_mapWithKey]
    exact mem_keys_iff.2 ⟨v, hget⟩
  refine eq_of_get? ?_ fun j _ => ?_
  · rw [keys_put, if_pos hmem, keys_mapWithKey, keys_mapWithKey]
  · rw [get?_put, get?_mapWithKey, get?_mapWithKey]
    split
    · next hj =>
      subst hj
      rw [hget, Option.map_some, hw]
    · next hj => rw [hother j hj]

/-! ## Adding one map into another -/

/-- the entries of `b` written into `a` one by one, each value made from what `a` has there and what `b` has -/
def absorb (c : Option ν → μ → ν) (a : OrderedMap κ ν) (b : OrderedMap κ μ) : OrderedMap κ ν :=
  b.entries.foldl (fun m e => m.put e.1 (c (m.get? e.1) e.2)) a

section Absorb

variable (c : Option ν → μ → ν)

theorem keys_foldl_put (a : OrderedMap κ ν) {es : List (κ × μ)} (hnodup : (es.map (·.1)).Nodup) :
    (es.foldl (fun m e => m.put e.1 (c (m.get? e.1) e.2)) a).keys =
      a.keys ++ (es.map (·.1)).filter fun k => k ∉ a.keys := by
  induction es generalizing a with
  | nil => simp
  | cons e es ih =>
    rw [List.map_cons, List.nodup_cons] at hnodup
    rw [List.foldl_cons, ih _ hnodup.2, keys_put, List.map_cons]
    by_cases he : e.1 ∈ a.keys
    · rw [if_pos he, List.filter_cons_of_neg (by simpa using he)]
    · have hlater : (es.map (·.1)).filter (fun k => k ∉ a.keys ++ [e.1]) = (es.map (·.1)).filter fun k => k ∉ a.keys := by
        refine List.filter_congr fun k hk => ?_
        have hne : k ≠ e.1 := fun h => hnodup.1 (h ▸ hk)
        simp [hne]
      rw [if_neg he, List.filter_cons_of_pos (by simpa using he), hlater, List.append_assoc, List.singleton_append]

theorem get?_foldl_put (a : OrderedMap κ ν) {es : List (κ × μ)} (hnodup : (es.map (·.1)).Nodup) (k : κ) :
    (es.foldl (fun m e => m.put e.1 (c (m.get? e.1) e.2)) a).get? k =
      match (es.find? fun e => e.1 = k).map (·.2) with
      | some w => some (c (a.get? k) w)
      | none => a.get? k := by
  induction es generalizing a with
  | nil => rfl
  | cons e es ih =>
    rw [List.map_cons, List.nodup_cons] at hnodup
    rw [List.foldl_cons, ih _ hnodup.2, get?_put]
    by_cases he : e.1 = k
    · have hnone : es.find? (fun e => e.1 = k) = none := by
        refine List.find?_eq_none.2 fun e' he' => ?_
        have hne : e'.1 ≠ k := fun h => hnodup.1 ((he.trans h.symm) ▸ List.mem_map_of_mem he')
        simpa using hne
      rw [hnone, List.find?_cons_of_pos (by simpa using he), if_pos he.symm, he]
      rfl
    · rw [List.find?_cons_of_neg (by simpa using he), if_neg (Ne.symm he)]

/-- the keys of the first map, then the keys that only the second has -/
theorem keys_absorb (a : OrderedMap κ ν) (b : OrderedMap κ μ) :
    (absorb c a b).keys = a.keys ++ b.keys.filter fun k => k ∉ a.keys := keys_foldl_put c a b.nodup_keys

/-- a key of the second map has the value made from both, any other key keeps its value -/
theorem get?_absorb (a : OrderedMap κ ν) (b : OrderedMap κ μ) (k : κ) :
    (absorb c a b).get? k = match b.get? k with
      | some w => some (c (a.get? k) w)
      | none => a.get? k := get?_foldl_put c a b.nodup_keys k

theorem mem_keys_absorb_iff {a : OrderedMap κ ν} {b : OrderedMap κ μ} :
    k ∈ (absorb c a b).keys ↔ k ∈ a.keys ∨ k ∈ b.keys := by
  rw [keys_absorb, List.mem_append, List.mem_filter, decide_eq_true_eq]
  tauto

/-- adding a map with the same keys changes each value -/
theorem absorb_mapWithKey {α : Type} {m : OrderedMap κ α} {f h : κ → α → ν} {g : κ → α → μ}
    (hc : ∀ k v, m.get? k = some v → c (some (f k v)) (g k v) = h k v) :
    absorb c (m.mapWithKey f) (m.mapWithKey g) = m.mapWithKey h := by
  refine eq_of_get? ?_ fun k _ => ?_
  · rw [keys_absorb]
    simp [keys_mapWithKey]
  · rw [get?_absorb, get?_mapWithKey, get?_mapWithKey, get?_mapWithKey]
    cases hget : m.get? k with
    | none => rfl
    | some v => simp only [Option.map_some, hc k v hget]

end Absorb

/-! ### Maps of the same kind -/

section Laws

variable {c : Option ν → ν → ν}

theorem absorb_empty (a : OrderedMap κ ν) : absorb c a empty = a := rfl

/-- a map whose values are taken as they are where there was nothing -/
theorem empty_absorb (hnone : ∀ w, c none w = w) (b : OrderedMap κ ν) : absorb c empty b = b := by
  refine eq_of_get? ?_ fun k _ => ?_
  · rw [keys_absorb]
    simp [keys, empty]
  · rw [get?_absorb, get?_empty]
    cases b.get? k with
    | none => rfl
    | some w => exact congrArg some (hnone w)

/-- the keys come in the order of the first map that has them, however the maps are grouped -/
theorem keys_absorb_assoc (a b d : OrderedMap κ ν) :
    (absorb c (absorb c a b) d).keys = (absorb c a (absorb c b d)).keys := by
  have hnew : ∀ k : κ, decide (k ∉ a.keys ++ b.keys.filter fun k => k ∉ a.keys) =
      (decide (k ∉ a.keys) && decide (k ∉ b.keys)) := by
    intro k
    by_cases hk : k ∈ a.keys <;> simp [hk]
  simp only [keys_absorb, List.filter_append, List.filter_filter, List.append_assoc, hnew]

theorem absorb_assoc (hnone : ∀ w, c none w = w)
    (hassoc : ∀ x y z, c (some (c (some x) y)) z = c (some x) (c (some y) z)) (a b d : OrderedMap κ ν) :
    absorb c (absorb c a b) d = absorb c a (absorb c b d) := by
  refine eq_of_get? (keys_absorb_assoc a b d) fun k _ => ?_
  simp only [get?_absorb]
  cases a.get? k <;> cases b.get? k <;> cases d.get? k <;> simp [hnone, hassoc]

/-- adding in the other order gives each key the same value -/
theorem get?_absorb_comm (hnone : ∀ w, c none w = w) (hcomm : ∀ x y, c (some x) y = c (some y) x)
    (a b : OrderedMap κ ν) (k : κ) : (absorb c a b).get? k = (absorb c b a).get? k := by
  simp only [get?_absorb]
  cases a.get? k with
  | none => cases b.get? k <;> simp [hnone]
  | some x =>
    cases b.get? k with
    | none => simp [hnone]
    | some y => simp [hcomm x y]

/-- a map added into itself has each value made from two of it -/
theorem absorb_self (a : OrderedMap κ ν) : absorb c a a = a.mapWithKey fun _ v => c (some v) v := by
  have hself : a = a.mapWithKey fun _ v => v := (mapWithKey_eq_self fun _ _ => rfl).symm
  conv_lhs => rw [hself]
  exact absorb_mapWithKey c fun _ _ _ => rfl

end Laws

/-! ## One entry after the other -/

/-- the value of a key replaced by what is made from it -/
def updateAt (f : ν → ν) (m : OrderedMap κ ν) (k : κ) : OrderedMap κ ν :=
  match m.get? k with
  | some v => m.put k (f v)
  | none => m

/-- every value replaced in its turn, by what is made from the value that stands there at that moment -/
def updateEach (f : ν → ν) (m : OrderedMap κ ν) : OrderedMap κ ν := m.keys.foldl (updateAt f) m

theorem updateAt_mapWithKey (f : ν → ν) {g : κ → ν → ν} (hk : k ∈ m.keys) (hg : g k = id) :
    (m.mapWithKey g).updateAt f k = m.mapWithKey fun j => if j = k then f else g j := by
  obtain ⟨v, hv⟩ := mem_keys_iff.1 hk
  rw [updateAt, get?_mapWithKey, hv, hg]
  exact put_mapWithKey hv (by rw [if_pos rfl, id_eq]) fun j hj => if_neg hj

theorem foldl_updateAt (f : ν → ν) {ks : List κ} (hnodup : ks.Nodup) (hks : ∀ k ∈ ks, k ∈ m.keys) {g : κ → ν → ν}
    (hg : ∀ k ∈ ks, g k = id) :
    ks.foldl (updateAt f) (m.mapWithKey g) = m.mapWithKey fun k => if k ∈ ks then f else g k := by
  induction ks generalizing g with
  | nil => simp
  | cons k ks ih =>
    rw [List.nodup_cons] at hnodup
    have hlater : ∀ j ∈ ks, (if j = k then f else g j) = id := by
      intro j hj
      have hne : j ≠ k := fun h => hnodup.1 (h ▸ hj)
      rw [if_neg hne, hg j (List.mem_cons_of_mem _ hj)]
    rw [List.foldl_cons, updateAt_mapWithKey f (hks k List.mem_cons_self) (hg k List.mem_cons_self),
      ih hnodup.2 (fun j hj => hks j (List.mem_cons_of_mem _ hj)) hlater]
    refine congrArg (mapWithKey · m) (funext fun j => ?_)
    by_cases hj : j = k
    · subst hj
      simp
    · simp [hj]

/-- no turn sees what another turn wrote, so the values are those that were there before -/
theorem updateEach_eq (f : ν → ν) (m : OrderedMap κ ν) : m.updateEach f = m.mapWithKey fun _ => f := by
  have hid : (m.mapWithKey fun _ => id) = m := mapWithKey_eq_self fun _ _ => rfl
  have hupdate := foldl_updateAt (m := m) f m.nodup_keys (fun _ h => h) (g := fun _ => id) fun _ _ => rfl
  rw [hid] at hupdate
  refine hupdate.trans (eq_of_get? (by rw [keys_mapWithKey, keys_mapWithKey]) fun k hk => ?_)
  rw [keys_mapWithKey] at hk
  rw [get?_mapWithKey, get?_mapWithKey]
  exact congrArg (fun g => (m.get? k).map g) (if_pos hk)

end Turnstile.OrderedMap
