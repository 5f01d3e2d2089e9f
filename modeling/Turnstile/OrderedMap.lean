/-
Maps that keep the order in which their keys were first written.

`put` replaces the value of a key it finds and adds a new key at the end; no key occurs twice. `keys_put` states the order,
`get?_put` the values.
-/

namespace Turnstile

/-- entries with different keys, in the order of their first writing -/
structure OrderedMap (κ ν : Type) where
  entries : List (κ × ν)
  nodup_keys : (entries.map (·.1)).Nodup

namespace OrderedMap

variable {κ ν : Type} [DecidableEq κ]

def empty : OrderedMap κ ν := ⟨[], by simp⟩

instance : Inhabited (OrderedMap κ ν) := ⟨empty⟩

instance [DecidableEq ν] : DecidableEq (OrderedMap κ ν) := fun a b =>
  if h : a.entries = b.entries then isTrue (by cases a; cases b; simp_all) else isFalse (fun e => h (by rw [e]))

def keys (m : OrderedMap κ ν) : List κ := m.entries.map (·.1)

def values (m : OrderedMap κ ν) : List ν := m.entries.map (·.2)

def get? (m : OrderedMap κ ν) (k : κ) : Option ν := (m.entries.find? fun e => e.1 = k).map (·.2)

def contains (m : OrderedMap κ ν) (k : κ) : Bool := m.keys.contains k

/-- entries with the value of `k` replaced, or `k` added at the end -/
def putEntry (k : κ) (v : ν) : List (κ × ν) → List (κ × ν)
  | [] => [(k, v)]
  | e :: es => if e.1 = k then (k, v) :: es else e :: putEntry k v es

theorem keys_putEntry (k : κ) (v : ν) (es : List (κ × ν)) :
    (putEntry k v es).map (·.1) = if k ∈ es.map (·.1) then es.map (·.1) else es.map (·.1) ++ [k] := by
  induction es with
  | nil => simp [putEntry]
  | cons e es ih =>
    by_cases h : e.1 = k
    · simp [putEntry, h]
    · have hk : k ≠ e.1 := fun hk => h hk.symm
      simp only [putEntry, h, if_false, List.map_cons, ih, List.mem_cons, hk, false_or]
      split <;> simp

def put (m : OrderedMap κ ν) (k : κ) (v : ν) : OrderedMap κ ν :=
  ⟨putEntry k v m.entries, by
    rw [keys_putEntry]
    split
    · exact m.nodup_keys
    · next h =>
      refine List.nodup_append.2 ⟨m.nodup_keys, by simp, ?_⟩
      intro a ha b hb
      simp only [List.mem_singleton] at hb
      exact fun e => h (hb ▸ e ▸ ha)⟩

/-- a new key goes to the end, a known one stays where it is -/
theorem keys_put (m : OrderedMap κ ν) (k : κ) (v : ν) :
    (m.put k v).keys = if k ∈ m.keys then m.keys else m.keys ++ [k] := keys_putEntry k v m.entries

theorem find?_putEntry (k : κ) (v : ν) (j : κ) (es : List (κ × ν)) :
    (putEntry k v es).find? (fun e => e.1 = j) =
      if j = k then some (k, v) else es.find? fun e => e.1 = j := by
  induction es with
  | nil => by_cases h : j = k <;> simp [putEntry, h, eq_comm]
  | cons e es ih =>
    by_cases he : e.1 = k
    · by_cases h : j = k
      · simp [putEntry, he, h]
      · have hk : k ≠ j := fun hk => h hk.symm
        simp [putEntry, he, h, hk]
    · by_cases h : j = k
      · subst h
        simp [putEntry, he, ih]
      · simp only [putEntry, he, if_false, List.find?_cons, ih, h]

/-- a key has the value last written, other keys keep theirs -/
theorem get?_put (m : OrderedMap κ ν) (k : κ) (v : ν) (j : κ) :
    (m.put k v).get? j = if j = k then some v else m.get? j := by
  simp only [get?, put, find?_putEntry]
  split <;> rfl

theorem get?_empty (j : κ) : (empty : OrderedMap κ ν).get? j = none := rfl

/-- later entries replace the values of earlier ones of the same key -/
def ofList (es : List (κ × ν)) : OrderedMap κ ν := es.foldl (fun m e => m.put e.1 e.2) empty

def erase (m : OrderedMap κ ν) (k : κ) : OrderedMap κ ν :=
  ⟨m.entries.filter fun e => e.1 ≠ k, m.nodup_keys.sublist (List.filter_sublist.map _)⟩

/-- every value changed, no key -/
def mapValues {μ : Type} (f : ν → μ) (m : OrderedMap κ ν) : OrderedMap κ μ :=
  ⟨m.entries.map fun e => (e.1, f e.2), by
    have h : (m.entries.map fun e => (e.1, f e.2)).map (·.1) = m.entries.map (·.1) := by simp
    rw [h]
    exact m.nodup_keys⟩

/-- the same entries in any order -/
def sameEntries [BEq ν] (a b : OrderedMap κ ν) : Bool :=
  a.entries.length = b.entries.length && a.entries.all fun e =>
    match b.get? e.1 with
    | some v => v == e.2
    | none => false

end OrderedMap

end Turnstile
