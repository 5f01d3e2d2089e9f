/-
The trace of a map before anything runs.

- `CoverageMap.Counts`: the counters that a map has something to say about;
- `Trace.Has`: the counters that a trace has a place for;
- `has_initial_iff`: the initial trace of a map has a place for the counters of the map and for no others.
-/
import Turnstile.Coverage.Trace
import Turnstile.Emit.Snippet
import Turnstile.Proofs.Coverage.Tables

namespace Turnstile

/-- the same counter under a changed reference -/
def Counter.map {ρ σ : Type} (f : ρ → σ) : Counter ρ → Counter σ
  | statement ref => .statement (f ref)
  | function ref => .function (f ref)
  | branch ref slot => .branch (f ref) slot

/-- the counters of a map: ids are places in its tables, counted from one, and a branch has a slot for each alternative -/
def CoverageMap.Counts (m : CoverageMap) : Counter ℕ → Prop
  | .statement id => 0 < id ∧ id ≤ m.statements.length
  | .function id => 0 < id ∧ id ≤ m.functions.length
  | .branch id slot => 0 < id ∧ ∃ b, m.branches[id - 1]? = some b ∧ slot < b.alternatives.length

/-- the counters that a trace has a place for: the keys of its tables, and the slots of its branches -/
def Trace.Has (t : Trace) : Counter ℤ → Prop
  | .statement id => id ∈ t.statements.keys
  | .function id => id ∈ t.functions.keys
  | .branch id slot => ∃ counts, (id, counts) ∈ t.branches.entries ∧ slot < counts.length

/-! ## Numbered entries -/

theorem mem_numbered_iff {α : Type} {xs : List α} {i : ℤ} {x : α} :
    (i, x) ∈ numbered xs ↔ ∃ id : ℕ, i = id ∧ 0 < id ∧ xs[id - 1]? = some x := by
  simp only [numbered, List.mem_map, Prod.exists, List.mem_zipIdx_iff_getElem?, Prod.mk.injEq]
  constructor
  · rintro ⟨y, j, hj, rfl, rfl⟩
    exact ⟨j + 1, rfl, by omega, hj⟩
  · rintro ⟨id, rfl, hid, hx⟩
    exact ⟨x, id - 1, hx, by omega, rfl⟩

theorem nodup_numbered {α : Type} (xs : List α) : ((numbered xs).map Prod.fst).Nodup := by
  have hids : (numbered xs).map Prod.fst = (List.range' 0 xs.length).map fun i => ((i + 1 : ℕ) : ℤ) := by
    rw [numbered, List.map_map, ← List.zipIdx_map_snd 0 xs, List.map_map]
    rfl
  rw [hids]
  refine List.Nodup.map (fun i j hij => ?_) List.nodup_range'
  have : ((i + 1 : ℕ) : ℤ) = ((j + 1 : ℕ) : ℤ) := hij
  omega

namespace Trace

theorem entries_zeros {α β : Type} (zero : α → β) (xs : List α) :
    (zeros zero xs).entries = (numbered xs).map fun (id, x) => (id, zero x) := by
  refine OrderedMap.entries_ofList ?_
  rw [List.map_map]
  exact nodup_numbered xs

theorem mem_entries_zeros_iff {α β : Type} {zero : α → β} {xs : List α} {i : ℤ} {y : β} :
    (i, y) ∈ (zeros zero xs).entries ↔ ∃ (id : ℕ) (x : α), i = id ∧ 0 < id ∧ xs[id - 1]? = some x ∧ zero x = y := by
  rw [entries_zeros, List.mem_map]
  constructor
  · rintro ⟨⟨j, x⟩, hx, he⟩
    obtain ⟨rfl, rfl⟩ := Prod.mk.inj he
    obtain ⟨id, rfl, hid, hx⟩ := mem_numbered_iff.1 hx
    exact ⟨id, x, rfl, hid, hx, rfl⟩
  · rintro ⟨id, x, rfl, hid, hx, rfl⟩
    exact ⟨(id, x), mem_numbered_iff.2 ⟨id, rfl, hid, hx⟩, rfl⟩

theorem mem_keys_zeros_iff {α β : Type} {zero : α → β} {xs : List α} {i : ℤ} :
    i ∈ (zeros zero xs).keys ↔ ∃ id : ℕ, i = id ∧ 0 < id ∧ id ≤ xs.length := by
  rw [OrderedMap.keys, List.mem_map]
  constructor
  · rintro ⟨⟨j, y⟩, hy, rfl⟩
    obtain ⟨id, x, rfl, hid, hx, -⟩ := mem_entries_zeros_iff.1 hy
    have := (List.getElem?_eq_some_iff.1 hx).1
    exact ⟨id, rfl, hid, by omega⟩
  · rintro ⟨id, rfl, hid, hlen⟩
    have hx : xs[id - 1]? = some xs[id - 1] := List.getElem?_eq_getElem (by omega)
    exact ⟨(id, zero xs[id - 1]), mem_entries_zeros_iff.2 ⟨id, _, rfl, hid, hx, rfl⟩, rfl⟩

/-- **The initial trace of a map has a place for each of its counters, and for nothing else.** -/
theorem has_initial_iff (m : CoverageMap) (code : Option (List String)) (c : Counter ℤ) :
    (initial m code).Has c ↔ ∃ c', m.Counts c' ∧ c = c'.map Int.ofNat := by
  cases c with
  | statement i =>
    refine mem_keys_zeros_iff.trans ⟨?_, ?_⟩
    · rintro ⟨id, rfl, hid⟩
      exact ⟨.statement id, hid, rfl⟩
    · rintro ⟨c', hc, he⟩
      cases c' <;> cases he
      exact ⟨_, rfl, hc⟩
  | function i =>
    refine mem_keys_zeros_iff.trans ⟨?_, ?_⟩
    · rintro ⟨id, rfl, hid⟩
      exact ⟨.function id, hid, rfl⟩
    · rintro ⟨c', hc, he⟩
      cases c' <;> cases he
      exact ⟨_, rfl, hc⟩
  | branch i slot =>
    constructor
    · rintro ⟨counts, hc, hslot⟩
      obtain ⟨id, b, rfl, hid, hb, rfl⟩ := mem_entries_zeros_iff.1 hc
      exact ⟨.branch id slot, ⟨hid, b, hb, by simpa using hslot⟩, rfl⟩
    · rintro ⟨c', hc, he⟩
      cases c' <;> cases he
      obtain ⟨hid, b, hb, hslot⟩ := hc
      exact ⟨_, mem_entries_zeros_iff.2 ⟨_, b, rfl, hid, hb, rfl⟩, by simpa using hslot⟩

end Trace

end Turnstile
